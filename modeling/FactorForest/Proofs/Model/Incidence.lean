import FactorForest.Proofs.Model.Refusals

set_option autoImplicit false

namespace FactorForest.Model

/-- The ids of factors that are listed for a variable: some, in ascending order, and each of a
factor that holds the variable. -/
structure Incident (m : Model) (v : Variable) (ids : List Nat) : Prop where
  ne_nil : ids ≠ []
  ascending : ids.Pairwise (· < ·)
  holds : ∀ k ∈ ids, ∃ f, m.factors[k]? = some f ∧ v ∈ f.scope.vars

structure InStep (m : Model) : Prop where
  weights : m.weights.size = m.factors.size
  named : ∀ id v, m.vars.find? id = some v → v.id = id
  indexed : ∀ id v, m.vars.find? id = some v → ∃ ids, m.index.find? id = some ids
  incident : ∀ id ids, m.index.find? id = some ids →
    ∃ v, m.vars.find? id = some v ∧ m.Incident v ids

/-- The answers to offers in turn. -/
def answers (m : Model) : List (Factor × Option Double) → List (Except Fault Nat)
  | [] => []
  | a :: as => (m.addFactor a.1 a.2).2 :: answers (m.offer a) as

variable {m m' : Model} {f : Factor} {w : Option Double} {pre : List Variable}

theorem Incident.lt_size {v : Variable} {ids : List Nat} (h : m.Incident v ids) {k : Nat}
    (hk : k ∈ ids) : k < m.factors.size := by
  obtain ⟨f, hf, -⟩ := h.holds k hk
  exact (Array.getElem?_eq_some_iff.1 hf).1

theorem Residue.factor_new (hr : m.Residue f w pre m') :
    m'.factors[m.factors.size]? = some f := by
  rw [hr.factors, Array.getElem?_push_size]

theorem Residue.factor_old (hr : m.Residue f w pre m') {k : Nat} (hk : k < m.factors.size) :
    m'.factors[k]? = m.factors[k]? := by
  rw [hr.factors, Array.getElem?_push_lt hk, Array.getElem?_eq_getElem hk]

theorem InStep.keep (hm : m.InStep) (hr : m.Residue f w pre m') (hacc : ∀ u ∈ pre, m.Accepts u)
    {id : Nat} {v : Variable} (hv : m.vars.find? id = some v) : m'.vars.find? id = some v := by
  obtain ⟨k, hk, ha⟩ := hr.find?_vars hacc hv
  rw [hr.vars] at hk
  cases hf : pre.find? fun u => (u.id : Int) == id with
  | none => rw [hr.vars, hf, Option.none_or, hv]
  | some u =>
    rw [hf, Option.some_or] at hk
    have hid : u.id = v.id := (Variable.of_find?_id hf).2.trans (hm.named id v hv).symm
    have harity : u.arity = v.arity := (congrArg Variable.arity (Option.some.inj hk)).trans ha
    rw [hr.vars, hf, Option.some_or, Variable.ext_id_arity hid harity]

theorem Incident.keep {v : Variable} {ids : List Nat} (h : m.Incident v ids)
    (hr : m.Residue f w pre m') : m'.Incident v ids := by
  refine ⟨h.ne_nil, h.ascending, ?_⟩
  intro k hk
  rw [hr.factor_old (h.lt_size hk)]
  exact h.holds k hk

theorem Incident.add {v : Variable} {ids : List Nat} (h : m.Incident v ids)
    (hr : m.Residue f w pre m') (hv : v ∈ f.scope.vars) :
    m'.Incident v (ids ++ [m.factors.size]) := by
  refine ⟨by simp, ?_, ?_⟩
  · rw [List.pairwise_append]
    refine ⟨h.ascending, List.pairwise_singleton _ _, ?_⟩
    intro k hk n hn
    rw [List.mem_singleton.1 hn]
    exact h.lt_size hk
  · intro k hk
    rcases List.mem_append.1 hk with hk | hk
    · exact (h.keep hr).holds k hk
    · rw [List.mem_singleton.1 hk]
      exact ⟨f, hr.factor_new, hv⟩

theorem Residue.incident_new (hr : m.Residue f w pre m') {v : Variable} (hv : v ∈ f.scope.vars) :
    m'.Incident v [m.factors.size] := by
  refine ⟨by simp, List.pairwise_singleton _ _, ?_⟩
  intro k hk
  rw [List.mem_singleton.1 hk]
  exact ⟨f, hr.factor_new, hv⟩

theorem inStep_empty : InStep {} := by
  refine ⟨rfl, ?_, ?_, ?_⟩
  · exact fun id v h => nomatch h
  · exact fun id v h => nomatch h
  · exact fun id ids h => nomatch h

theorem InStep.residue (hm : m.InStep) (hp : pre <+: f.scope.vars)
    (hacc : ∀ u ∈ pre, m.Accepts u) (hr : m.Residue f w pre m') : m'.InStep := by
  refine ⟨?_, ?_, ?_, ?_⟩
  · rw [hr.weights, hr.factors, Array.size_push, Array.size_push, hm.weights]
  · intro id v hv
    rw [hr.vars] at hv
    rcases Option.or_eq_some_iff.1 hv with hf | ⟨-, hv⟩
    · exact (Variable.of_find?_id hf).2
    · exact hm.named id v hv
  · intro id v hv
    rw [hr.vars] at hv
    rw [hr.index]
    cases hf : pre.find? fun u => (u.id : Int) == id with
    | some u => exact ⟨_, if_pos rfl⟩
    | none =>
      rw [hf, Option.none_or] at hv
      exact hm.indexed id v hv
  · intro id ids hids
    rw [hr.index] at hids
    cases hf : pre.find? fun u => (u.id : Int) == id with
    | none =>
      -- the factor leaves nothing behind under this id
      rw [hf] at hids
      obtain ⟨v, hv, hi⟩ := hm.incident id ids hids
      exact ⟨v, hm.keep hr hacc hv, hi.keep hr⟩
    | some u =>
      obtain ⟨hu, rfl⟩ := Variable.of_find?_id hf
      rw [hf, Option.isSome_some, if_pos rfl] at hids
      have hfu : m'.vars.find? u.id = some u := by rw [hr.vars, hf, Option.some_or]
      cases hold : m.index.find? u.id with
      | none =>
        rw [hold] at hids
        cases hids
        exact ⟨u, hfu, hr.incident_new (hp.mem hu)⟩
      | some old =>
        rw [hold] at hids
        cases hids
        obtain ⟨v, hv, hi⟩ := hm.incident u.id old hold
        have huv : v = u := Option.some.inj ((hm.keep hr hacc hv).symm.trans hfu)
        exact ⟨u, hfu, (huv ▸ hi).add hr (hp.mem hu)⟩

theorem InStep.offer (hm : m.InStep) (a : Factor × Option Double) : (m.offer a).InStep := by
  obtain ⟨pre, hp, hacc, hr⟩ := residue_offer m a
  exact hm.residue hp hacc hr

theorem InStep.offers (hm : m.InStep) (as : List (Factor × Option Double)) :
    (m.offers as).InStep := by
  induction as generalizing m with
  | nil => exact hm
  | cons a as ih => exact ih (hm.offer a)

theorem InStep.keys_index (hm : m.InStep) : m.index.keys = m.vars.keys := by
  apply List.Pairwise.eq_of_mem_iff m.index.keys_ascending m.vars.keys_ascending
  intro id
  rw [IdMap.mem_keys, IdMap.mem_keys]
  constructor
  · rintro ⟨ids, hids⟩
    obtain ⟨v, hv, -⟩ := hm.incident id ids hids
    exact ⟨v, hv⟩
  · rintro ⟨v, hv⟩
    exact hm.indexed id v hv

theorem Built.offers (hm : m.Built) {as : List (Factor × Option Double)}
    (h : ∀ r ∈ m.answers as, ∃ n, r = .ok n) : (m.offers as).Built := by
  induction as generalizing m with
  | nil => exact hm
  | cons a as ih =>
    obtain ⟨⟨n, hn⟩, hrest⟩ := List.forall_mem_cons.1 h
    have ha : m.addFactor a.1 a.2 = (m.offer a, .ok n) := Prod.ext rfl hn
    exact ih (hm.add ha) hrest

theorem mem_offers {as : List (Factor × Option Double)} :
    f ∈ (({} : Model).offers as).factors ↔ ∃ a ∈ as, a.1 = f := by
  rw [← Array.mem_toList_iff, factors_offers]
  simp

/-- Whatever is offered to an empty model, there is a weight for each factor, the same ids are
registered and indexed, a registered variable keeps its arity, and under each id some factors are
listed in ascending order, all of which hold the variable. If nothing was refused, the variables are
those of all factors, and the index lists for each id the factors that touch it, in order. -/
theorem index_of_offers (as : List (Factor × Option Double)) :
    let m := ({} : Model).offers as
    m.weights.size = m.factors.size ∧ m.index.keys = m.vars.keys ∧
    (∀ id v, m.vars.find? id = some v →
      v.id = id ∧ ∀ bs, ∃ u, (m.offers bs).vars.find? id = some u ∧ u.arity = v.arity) ∧
    (∀ id ids, m.index.find? id = some ids → ids ≠ [] ∧ ids.Pairwise (· < ·) ∧
      ∃ v, m.vars.find? id = some v ∧
        ∀ k ∈ ids, ∃ f, m.factors[k]? = some f ∧ v ∈ f.scope.vars) ∧
    ((∀ r ∈ ({} : Model).answers as, ∃ n, r = .ok n) →
      (∀ v, v ∈ m.vars.values ↔ ∃ a ∈ as, v ∈ a.1.scope.vars) ∧
      ∀ id : Nat, m.factorIds id =
        if m.touching id = [] then .error (.told (.unregistered id)) else .ok (m.touching id)) := by
  intro m
  have hstep : m.InStep := inStep_empty.offers as
  refine ⟨hstep.weights, hstep.keys_index, ?_, ?_, ?_⟩
  · intro id v hv
    exact ⟨hstep.named id v hv, arity_offers hv⟩
  · intro id ids hids
    obtain ⟨v, hv, hi⟩ := hstep.incident id ids hids
    exact ⟨hi.ne_nil, hi.ascending, v, hv, hi.holds⟩
  · intro hall
    have hr : m.Registered := (Built.empty.offers hall).registered
    refine ⟨?_, hr.factorIds⟩
    intro v
    rw [hr.mem_values, hr.vars]
    simp [m, mem_offers]

/-- Shares the variable 1 with the first factor. -/
def thirdFactor : Factor := Factor.zero (Scope.single (.upTo 1 1))

theorem index_of_offers_shared :
    let as := [(firstFactor, none), (thirdFactor, some .zero)]
    let m := ({} : Model).offers as
    ({} : Model).answers as = [.ok 0, .ok 1] ∧ m.factorIds 0 = .ok [0] ∧
      m.factorIds 1 = .ok [0, 1] ∧ m.factorIds 2 = .error (.unregistered 2) := by
  intro as m
  have hanswers : ({} : Model).answers as = [.ok 0, .ok 1] := by decide
  obtain ⟨-, -, -, -, hall⟩ := index_of_offers as
  obtain ⟨-, hids⟩ := hall (by rw [hanswers]; simp)
  have h0 : m.touching 0 = [0] := by decide
  have h1 : m.touching 1 = [0, 1] := by decide
  have h2 : m.touching 2 = [] := by decide
  have htold : Fault.told (.unregistered 2) = .unregistered 2 := by decide +kernel
  refine ⟨hanswers, (hids 0).trans ?_, (hids 1).trans ?_, (hids 2).trans ?_⟩
  · simp [m, h0]
  · simp [m, h1]
  · simp [m, h2, htold]

end FactorForest.Model
