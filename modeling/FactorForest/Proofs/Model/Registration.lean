import FactorForest.Model.Basic
import FactorForest.Proofs.IdMap
import FactorForest.Proofs.Scope

set_option autoImplicit false

namespace FactorForest

namespace Model

def Accepts (m : Model) (v : Variable) : Prop :=
  ∀ known, m.vars.find? v.id = some known → known.arity = v.arity

instance (m : Model) (v : Variable) : Decidable (m.Accepts v) :=
  inferInstanceAs (Decidable (∀ known, m.vars.find? v.id = some known → known.arity = v.arity))

def enterAll (m : Model) (fid : Nat) (vs : List Variable) : Model :=
  vs.foldl (fun m v => m.enter fid v) m

theorem register_cons_of_accepts {m : Model} {v : Variable} (h : m.Accepts v) (fid : Nat)
    (vs : List Variable) : m.register fid (v :: vs) = (m.enter fid v).register fid vs := by
  rw [register]
  split
  · rename_i known hk
    rw [if_pos (h known hk)]
  · rfl

theorem register_cons_of_not_accepts {m : Model} {v : Variable} (h : ¬ m.Accepts v) (fid : Nat)
    (vs : List Variable) : ∃ e, m.register fid (v :: vs) = (m, .error e) := by
  rw [register]
  split
  · rename_i known hk
    have hne : known.arity ≠ v.arity := fun he => h fun k hk' => by
      cases hk.symm.trans hk'
      exact he
    exact ⟨_, if_neg hne⟩
  · rename_i hn
    exact absurd (fun k hk => by rw [hn] at hk; exact absurd hk (by simp)) h

theorem accepts_enter {m : Model} {fid : Nat} {v w : Variable} (h : w.id ≠ v.id) :
    (m.enter fid v).Accepts w ↔ m.Accepts w := by
  simp [Accepts, enter, h]

theorem register_eq_ok_iff {m m' : Model} {fid n : Nat} {vs : List Variable}
    (hvs : vs.Pairwise fun v w => v.id < w.id) :
    m.register fid vs = (m', .ok n) ↔
      (∀ v ∈ vs, m.Accepts v) ∧ m' = m.enterAll fid vs ∧ n = fid := by
  induction vs generalizing m with
  | nil => simp [register, enterAll, eq_comm]
  | cons v vs ih =>
    have hv := List.pairwise_cons.1 hvs
    by_cases ha : m.Accepts v
    · have hw : ∀ w ∈ vs, (m.enter fid v).Accepts w ↔ m.Accepts w := fun w hw =>
        accepts_enter (Nat.ne_of_gt (hv.1 w hw))
      rw [register_cons_of_accepts ha, ih hv.2]
      simp only [List.mem_cons, forall_eq_or_imp, ha, true_and]
      exact and_congr_left fun _ => forall₂_congr hw
    · obtain ⟨e, he⟩ := register_cons_of_not_accepts ha fid vs
      rw [he]
      simp [ha]

theorem enterAll_names (m : Model) (fid : Nat) (vs : List Variable) :
    (m.enterAll fid vs).names = m.names := by
  induction vs generalizing m with
  | nil => rfl
  | cons v vs ih => exact ih (m.enter fid v)

theorem enterAll_factors (m : Model) (fid : Nat) (vs : List Variable) :
    (m.enterAll fid vs).factors = m.factors := by
  induction vs generalizing m with
  | nil => rfl
  | cons v vs ih => exact ih (m.enter fid v)

theorem enterAll_weights (m : Model) (fid : Nat) (vs : List Variable) :
    (m.enterAll fid vs).weights = m.weights := by
  induction vs generalizing m with
  | nil => rfl
  | cons v vs ih => exact ih (m.enter fid v)

theorem find?_eq_none_of_lt {v : Variable} {vs : List Variable} (h : ∀ w ∈ vs, v.id < w.id) :
    (vs.find? fun w => (w.id : Int) == v.id) = none := by
  refine List.find?_eq_none.2 fun w hw => ?_
  have hlt := h w hw
  rw [beq_iff_eq]
  omega

theorem find?_vars_enterAll {vs : List Variable} (hvs : vs.Pairwise fun v w => v.id < w.id)
    (m : Model) (fid id : Nat) :
    (m.enterAll fid vs).vars.find? id =
      (vs.find? fun v => (v.id : Int) == id).or (m.vars.find? id) := by
  induction vs generalizing m with
  | nil => rfl
  | cons v vs ih =>
    have hv := List.pairwise_cons.1 hvs
    change ((m.enter fid v).enterAll fid vs).vars.find? id = _
    rw [ih hv.2]
    by_cases hi : id = v.id
    · subst hi
      simp [find?_eq_none_of_lt hv.1, enter]
    · have hb : ((v.id : Int) == id) = false := beq_eq_false_iff_ne.2 (by omega)
      simp [hb, enter, hi]

theorem find?_index_enterAll {vs : List Variable} (hvs : vs.Pairwise fun v w => v.id < w.id)
    (m : Model) (fid id : Nat) :
    (m.enterAll fid vs).index.find? id =
      if (vs.find? fun v => (v.id : Int) == id).isSome
      then some ((m.index.find? id).getD [] ++ [fid]) else m.index.find? id := by
  induction vs generalizing m with
  | nil => rfl
  | cons v vs ih =>
    have hv := List.pairwise_cons.1 hvs
    change ((m.enter fid v).enterAll fid vs).index.find? id = _
    rw [ih hv.2]
    by_cases hi : id = v.id
    · subst hi
      simp [find?_eq_none_of_lt hv.1, enter]
    · have hb : ((v.id : Int) == id) = false := beq_eq_false_iff_ne.2 (by omega)
      simp [hb, enter, hi]

def extend (m : Model) (f : Factor) (w : Option Double) : Model :=
  enterAll { m with factors := m.factors.push f, weights := m.weights.push w } m.factors.size
    f.scope.vars

theorem addFactor_eq_ok_iff {m m' : Model} {f : Factor} {w : Option Double} {n : Nat} :
    m.addFactor f w = (m', .ok n) ↔
      (∀ v ∈ f.scope.vars, m.Accepts v) ∧ m' = m.extend f w ∧ n = m.factors.size :=
  register_eq_ok_iff f.scope.ascending

theorem extend_factors (m : Model) (f : Factor) (w : Option Double) :
    (m.extend f w).factors = m.factors.push f :=
  enterAll_factors _ _ _

theorem extend_weights (m : Model) (f : Factor) (w : Option Double) :
    (m.extend f w).weights = m.weights.push w :=
  enterAll_weights _ _ _

theorem find?_vars_extend (m : Model) (f : Factor) (w : Option Double) (id : Nat) :
    (m.extend f w).vars.find? id = (f.scope.find? id).or (m.vars.find? id) :=
  find?_vars_enterAll f.scope.ascending _ _ _

theorem find?_index_extend (m : Model) (f : Factor) (w : Option Double) (id : Nat) :
    (m.extend f w).index.find? id =
      if f.scope.contains id then some ((m.index.find? id).getD [] ++ [m.factors.size])
      else m.index.find? id :=
  find?_index_enterAll f.scope.ascending _ _ _

/-- Models made from the empty one by adding factors that are accepted and by giving names. -/
inductive Built : Model → Prop
  | empty : Built {}
  | add {m m' : Model} {f : Factor} {w : Option Double} {n : Nat} :
      Built m → m.addFactor f w = (m', .ok n) → Built m'
  | name {m : Model} (names : List String) : Built m → Built { m with names }

theorem Built.extend {m : Model} (h : m.Built) {f : Factor} {w : Option Double}
    (hf : ∀ v ∈ f.scope.vars, m.Accepts v) : (m.extend f w).Built :=
  h.add (addFactor_eq_ok_iff.2 ⟨hf, rfl, rfl⟩)

def touching (m : Model) (id : Nat) : List Nat :=
  (List.range m.factors.size).filter fun k => m.factors[k]?.any fun f => f.scope.contains id

/-- What the maps of a model say of its factors. -/
structure Registered (m : Model) : Prop where
  weights : m.weights.size = m.factors.size
  vars : ∀ id v, m.vars.find? id = some v ↔ v.id = id ∧ ∃ f ∈ m.factors, v ∈ f.scope.vars
  index : ∀ id, m.index.find? id = if m.touching id = [] then none else some (m.touching id)

theorem touching_extend (m : Model) (f : Factor) (w : Option Double) (id : Nat) :
    (m.extend f w).touching id =
      m.touching id ++ if f.scope.contains id then [m.factors.size] else [] := by
  unfold touching
  rw [extend_factors, Array.size_push, List.range_succ, List.filter_append]
  congr 1
  · apply List.filter_congr
    intro k hk
    have hlt := List.mem_range.1 hk
    rw [Array.getElem?_push_lt hlt, Array.getElem?_eq_getElem hlt]
  · simp [List.filter_cons]

theorem mem_touching {m : Model} {id k : Nat} :
    k ∈ m.touching id ↔ ∃ f, m.factors[k]? = some f ∧ f.scope.contains id := by
  rw [touching, List.mem_filter, List.mem_range]
  constructor
  · rintro ⟨_, h⟩
    simpa [Option.any_eq_true] using h
  · rintro ⟨f, hf, hc⟩
    exact ⟨(Array.getElem?_eq_some_iff.1 hf).1, by simp [hf, hc]⟩

theorem touching_ne_nil_iff {m : Model} {id : Nat} :
    m.touching id ≠ [] ↔ ∃ f ∈ m.factors, f.scope.contains id := by
  constructor
  · intro h
    obtain ⟨k, hk⟩ := List.exists_mem_of_ne_nil _ h
    obtain ⟨f, hf, hc⟩ := mem_touching.1 hk
    exact ⟨f, Array.mem_of_getElem? hf, hc⟩
  · rintro ⟨f, hf, hc⟩
    obtain ⟨k, hk⟩ := Array.mem_iff_getElem?.1 hf
    exact List.ne_nil_of_mem (mem_touching.2 ⟨f, hk, hc⟩)

theorem registered_empty : Registered {} := by
  refine ⟨rfl, ?_, fun id => rfl⟩
  intro id v
  simp

theorem Registered.extend {m : Model} (hm : m.Registered) {f : Factor} {w : Option Double}
    (ha : ∀ v ∈ f.scope.vars, m.Accepts v) : (m.extend f w).Registered := by
  refine ⟨?_, ?_, ?_⟩
  · rw [extend_weights, extend_factors, Array.size_push, Array.size_push, hm.weights]
  · intro id v
    rw [find?_vars_extend, extend_factors, Option.or_eq_some_iff, hm.vars]
    simp only [Array.mem_push, Scope.find?_eq_some_iff]
    constructor
    · rintro (⟨hv, hi⟩ | ⟨_, hi, g, hg, hv⟩)
      · exact ⟨hi, f, .inr rfl, hv⟩
      · exact ⟨hi, g, .inl hg, hv⟩
    · rintro ⟨hi, g, hg | rfl, hv⟩
      · cases hf : f.scope.find? id with
        | none => exact .inr ⟨rfl, hi, g, hg, hv⟩
        | some u =>
          -- the new factor holds the id too, with the arity that is registered
          obtain ⟨hu, hui⟩ := Scope.find?_eq_some_iff.1 hf
          have hk : m.vars.find? u.id = some v := (hm.vars _ _).2 ⟨hi.trans hui.symm, g, hg, hv⟩
          have huv : v = u := Variable.ext_id_arity (hi.trans hui.symm) (ha u hu v hk)
          exact .inl ⟨huv ▸ hu, hi⟩
      · exact .inl ⟨hv, hi⟩
  · intro id
    rw [find?_index_extend, touching_extend, hm.index]
    by_cases hc : f.scope.contains id
    · by_cases ht : m.touching id = [] <;> simp [hc, ht]
    · simp [hc]

theorem Built.registered {m : Model} (h : m.Built) : m.Registered := by
  induction h with
  | empty => exact registered_empty
  | add _ ha ih =>
    obtain ⟨hacc, rfl, -⟩ := addFactor_eq_ok_iff.1 ha
    exact ih.extend hacc
  | name names _ ih => exact ⟨ih.weights, ih.vars, ih.index⟩

namespace Registered

variable {m : Model}

theorem key_eq (hm : m.Registered) {e : Nat × Variable} (he : e ∈ m.vars.entries) :
    e.2.id = e.1 :=
  ((hm.vars _ _).1 (IdMap.mem_entries.1 he)).1

theorem ids_values (hm : m.Registered) : m.vars.values.map (·.id) = m.vars.keys := by
  rw [IdMap.values, List.map_map]
  exact List.map_congr_left fun e he => hm.key_eq he

theorem mem_values (hm : m.Registered) {v : Variable} :
    v ∈ m.vars.values ↔ m.vars.find? v.id = some v := by
  rw [IdMap.mem_values]
  constructor
  · rintro ⟨k, hk⟩
    rwa [((hm.vars k v).1 hk).1]
  · exact fun h => ⟨v.id, h⟩

theorem values_eq (hm : m.Registered) {vs : List Variable}
    (hvs : vs.Pairwise fun v w => v.id < w.id)
    (hmem : ∀ v, v ∈ vs ↔ ∃ f ∈ m.factors, v ∈ f.scope.vars) : m.vars.values = vs := by
  have hvalues : m.vars.values.Pairwise fun v w => v.id < w.id :=
    List.pairwise_map.1 (hm.ids_values ▸ m.vars.keys_ascending)
  refine hvalues.eq_of_mem_iff (r := fun v w : Variable => v.id < w.id) hvs fun v => ?_
  rw [hm.mem_values, hm.vars, hmem, eq_self, true_and]

theorem find?_vars (hm : m.Registered) {f : Factor} (hf : f ∈ m.factors) {v : Variable}
    (hv : v ∈ f.scope.vars) : m.vars.find? v.id = some v :=
  (hm.vars v.id v).2 ⟨rfl, f, hf, hv⟩

theorem mem_keys_vars (hm : m.Registered) {id : Nat} :
    id ∈ m.vars.keys ↔ ∃ f ∈ m.factors, f.scope.contains id := by
  simp only [IdMap.mem_keys, hm.vars, Scope.contains_iff]
  constructor
  · rintro ⟨v, hi, f, hf, hv⟩
    exact ⟨f, hf, v, hv, hi⟩
  · rintro ⟨f, hf, v, hv, hi⟩
    exact ⟨v, hi, f, hf, hv⟩

theorem keys_index (hm : m.Registered) : m.index.keys = m.vars.keys := by
  apply List.Pairwise.eq_of_mem_iff m.index.keys_ascending m.vars.keys_ascending
  intro id
  rw [hm.mem_keys_vars, ← touching_ne_nil_iff, IdMap.mem_keys, hm.index]
  by_cases ht : m.touching id = [] <;> simp [ht]

theorem size_index (hm : m.Registered) : m.index.size = m.vars.size := by
  rw [← IdMap.length_keys, ← IdMap.length_keys, hm.keys_index]

theorem factorIds (hm : m.Registered) (id : Nat) : m.factorIds id =
    if m.touching id = [] then .error (.told (.unregistered id)) else .ok (m.touching id) := by
  have hi := hm.index id
  by_cases ht : m.touching id = []
  · rw [if_pos ht] at hi ⊢
    simp [Model.factorIds, hi]
  · rw [if_neg ht] at hi ⊢
    simp [Model.factorIds, hi]

theorem entry_index (hm : m.Registered) {e : Nat × List Nat} (he : e ∈ m.index.entries) :
    e.2 = m.touching e.1 := by
  have hf := IdMap.mem_entries.1 he
  rw [hm.index] at hf
  split at hf
  · exact absurd hf (by simp)
  · exact (Option.some.inj hf).symm

end Registered

theorem lt_of_mem_touching {m : Model} {id k : Nat} (h : k ∈ m.touching id) :
    k < m.factors.size :=
  List.mem_range.1 (List.mem_of_mem_filter h)

theorem length_touching_le (m : Model) (id : Nat) : (m.touching id).length ≤ m.factors.size :=
  (List.length_filter_le _ _).trans (Nat.le_of_eq List.length_range)

end Model
end FactorForest
