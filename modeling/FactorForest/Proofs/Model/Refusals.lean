import FactorForest.Proofs.Model.Parts

set_option autoImplicit false

namespace FactorForest.Model

/-- Among the variables `vs`, the first that is not accepted is `v`, which is known as `known`; in
front of it stand `pre`. -/
structure Clash (m : Model) (vs pre : List Variable) (v known : Variable) : Prop where
  first : pre ++ [v] <+: vs
  accepted : ∀ u ∈ pre, m.Accepts u
  registered : m.vars.find? v.id = some known
  arity : known.arity ≠ v.arity

/-- What a refused factor leaves behind, `pre` being its variables in front of the one that
clashed. -/
structure Residue (m : Model) (f : Factor) (w : Option Double) (pre : List Variable) (m' : Model) :
    Prop where
  factors : m'.factors = m.factors.push f
  weights : m'.weights = m.weights.push w
  names : m'.names = m.names
  vars : ∀ id : Nat, m'.vars.find? id =
    (pre.find? fun u => (u.id : Int) == id).or (m.vars.find? id)
  index : ∀ id : Nat, m'.index.find? id =
    if (pre.find? fun u => (u.id : Int) == id).isSome
    then some ((m.index.find? id).getD [] ++ [m.factors.size]) else m.index.find? id

/-- The variables of every factor are registered as the factor has them. -/
def Coherent (m : Model) : Prop :=
  ∀ f ∈ m.factors, ∀ v ∈ f.scope.vars, m.vars.find? v.id = some v

/-- A factor is offered; if it is refused, the model goes on as the refusal left it. -/
def offer (m : Model) (a : Factor × Option Double) : Model := (m.addFactor a.1 a.2).1

def offers (m : Model) (as : List (Factor × Option Double)) : Model := as.foldl offer m

theorem not_accepts_iff {m : Model} {v : Variable} :
    ¬ m.Accepts v ↔ ∃ known, m.vars.find? v.id = some known ∧ known.arity ≠ v.arity := by
  unfold Accepts
  push Not
  rfl

theorem register_cons_of_clash {m : Model} {v known : Variable}
    (hk : m.vars.find? v.id = some known) (hne : known.arity ≠ v.arity) (fid : Nat)
    (vs : List Variable) : m.register fid (v :: vs) =
      (m, .error (.told (.registeredArity v.id known.arity fid v.arity))) := by
  rw [register]
  simp only [hk, if_neg hne]

theorem register_eq_error {m m' : Model} {fid : Nat} {vs : List Variable} {e : Fault}
    (hvs : vs.Pairwise fun v w => v.id < w.id) (h : m.register fid vs = (m', .error e)) :
    ∃ pre v known, m.Clash vs pre v known ∧
      e = .told (.registeredArity v.id known.arity fid v.arity) ∧ m' = m.enterAll fid pre := by
  induction vs generalizing m with
  | nil => exact nomatch h
  | cons v vs ih =>
    have hv := List.pairwise_cons.1 hvs
    by_cases ha : m.Accepts v
    · rw [register_cons_of_accepts ha] at h
      obtain ⟨pre, u, known, hc, he, hm⟩ := ih hv.2 h
      -- entering `v` does not matter to what follows it, which has other ids
      have hlt : ∀ w ∈ pre ++ [u], v.id < w.id := fun w hw => hv.1 w (hc.first.mem hw)
      have hne : ∀ w ∈ pre ++ [u], w.id ≠ v.id := fun w hw => Nat.ne_of_gt (hlt w hw)
      have hu : u.id ≠ v.id := hne u (by simp)
      refine ⟨v :: pre, u, known, ⟨?_, ?_, ?_, hc.arity⟩, he, hm⟩
      · exact List.cons_prefix_cons.2 ⟨rfl, hc.first⟩
      · intro w hw
        rcases List.mem_cons.1 hw with rfl | hw
        · exact ha
        · exact (accepts_enter (hne w (List.mem_append_left _ hw))).1 (hc.accepted w hw)
      · have hk := hc.registered
        rw [enter, IdMap.find?_insert, if_neg hu] at hk
        exact hk
    · obtain ⟨known, hk, hne⟩ := not_accepts_iff.1 ha
      rw [register_cons_of_clash hk hne] at h
      cases h
      refine ⟨[], v, known, ⟨?_, ?_, hk, hne⟩, rfl, rfl⟩
      · exact List.cons_prefix_cons.2 ⟨rfl, List.nil_prefix⟩
      · exact fun u hu => absurd hu List.not_mem_nil

theorem residue_enterAll (m : Model) (f : Factor) (w : Option Double) {pre : List Variable}
    (hp : pre <+: f.scope.vars) : m.Residue f w pre
      (enterAll { m with factors := m.factors.push f, weights := m.weights.push w } m.factors.size
        pre) := by
  have hpre : pre.Pairwise fun v w => v.id < w.id := List.Pairwise.sublist hp.sublist f.scope.ascending
  refine ⟨?_, ?_, ?_, ?_, ?_⟩
  · exact enterAll_factors _ _ _
  · exact enterAll_weights _ _ _
  · exact enterAll_names _ _ _
  · exact fun id => find?_vars_enterAll hpre _ _ id
  · exact fun id => find?_index_enterAll hpre _ _ id

theorem addFactor_eq_error {m m' : Model} {f : Factor} {w : Option Double} {e : Fault}
    (h : m.addFactor f w = (m', .error e)) :
    ∃ pre v known, m.Clash f.scope.vars pre v known ∧
      e = .told (.registeredArity v.id known.arity m.factors.size v.arity) ∧
      m.Residue f w pre m' := by
  obtain ⟨pre, v, known, hc, he, rfl⟩ := register_eq_error f.scope.ascending h
  refine ⟨pre, v, known, ⟨hc.first, hc.accepted, hc.registered, hc.arity⟩, he, ?_⟩
  exact residue_enterAll m f w ((List.prefix_append pre [v]).trans hc.first)

theorem residue_offer (m : Model) (a : Factor × Option Double) :
    ∃ pre, pre <+: a.1.scope.vars ∧ (∀ u ∈ pre, m.Accepts u) ∧
      m.Residue a.1 a.2 pre (m.offer a) := by
  obtain ⟨f, w⟩ := a
  rw [offer]
  cases h : m.addFactor f w with
  | mk m' r =>
    cases r with
    | ok n =>
      obtain ⟨hacc, rfl, -⟩ := addFactor_eq_ok_iff.1 h
      exact ⟨f.scope.vars, List.prefix_rfl, hacc, residue_enterAll m f w List.prefix_rfl⟩
    | error e =>
      obtain ⟨pre, v, known, hc, -, hr⟩ := addFactor_eq_error h
      exact ⟨pre, (List.prefix_append pre [v]).trans hc.first, hc.accepted, hr⟩

theorem factors_offer (m : Model) (a : Factor × Option Double) :
    (m.offer a).factors = m.factors.push a.1 := by
  obtain ⟨pre, -, -, hr⟩ := residue_offer m a
  exact hr.factors

theorem weights_offer (m : Model) (a : Factor × Option Double) :
    (m.offer a).weights = m.weights.push a.2 := by
  obtain ⟨pre, -, -, hr⟩ := residue_offer m a
  exact hr.weights

theorem factors_offers (m : Model) (as : List (Factor × Option Double)) :
    (m.offers as).factors.toList = m.factors.toList ++ as.map (·.1) := by
  induction as generalizing m with
  | nil => simp [offers]
  | cons a as ih =>
    have h := ih (m.offer a)
    rw [factors_offer] at h
    simpa [offers] using h

theorem weights_offers (m : Model) (as : List (Factor × Option Double)) :
    (m.offers as).weights.toList = m.weights.toList ++ as.map (·.2) := by
  induction as generalizing m with
  | nil => simp [offers]
  | cons a as ih =>
    have h := ih (m.offer a)
    rw [weights_offer] at h
    simpa [offers] using h

theorem Residue.find?_vars {m m' : Model} {f : Factor} {w : Option Double} {pre : List Variable}
    (hr : m.Residue f w pre m') (hacc : ∀ u ∈ pre, m.Accepts u) {id : Nat} {known : Variable}
    (h : m.vars.find? id = some known) :
    ∃ k, m'.vars.find? id = some k ∧ k.arity = known.arity := by
  -- a variable that is registered again is the same, since it was accepted
  rw [hr.vars]
  cases hf : pre.find? fun u => (u.id : Int) == id with
  | none => exact ⟨known, h, rfl⟩
  | some u =>
    obtain ⟨hu, rfl⟩ := Variable.of_find?_id hf
    exact ⟨u, rfl, (hacc u hu known h).symm⟩

theorem arity_offer {m : Model} {id : Nat} {known : Variable} (h : m.vars.find? id = some known)
    (a : Factor × Option Double) :
    ∃ k, (m.offer a).vars.find? id = some k ∧ k.arity = known.arity := by
  obtain ⟨pre, -, hacc, hr⟩ := residue_offer m a
  exact hr.find?_vars hacc h

theorem arity_offers {m : Model} {id : Nat} {known : Variable} (h : m.vars.find? id = some known)
    (as : List (Factor × Option Double)) :
    ∃ k, (m.offers as).vars.find? id = some k ∧ k.arity = known.arity := by
  induction as generalizing m known with
  | nil => exact ⟨known, h, rfl⟩
  | cons a as ih =>
    obtain ⟨k, hk, ha⟩ := arity_offer h a
    rw [← ha]
    exact ih hk

theorem offers_of_addAll {m m' : Model} {as : List (Factor × Option Double)}
    (h : m.addAll as = .ok m') : m.offers as = m' := by
  induction as generalizing m with
  | nil => exact Except.ok.inj h
  | cons a as ih =>
    rw [addAll] at h
    split at h
    · rename_i m₁ n hm₁
      have hoffer : m.offer a = m₁ := congrArg Prod.fst hm₁
      rw [offers, List.foldl_cons, hoffer]
      exact ih h
    · exact nomatch h

theorem rebuild_zip (m : Model) (as : List (Factor × Option Double)) :
    m.rebuild (as.map (·.1)) (some (as.map (·.2))) = m.addAll as := by
  induction as generalizing m with
  | nil => rfl
  | cons a as ih =>
    rw [List.map_cons, List.map_cons, rebuild, addAll]
    cases m.addFactor a.1 a.2 with
    | mk m' r =>
      cases r with
      | ok n => exact ih m'
      | error e => rfl

theorem addAll_refused {m m' : Model} {as : List (Factor × Option Double)} {f : Factor}
    {w : Option Double} {e : Fault} (h : (m.offers as).addFactor f w = (m', .error e))
    (bs : List (Factor × Option Double)) : ∃ d, m.addAll (as ++ (f, w) :: bs) = .error d := by
  induction as generalizing m with
  | nil =>
    change m.addFactor f w = (m', .error e) at h
    refine ⟨e, ?_⟩
    rw [List.nil_append, addAll, h]
  | cons a as ih =>
    change ((m.offer a).offers as).addFactor f w = (m', .error e) at h
    rw [List.cons_append, addAll]
    rw [offer] at h
    cases ha : m.addFactor a.1 a.2 with
    | mk m₁ r =>
      rw [ha] at h
      cases r with
      | ok n => exact ih h
      | error d => exact ⟨d, rfl⟩

theorem reassemble_offers {as : List (Factor × Option Double)} {d : Fault}
    (h : ({} : Model).addAll as = .error d) : (({} : Model).offers as).reassemble = .error d := by
  have hr := rebuild_zip {} as
  have hf := factors_offers {} as
  have hw := weights_offers {} as
  rw [List.nil_append] at hf hw
  rw [reassemble, ofParts, hf, hw, hr, h]
  rfl

theorem not_coherent_of_clash {m : Model} {f : Factor} {pre : List Variable} {v known : Variable}
    (hc : m.Clash f.scope.vars pre v known) (w : Option Double)
    (bs : List (Factor × Option Double)) : ¬ (m.offers ((f, w) :: bs)).Coherent := by
  -- the factor stays, and so does the arity that it clashed with
  intro hco
  have hf : f ∈ (m.offers ((f, w) :: bs)).factors := by
    apply Array.mem_toList_iff.1
    rw [factors_offers]
    simp
  have hv : v ∈ f.scope.vars := hc.first.mem (List.mem_append_right pre List.mem_cons_self)
  obtain ⟨k, hk, ha⟩ := arity_offers hc.registered ((f, w) :: bs)
  rw [hco f hf v hv] at hk
  cases hk
  exact hc.arity ha.symm

/-- A refusal is final. Wherever a factor is refused, it stays in the model with its weight and with
its variables in front of the one that clashed, and whatever is offered later, the model stays
incoherent and does not come back from its own parts. -/
theorem refused_offer (as : List (Factor × Option Double)) {m' : Model} {f : Factor}
    {w : Option Double} {e : Fault}
    (h : (({} : Model).offers as).addFactor f w = (m', .error e)) :
    (∃ pre v known, (({} : Model).offers as).Clash f.scope.vars pre v known ∧
      e = .told (.registeredArity v.id known.arity as.length v.arity) ∧
        (({} : Model).offers as).Residue f w pre m') ∧
    ∀ bs, ¬ (m'.offers bs).Coherent ∧ ∃ d, (m'.offers bs).reassemble = .error d := by
  have hsize : (({} : Model).offers as).factors.size = as.length := by
    simpa using congrArg List.length (factors_offers {} as)
  have hm' : (({} : Model).offers as).offer (f, w) = m' := congrArg Prod.fst h
  obtain ⟨pre, v, known, hc, he, hr⟩ := addFactor_eq_error h
  refine ⟨⟨pre, v, known, hc, hsize ▸ he, hr⟩, ?_⟩
  intro bs
  constructor
  · rw [← hm']
    exact not_coherent_of_clash hc w bs
  · obtain ⟨d, hd⟩ := addAll_refused h bs
    have hrun : ({} : Model).offers (as ++ (f, w) :: bs) = m'.offers bs := by
      rw [← hm', offers, List.foldl_append]
      rfl
    exact ⟨d, hrun ▸ reassemble_offers hd⟩

def firstFactor : Factor := Factor.zero (Scope.pair (.upTo 0 1) (.upTo 1 1) Nat.zero_lt_one)

/-- Agrees with the first factor on the variable 0 but not on the variable 1. -/
def secondFactor : Factor := Factor.zero (Scope.pair (.upTo 0 1) (.upTo 1 2) Nat.zero_lt_one)

theorem refused_offer_second :
    let m := ({} : Model).offers [(firstFactor, none)]
    let m' := (m.addFactor secondFactor none).1
    (m.addFactor secondFactor none).2 = .error (.registeredArity 1 2 1 3) ∧
      (∃ pre v known, m.Clash secondFactor.scope.vars pre v known ∧
        .registeredArity 1 2 1 3 = Fault.told (.registeredArity v.id known.arity 1 v.arity) ∧
          m.Residue secondFactor none pre m') ∧
      ∀ bs, ¬ (m'.offers bs).Coherent ∧ ∃ d, (m'.offers bs).reassemble = .error d := by
  intro m m'
  have hr : (m.addFactor secondFactor none).2 = .error (.registeredArity 1 2 1 3) := by
    decide +kernel
  exact ⟨hr, refused_offer [(firstFactor, none)] (Prod.ext rfl hr)⟩

/-- So a refusal does change the model. -/
theorem refused_offer_changes : ¬ ∀ (as : List (Factor × Option Double)) (m' : Model) (f : Factor)
    (w : Option Double) (e : Fault),
    (({} : Model).offers as).addFactor f w = (m', .error e) → m' = ({} : Model).offers as := by
  intro h
  let known := Factor.zero (Scope.single (.upTo 0 1))
  let other := Factor.zero (Scope.single (.upTo 0 2))
  let m := ({} : Model).offers [(known, none)]
  have hr : (m.addFactor other none).2 = .error (.registeredArity 0 2 1 3) := by
    decide +kernel
  have hm : (m.addFactor other none).1 = m :=
    h [(known, none)] (m.addFactor other none).1 other none (.registeredArity 0 2 1 3)
      (Prod.ext rfl hr)
  have hs : 2 = 1 := congrArg (fun m => m.factors.size) hm
  exact absurd hs (by decide)

end FactorForest.Model
