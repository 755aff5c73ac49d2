import FactorForest.Factor.Basic
import Mathlib.Data.List.Nodup

set_option autoImplicit false

namespace FactorForest

namespace Variable

def upTo (id top : Nat) : Variable := ⟨id, top + 1, Nat.succ_pos top⟩

theorem ext_id_arity {v w : Variable} (hi : v.id = w.id) (ha : v.arity = w.arity) : v = w := by
  cases v
  cases w
  cases hi
  cases ha
  rfl

theorem ofInts_natCast (v : Variable) : ofInts v.id v.arity = .ok v := by
  have hp := v.arity_pos
  have ha : ¬ (v.arity : Int) < 1 := by omega
  simp [ofInts, ha]

theorem of_ofInts {id arity : Int} {v : Variable} (h : ofInts id arity = .ok v) :
    (v.id : Int) = id ∧ (v.arity : Int) = arity := by
  rw [ofInts] at h
  split_ifs at h with hid harity
  cases h
  constructor <;> dsimp only <;> omega

theorem insertById_perm (v : Variable) (ws : List Variable) :
    (insertById v ws).Perm (v :: ws) := by
  induction ws with
  | nil => exact .refl _
  | cons w ws ih =>
    rw [insertById]
    split
    · exact .refl _
    · exact (ih.cons w).trans (.swap v w ws)

theorem sortById_perm (vs : List Variable) : (sortById vs).Perm vs := by
  induction vs with
  | nil => exact .refl _
  | cons v vs ih => exact (insertById_perm v _).trans (ih.cons v)

theorem firstRepeat?_eq_none {vs : List Variable} (h : vs.Pairwise fun v w => v.id < w.id) :
    firstRepeat? vs = none := by
  induction vs with
  | nil => rfl
  | cons v ws ih =>
    cases ws with
    | nil => rfl
    | cons w rest =>
      have hv := List.pairwise_cons.1 h
      have hlt := hv.1 w List.mem_cons_self
      rw [firstRepeat?, if_neg (Nat.ne_of_lt hlt)]
      exact ih hv.2

theorem pairwise_lt_sortById {vs : List Variable} (h : (vs.map (·.id)).Nodup) :
    (sortById vs).Pairwise fun v w => v.id < w.id := by
  have hne : (sortById vs).Pairwise fun v w => v.id ≠ w.id :=
    List.pairwise_map.1 (((sortById_perm vs).map Variable.id).nodup_iff.2 h)
  exact (pairwise_sortById vs).imp₂ (fun _ _ hle hn => Nat.lt_of_le_of_ne hle hn) hne

theorem of_find?_id {vs : List Variable} {id : Nat} {v : Variable}
    (h : (vs.find? fun w => (w.id : Int) == id) = some v) : v ∈ vs ∧ v.id = id := by
  have hid : ((v.id : Int) == id) = true :=
    List.find?_some (p := fun w : Variable => (w.id : Int) == id) h
  exact ⟨List.mem_of_find?_eq_some h, Int.ofNat_inj.1 (beq_iff_eq.1 hid)⟩

end Variable

namespace Scope

@[ext]
theorem ext {s t : Scope} (h : s.vars = t.vars) : s = t := by
  cases s
  cases t
  cases h
  rfl

theorem ids_nodup (s : Scope) : (s.vars.map (·.id)).Nodup :=
  List.pairwise_map.2 (s.ascending.imp fun h => Nat.ne_of_lt h)

theorem find?_eq_some_iff {s : Scope} {id : Nat} {v : Variable} :
    s.find? id = some v ↔ v ∈ s.vars ∧ v.id = id := by
  constructor
  · exact Variable.of_find?_id
  · rintro ⟨hv, rfl⟩
    cases hf : s.find? v.id with
    | none => exact absurd (beq_self_eq_true (v.id : Int)) (List.find?_eq_none.1 hf v hv)
    | some w =>
      obtain ⟨hw, hid⟩ := Variable.of_find?_id hf
      exact congrArg some (List.inj_on_of_nodup_map s.ids_nodup hw hv hid)

theorem contains_iff {s : Scope} {id : Nat} : s.contains id ↔ ∃ v ∈ s.vars, v.id = id := by
  rw [contains, Option.isSome_iff_exists]
  simp only [find?_eq_some_iff]

theorem ofList_of_nodup {vs : List Variable} (h : (vs.map (·.id)).Nodup) :
    ∃ s, ofList vs = .ok s ∧ s.vars = Variable.sortById vs := by
  have hr := Variable.firstRepeat?_eq_none (Variable.pairwise_lt_sortById h)
  rw [ofList]
  split
  · rename_i hs
    rw [hr] at hs
    exact absurd hs (by simp)
  · exact ⟨_, rfl, rfl⟩

theorem vars_of_ofList {vs : List Variable} {s : Scope} (h : ofList vs = .ok s) :
    s.vars = Variable.sortById vs := by
  rw [ofList] at h
  split at h
  · exact nomatch h
  · cases h
    rfl

theorem ofList_vars (s : Scope) : ofList s.vars = .ok s := by
  obtain ⟨t, ht, hv⟩ := ofList_of_nodup s.ids_nodup
  have hs : Variable.sortById s.vars = s.vars :=
    (Variable.sortById_perm s.vars).eq_of_pairwise (fun _ _ _ _ h k => absurd h (Nat.lt_asymm k))
      (Variable.pairwise_lt_sortById s.ids_nodup) s.ascending
  rw [ht, ext (hv.trans hs)]

theorem volume_le_of_sublist {vs ws : List Variable} (h : vs.Sublist ws) :
    volume vs ≤ volume ws := by
  induction h with
  | slnil => exact Nat.le_refl _
  | cons w _ ih => exact Nat.le_trans ih (Nat.le_mul_of_pos_left _ w.arity_pos)
  | cons_cons w _ ih => exact Nat.mul_le_mul_left w.arity ih

def pair (v w : Variable) (h : v.id < w.id) : Scope := ⟨[v, w], List.pairwise_pair.2 h⟩

end Scope

namespace Assignment

theorem outlier?_eq_none {vs : List Variable} {xs : List Nat} (h : Fits vs xs) :
    outlier? vs (xs.map Int.ofNat) = none := by
  induction vs generalizing xs with
  | nil => rfl
  | cons v vs ih =>
    cases xs with
    | nil => rfl
    | cons x xs =>
      have hx : 0 ≤ Int.ofNat x ∧ Int.ofNat x < v.arity := ⟨Int.natCast_nonneg x, by
        have := h.1
        simpa using this⟩
      rw [List.map_cons, outlier?, if_pos hx]
      exact ih h.2

theorem length_of_fits {vs : List Variable} {xs : List Nat} (h : Fits vs xs) :
    xs.length = vs.length := by
  induction vs generalizing xs with
  | nil =>
    cases xs with
    | nil => rfl
    | cons x xs => exact h.elim
  | cons v vs ih =>
    cases xs with
    | nil => exact h.elim
    | cons x xs => rw [List.length_cons, List.length_cons, ih h.2]

theorem lt_of_fits {vs : List Variable} {xs : List Nat} (h : Fits vs xs) {x : Nat} (hx : x ∈ xs) :
    ∃ v ∈ vs, x < v.arity := by
  induction vs generalizing xs with
  | nil =>
    cases xs with
    | nil => exact absurd hx List.not_mem_nil
    | cons y ys => exact h.elim
  | cons v vs ih =>
    cases xs with
    | nil => exact h.elim
    | cons y ys =>
      rcases List.mem_cons.1 hx with rfl | hx
      · exact ⟨v, List.mem_cons_self, h.1⟩
      · obtain ⟨w, hw, hlt⟩ := ih h.2 hx
        exact ⟨w, List.mem_cons_of_mem v hw, hlt⟩

theorem ofValues_values (a : Assignment) :
    ofValues a.scope (a.values.map Int.ofNat) = .ok a := by
  have hl : (a.values.map Int.ofNat).length = a.scope.vars.length := by
    rw [List.length_map, length_of_fits a.fits]
  rw [ofValues, dif_pos hl]
  split
  · rename_i ho
    rw [outlier?_eq_none a.fits] at ho
    exact absurd ho (by simp)
  · have hv : (a.values.map Int.ofNat).map Int.toNat = a.values := by
      simp [Function.comp_def]
    simp only [hv]

theorem scope_of_ofValues {s : Scope} {xs : List Int} {a : Assignment}
    (h : ofValues s xs = .ok a) : a.scope = s := by
  rw [ofValues] at h
  split at h
  · split at h
    · exact nomatch h
    · cases h
      rfl
  · exact nomatch h

end Assignment

theorem Factor.ofTable_table (f : Factor) : Factor.ofTable f.scope f.table = .ok f := by
  rw [Factor.ofTable, dif_pos f.size_eq]

theorem Factor.of_ofTable {s : Scope} {t : Array Double} {f : Factor}
    (h : ofTable s t = .ok f) : f.scope = s ∧ f.table = t := by
  rw [ofTable] at h
  split at h
  · cases h
    exact ⟨rfl, rfl⟩
  · exact nomatch h

end FactorForest
