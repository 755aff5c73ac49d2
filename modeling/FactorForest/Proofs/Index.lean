import FactorForest.Proofs.Fault
import FactorForest.Proofs.Scope
import Mathlib.Data.List.Chain
import Mathlib.Data.Set.Function
import Mathlib.Order.Interval.Set.Defs

set_option autoImplicit false

namespace FactorForest

open Scope (stridesFrom volume)

namespace Assignment

/-- The next values after others: the first value below its greatest goes up by one, and the
greatest values in front of it become zero. -/
inductive Follows : List Variable → List Nat → List Nat → Prop
  | up {v : Variable} {vs : List Variable} {x : Nat} {xs : List Nat} :
      x + 1 < v.arity → Follows (v :: vs) (x :: xs) ((x + 1) :: xs)
  | carry {v : Variable} {vs : List Variable} {x : Nat} {xs ys : List Nat} :
      x + 1 = v.arity → Follows vs xs ys → Follows (v :: vs) (x :: xs) (0 :: ys)

theorem dot_stridesFrom (acc : Nat) (vs : List Variable) (xs : List Nat) :
    dot xs (stridesFrom acc vs) = acc * dot xs (stridesFrom 1 vs) := by
  induction vs generalizing acc xs with
  | nil => cases xs <;> rfl
  | cons v vs ih =>
    cases xs with
    | nil => rfl
    | cons x xs =>
      simp only [stridesFrom, dot]
      rw [ih (acc * v.arity), ih (1 * v.arity), Nat.mul_add, Nat.mul_one, Nat.one_mul,
        Nat.mul_assoc, Nat.mul_comm x acc]

theorem dot_cons (x : Nat) (xs : List Nat) (v : Variable) (vs : List Variable) :
    dot (x :: xs) (stridesFrom 1 (v :: vs)) = x + v.arity * dot xs (stridesFrom 1 vs) := by
  rw [stridesFrom, dot, Nat.mul_one, Nat.one_mul, dot_stridesFrom]

theorem volume_pos (vs : List Variable) : 0 < volume vs := by
  induction vs with
  | nil => exact Nat.zero_lt_one
  | cons v vs ih => exact Nat.mul_pos v.arity_pos ih

theorem volume_perm {vs ws : List Variable} (h : vs.Perm ws) : volume vs = volume ws := by
  induction h with
  | nil => rfl
  | cons v _ ih => rw [volume, volume, ih]
  | swap v w vs => simp only [volume, Nat.mul_left_comm]
  | trans _ _ ih ih' => exact ih.trans ih'

theorem dot_lt_volume {vs : List Variable} {xs : List Nat} (h : Fits vs xs) :
    dot xs (stridesFrom 1 vs) < volume vs := by
  induction vs generalizing xs with
  | nil =>
    cases xs with
    | nil => exact Nat.zero_lt_one
    | cons x xs => exact h.elim
  | cons v vs ih =>
    cases xs with
    | nil => exact h.elim
    | cons x xs =>
      have hx : x < v.arity := h.1
      have hrest : v.arity * (dot xs (stridesFrom 1 vs) + 1) ≤ v.arity * volume vs :=
        Nat.mul_le_mul_left v.arity (ih h.2)
      rw [Nat.mul_add, Nat.mul_one] at hrest
      rw [dot_cons, volume]
      omega

theorem digitsOf_dot {vs : List Variable} {xs : List Nat} (h : Fits vs xs) :
    digitsOf vs (dot xs (stridesFrom 1 vs)) = xs := by
  induction vs generalizing xs with
  | nil =>
    cases xs with
    | nil => rfl
    | cons x xs => exact h.elim
  | cons v vs ih =>
    cases xs with
    | nil => exact h.elim
    | cons x xs =>
      have hx : x < v.arity := h.1
      rw [dot_cons, digitsOf, Nat.add_mul_mod_self_left, Nat.mod_eq_of_lt hx,
        Nat.add_mul_div_left x _ v.arity_pos, Nat.div_eq_of_lt hx, Nat.zero_add, ih h.2]

theorem dot_digitsOf {vs : List Variable} {i : Nat} (h : i < volume vs) :
    dot (digitsOf vs i) (stridesFrom 1 vs) = i := by
  induction vs generalizing i with
  | nil => exact (Nat.lt_one_iff.1 h).symm
  | cons v vs ih =>
    have hrest : i / v.arity < volume vs := Nat.div_lt_of_lt_mul h
    rw [digitsOf, dot_cons, ih hrest, Nat.mod_add_div]

theorem digitsOf_zero (vs : List Variable) : digitsOf vs 0 = List.replicate vs.length 0 := by
  induction vs with
  | nil => rfl
  | cons v vs ih => rw [digitsOf, Nat.zero_mod, Nat.zero_div, ih, List.length_cons, List.replicate]

theorem follows_digitsOf {vs : List Variable} {i : Nat} (h : i + 1 < volume vs) :
    Follows vs (digitsOf vs i) (digitsOf vs (i + 1)) := by
  induction vs generalizing i with
  | nil => exact absurd h (by simp [volume])
  | cons v vs ih =>
    by_cases hc : i % v.arity + 1 = v.arity
    · -- the first digit is at its greatest, so the rest counts on
      have hdvd : v.arity ∣ i + 1 := by
        rw [Nat.dvd_iff_mod_eq_zero, ← Nat.mod_add_mod, hc, Nat.mod_self]
      have hdiv : (i + 1) / v.arity = i / v.arity + 1 := Nat.succ_div_of_dvd hdvd
      have hrest : i / v.arity + 1 < volume vs := hdiv ▸ Nat.div_lt_of_lt_mul h
      rw [digitsOf, digitsOf, Nat.mod_eq_zero_of_dvd hdvd, hdiv]
      exact .carry hc (ih hrest)
    · have hlt : i % v.arity + 1 < v.arity :=
        Nat.lt_of_le_of_ne (Nat.mod_lt i v.arity_pos) hc
      have hmod : (i + 1) % v.arity = i % v.arity + 1 := by
        rw [← Nat.mod_add_mod, Nat.mod_eq_of_lt hlt]
      have hdvd : ¬ v.arity ∣ i + 1 := by
        rw [Nat.dvd_iff_mod_eq_zero, hmod]
        exact Nat.succ_ne_zero _
      rw [digitsOf, digitsOf, hmod, Nat.succ_div_of_not_dvd hdvd]
      exact .up hlt

@[ext]
theorem ext {a b : Assignment} (hs : a.scope = b.scope) (hv : a.values = b.values) : a = b := by
  cases a
  cases b
  cases hs
  cases hv
  rfl

theorem index_lt_size (a : Assignment) : a.index < a.scope.size := dot_lt_volume a.fits

theorem decode_index (a : Assignment) : decode a.scope a.index = a :=
  ext rfl (digitsOf_dot a.fits)

theorem index_decode {s : Scope} {i : Nat} (h : i < s.size) : (decode s i).index = i :=
  dot_digitsOf h

theorem ofIndex_eq_ok_iff {s : Scope} {i : Int} {a : Assignment} :
    ofIndex s i = .ok a ↔ a.scope = s ∧ (a.index : Int) = i := by
  rw [ofIndex]
  constructor
  · intro h
    split at h
    · rename_i hi
      cases h
      have hlt : i.toNat < s.size := by omega
      refine ⟨rfl, ?_⟩
      rw [index_decode hlt]
      omega
    · exact nomatch h
  · rintro ⟨rfl, rfl⟩
    have hlt := a.index_lt_size
    rw [if_pos (by omega), Int.toNat_natCast, decode_index]

theorem kind_of_ofIndex {s : Scope} {i : Int} {e : Fault} (h : ofIndex s i = .error e) :
    e.kind = .value := by
  rw [ofIndex] at h
  split at h
  · exact nomatch h
  · rw [← Except.error.inj h]
    exact Fault.kind_told_of_value rfl

theorem ofIndex_eq_error_iff {s : Scope} {i : Int} :
    (∃ e, ofIndex s i = .error e) ↔ i < 0 ∨ s.size ≤ i := by
  rw [ofIndex]
  by_cases hi : 0 ≤ i ∧ i < s.size
  · simp only [if_pos hi, reduceCtorEq, exists_false, false_iff]
    omega
  · simp only [if_neg hi, Except.error.injEq, exists_eq', true_iff]
    omega

theorem length_all (s : Scope) : (all s).length = s.size := by
  rw [all, List.length_map, List.length_range]

theorem index_all (s : Scope) : (all s).map index = List.range s.size := by
  rw [all, List.map_map]
  calc (List.range s.size).map (index ∘ decode s)
      = (List.range s.size).map id :=
        List.map_congr_left fun i hi => index_decode (List.mem_range.1 hi)
    _ = List.range s.size := List.map_id _

theorem mem_all {s : Scope} {a : Assignment} : a ∈ all s ↔ a.scope = s := by
  rw [all, List.mem_map]
  constructor
  · rintro ⟨i, -, rfl⟩
    rfl
  · rintro rfl
    exact ⟨a.index, List.mem_range.2 a.index_lt_size, a.decode_index⟩

theorem pairwise_all (s : Scope) : (all s).Pairwise fun a b => a.index < b.index := by
  rw [← List.pairwise_map, index_all]
  exact List.pairwise_lt_range

theorem isChain_all (s : Scope) :
    (all s).IsChain fun a b => Follows s.vars a.values b.values := by
  rw [all, List.isChain_map, List.isChain_iff_getElem]
  intro i hi
  rw [List.getElem_range, List.getElem_range]
  apply follows_digitsOf
  rw [List.length_range] at hi
  exact hi

theorem head?_all (s : Scope) : (all s).head? = some (first s) := by
  have hpos : s.size = (s.size - 1) + 1 := (Nat.sub_add_cancel (volume_pos s.vars)).symm
  rw [all, hpos, List.range_succ_eq_map]
  rfl

theorem index_bijOn (s : Scope) : Set.BijOn index {a | a.scope = s} (Set.Iio s.size) := by
  refine ⟨?_, ?_, ?_⟩
  · rintro a rfl
    exact a.index_lt_size
  · rintro a rfl b hb hab
    rw [← a.decode_index, ← b.decode_index, hab, hb]
  · intro i hi
    exact ⟨decode s i, rfl, index_decode hi⟩

/-- Indices number the assignments of a scope: they map them one-to-one onto the numbers below its
size, an index is decoded exactly if it is one of these numbers, and then to the assignment that has
it. All assignments are listed once, by ascending index, from the one of zeros on, each followed by
the one with the next values. -/
theorem index_numbers (s : Scope) :
    Set.BijOn index {a | a.scope = s} (Set.Iio s.size) ∧
    (∀ i a, ofIndex s i = .ok a ↔ a.scope = s ∧ (a.index : Int) = i) ∧
    (∀ i, (∃ e, ofIndex s i = .error e) ↔ i < 0 ∨ s.size ≤ i) ∧
    (∀ i e, ofIndex s i = .error e → e.kind = .value) ∧
    (∀ a, a ∈ all s ↔ a.scope = s) ∧ (all s).Nodup ∧
    (all s).Pairwise (fun a b => a.index < b.index) ∧
    (∃ a, (all s).head? = some a ∧ a.values = List.replicate s.vars.length 0) ∧
    (all s).IsChain (fun a b => Follows s.vars a.values b.values) := by
  refine ⟨index_bijOn s, fun i a => ofIndex_eq_ok_iff, fun i => ofIndex_eq_error_iff,
    fun i e h => kind_of_ofIndex h, fun a => mem_all, ?_, pairwise_all s, ?_, isChain_all s⟩
  · exact (pairwise_all s).imp fun {a b} hlt hab => Nat.ne_of_lt hlt (congrArg index hab)
  · exact ⟨first s, head?_all s, digitsOf_zero s.vars⟩

end Assignment
end FactorForest
