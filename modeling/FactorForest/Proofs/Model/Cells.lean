import FactorForest.Model.Text
import FactorForest.Proofs.Assignment
import Mathlib.Data.List.Forall2

set_option autoImplicit false

namespace FactorForest

open Scope (stridesFrom volume)

namespace Assignment

theorem fits_map {vs : List Variable} {value : Variable → Nat} (h : ∀ v ∈ vs, value v < v.arity) :
    Fits vs (vs.map value) := by
  induction vs with
  | nil => exact trivial
  | cons v vs ih =>
    obtain ⟨hv, hvs⟩ := List.forall_mem_cons.1 h
    exact ⟨hv, ih hvs⟩

end Assignment

namespace Model

theorem get_valueAt {a : Assignment} {v : Variable} (hv : v ∈ a.scope.vars) :
    a.get v.id = .ok (valueAt a v.id) ∧ valueAt a v.id < v.arity := by
  obtain ⟨x, hx, hlt⟩ := Assignment.get_mem hv
  rw [valueAt, hx]
  exact ⟨rfl, hlt⟩

theorem listedIndex_eq (value : Nat → Nat) (vs : List Variable) :
    listedIndex value vs =
      Assignment.dot (vs.map fun v => value v.id) (stridesFrom 1 vs) := by
  induction vs with
  | nil => rfl
  | cons v vs ih => rw [listedIndex, ih, List.map_cons, Assignment.dot_cons]

/-- The digits of a place of a listing are the values of the listed variables there. -/
theorem listedIndex_place {a : Assignment} {listed : List Variable}
    (h : a.scope.vars.Perm listed) :
    listedIndex (valueAt a) listed < a.scope.size ∧
      List.Forall₂ (fun v x => a.get v.id = .ok x) listed
        (Assignment.digitsOf listed (listedIndex (valueAt a) listed)) := by
  have hget : ∀ v ∈ listed, a.get v.id = .ok (valueAt a v.id) ∧ valueAt a v.id < v.arity :=
    fun v hv => get_valueAt (h.mem_iff.2 hv)
  have hfits : Fits listed (listed.map fun v => valueAt a v.id) :=
    Assignment.fits_map fun v hv => (hget v hv).2
  rw [listedIndex_eq]
  constructor
  · rw [Scope.size, Assignment.volume_perm h]
    exact Assignment.dot_lt_volume hfits
  · rw [Assignment.digitsOf_dot hfits, List.forall₂_map_right_iff, List.forall₂_same]
    exact fun v hv => (hget v hv).1

theorem table_placeCells (a : Assignment) (listed : List Variable) (cells : Array Double) :
    (placeCells a.scope listed cells).table[a.index]? =
      some (cells.getD (listedIndex (valueAt a) listed) .zero) := by
  rw [placeCells, Array.getElem?_ofFn, dif_pos a.index_lt_size]
  dsimp only
  rw [a.decode_index]

end Model
end FactorForest
