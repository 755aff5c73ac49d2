import FactorForest.Graph.Basic

set_option autoImplicit false

namespace FactorForest.Graph

variable {g : Graph} {n : Nat} {x : Vertex}

@[simp]
theorem size_setVertex (g : Graph) (n : Nat) (y : Vertex) :
    (g.setVertex n y).vertices.size = g.vertices.size :=
  Array.size_setIfInBounds

theorem lt_of_getElem? (hx : g.vertices[n]? = some x) : n < g.vertices.size :=
  (Array.getElem?_eq_some_iff.1 hx).1

theorem exists_getElem? (h : n < g.vertices.size) : ∃ x, g.vertices[n]? = some x :=
  ⟨_, Array.getElem?_eq_getElem h⟩

theorem getElem?_setVertex (hx : g.vertices[n]? = some x) (y : Vertex) (i : Nat) :
    (g.setVertex n y).vertices[i]? = if i = n then some y else g.vertices[i]? := by
  rw [setVertex, Array.getElem?_setIfInBounds]
  by_cases hi : i = n
  · subst hi
    simp [lt_of_getElem? hx]
  · simp [hi, Ne.symm hi]

theorem setVertex_self (hx : g.vertices[n]? = some x) : g.setVertex n x = g := by
  have hv : (g.setVertex n x).vertices = g.vertices := by
    apply Array.ext_getElem?
    intro i
    rw [getElem?_setVertex hx]
    by_cases hi : i = n
    · rw [if_pos hi, hi, hx]
    · rw [if_neg hi]
  exact congrArg (fun vs => { g with vertices := vs }) hv

@[simp]
theorem holds_natCast (g : Graph) (v : Nat) : g.holds v ↔ v < g.vertices.size := by
  simp [holds]

theorem holds_iff {i : Int} : g.holds i ↔ ∃ v : Nat, i = v ∧ v < g.vertices.size := by
  constructor
  · intro h
    simp only [holds, Bool.and_eq_true, decide_eq_true_eq] at h
    exact ⟨i.toNat, by omega, by omega⟩
  · rintro ⟨v, rfl, hv⟩
    exact (holds_natCast g v).2 hv

theorem getElem?_of_vertexAt {i : Int} (h : g.vertexAt i = .ok (n, x)) :
    g.vertices[n]? = some x := by
  rw [vertexAt] at h
  split at h
  · exact absurd h (by simp)
  · split at h
    · exact absurd h (by simp)
    · rename_i hx
      cases h
      exact hx

theorem vertexAt_natCast (hx : g.vertices[n]? = some x) : g.vertexAt n = .ok (n, x) := by
  have hn : resolveIndex g.vertices.size n .noEntryAt = .ok n := by
    have hlt := lt_of_getElem? hx
    rw [resolveIndex, if_pos ⟨by omega, by omega⟩, Int.toNat_natCast]
  rw [vertexAt, hn]
  simp only [hx]

/-- Every vertex is outside all trees and has no bids. -/
def Idle (g : Graph) : Prop := ∀ x ∈ g.vertices, x.tree = .available ∧ x.suitors = []

end FactorForest.Graph
