import FactorForest.Proofs.Graph.Recoloring
import Mathlib.Data.Sym.Sym2

set_option autoImplicit false

namespace FactorForest.Graph

def Change.isVertex : Change → Bool
  | .vertex _ => true
  | .edge .. | .recolor | .ask => false

/-- The unordered pairs that the accepted edges of a history join, if there are `n` vertices before
it. -/
def joined (n : Nat) : List Change → List (Sym2 Nat)
  | [] => []
  | .vertex _ :: cs => joined (n + 1) cs
  | .edge u v _ :: cs =>
    if 0 ≤ u ∧ u < n ∧ 0 ≤ v ∧ v < n ∧ u ≠ v then s(u.toNat, v.toNat) :: joined n cs
    else joined n cs
  | .recolor :: cs | .ask :: cs => joined n cs

variable {g h : Graph}

theorem adjacent_congr (hl : g.links = h.links) (u v : Nat) : g.Adjacent u v ↔ h.Adjacent u v := by
  rw [Adjacent, Adjacent, hasEdge_congr hl, hasEdge_congr hl]

theorem adjacent_setLink (a b u v : Nat) (e : Edge) :
    (g.setLink a b e).Adjacent u v ↔ g.Adjacent u v ∨ s(u, v) = s(a, b) := by
  simp only [Adjacent, hasEdge_setLink, Sym2.eq_iff]
  tauto

theorem links_colored (g : Graph) : g.colored.links = g.links := by
  unfold colored
  split <;> rfl

theorem vertices_colored (g : Graph) : g.colored.vertices = g.vertices := by
  unfold colored
  split <;> rfl

theorem change_edge (g : Graph) (u v : Int) (e : Edge) : g.change (.edge u v e) =
    if 0 ≤ u ∧ u < g.vertices.size ∧ 0 ≤ v ∧ v < g.vertices.size ∧ u ≠ v
    then g.setLink u.toNat v.toNat e else g := by
  rw [change]
  split
  · obtain ⟨a, b, rfl, rfl, ha, hb, hne, rfl⟩ := addEdge_eq_ok_iff.1 ‹_›
    rw [if_pos (by omega)]
    rfl
  · rename_i d hd
    rw [if_neg]
    rintro ⟨hu, hlt, hv, hlt', hne⟩
    have hadd : g.addEdge u v e = .ok (g.setLink u.toNat v.toNat e) :=
      addEdge_eq_ok_iff.2 ⟨u.toNat, v.toNat, by omega, by omega, by omega, by omega, by omega, rfl⟩
    rw [hadd] at hd
    cases hd

theorem size_changes (g : Graph) (cs : List Change) :
    (g.changes cs).vertices.size = g.vertices.size + cs.countP Change.isVertex := by
  induction cs generalizing g with
  | nil => rfl
  | cons c cs ih =>
    rw [changes, List.foldl_cons]
    refine (ih _).trans ?_
    cases c with
    | vertex x =>
      rw [List.countP_cons_of_pos rfl, change, addVertex, Array.size_push]
      omega
    | edge u v e =>
      rw [List.countP_cons_of_neg Bool.false_ne_true, change_edge]
      split <;> rfl
    | recolor => rfl
    | ask => rw [List.countP_cons_of_neg Bool.false_ne_true, change, vertices_colored]

theorem adjacent_changes (g : Graph) (cs : List Change) (u v : Nat) :
    (g.changes cs).Adjacent u v ↔ g.Adjacent u v ∨ s(u, v) ∈ joined g.vertices.size cs := by
  induction cs generalizing g with
  | nil => simp [changes, joined]
  | cons c cs ih =>
    rw [changes, List.foldl_cons]
    refine (ih _).trans ?_
    cases c with
    | vertex x =>
      refine or_congr (adjacent_congr rfl u v) ?_
      rw [change, addVertex, Array.size_push, joined]
    | edge a b e =>
      rw [change_edge, joined]
      split
      · rw [adjacent_setLink, List.mem_cons, or_assoc]
        rfl
      · rfl
    | recolor => rfl
    | ask => rw [change, adjacent_congr (links_colored g), vertices_colored, joined]

theorem sound_made (cs : List Change) : (made cs).Sound := sound_changes sound_empty cs

theorem size_made (cs : List Change) : (made cs).vertices.size = cs.countP Change.isVertex :=
  (size_changes {} cs).trans (Nat.zero_add _)

theorem adjacent_made (cs : List Change) (u v : Nat) :
    (made cs).Adjacent u v ↔ s(u, v) ∈ joined 0 cs := by
  refine (adjacent_changes {} cs u v).trans (or_iff_right ?_)
  rintro (he | he)
  · exact not_hasEdge_of_no_links rfl _ _ he
  · exact not_hasEdge_of_no_links rfl _ _ he

theorem greedyColors_congr (hsize : g.vertices.size = h.vertices.size)
    (hadj : ∀ u v, g.Adjacent u v ↔ h.Adjacent u v) : g.greedyColors = h.greedyColors := by
  apply Array.ext_getElem?
  exact (largestFirst_greedyColors g).getElem?_eq (largestFirst_greedyColors h) hsize hadj

end FactorForest.Graph
