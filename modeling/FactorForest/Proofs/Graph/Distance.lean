import FactorForest.Proofs.Graph.Edges
import Mathlib.Data.List.Perm.Subperm

set_option autoImplicit false

namespace FactorForest.Graph

/-- The vertex is there and in no tree. -/
def IsAvailable (g : Graph) (v : Nat) : Prop := ∃ x, g.vertices[v]? = some x ∧ x.tree = .available

/-- A way of `d` edges from `r`, after `r` through available vertices only. -/
inductive Walk (g : Graph) (r : Nat) : Nat → Nat → Prop
  | here : Walk g r 0 r
  | step {d p v : Nat} (front : Walk g r d p) (edge : g.hasEdge p v)
      (available : g.IsAvailable v) : Walk g r (d + 1) v

def Distance (g : Graph) (r v d : Nat) : Prop := g.Walk r d v ∧ ∀ e, g.Walk r e v → d ≤ e

variable {g : Graph} {r v d e : Nat}

theorem Distance.unique (hd : g.Distance r v d) (he : g.Distance r v e) : d = e :=
  Nat.le_antisymm (hd.2 e he.1) (he.2 d hd.1)

theorem distance_root (g : Graph) (r : Nat) : g.Distance r r 0 := ⟨.here, fun e _ => Nat.zero_le e⟩

theorem Distance.eq_root (h : g.Distance r v 0) : v = r := by
  cases h.1
  rfl

theorem Walk.exists_distance (h : g.Walk r d v) : ∃ e ≤ d, g.Distance r v e := by
  induction d using Nat.strong_induction_on with
  | _ d ih =>
    by_cases hs : ∃ e < d, g.Walk r e v
    · obtain ⟨e, he, hw⟩ := hs
      obtain ⟨k, hk, hd⟩ := ih e he hw
      exact ⟨k, hk.trans he.le, hd⟩
    · exact ⟨d, Nat.le_refl d, h, fun e he => Nat.le_of_not_lt fun hlt => hs ⟨e, hlt, he⟩⟩

theorem Distance.pred (h : g.Distance r v (d + 1)) :
    ∃ p, g.Distance r p d ∧ g.hasEdge p v ∧ g.IsAvailable v := by
  obtain ⟨hw, hmin⟩ := h
  cases hw with
  | @step _ p _ front edge available =>
    refine ⟨p, ⟨front, ?_⟩, edge, available⟩
    intro e he
    exact Nat.le_of_succ_le_succ (hmin (e + 1) (.step he edge available))

/-- An available neighbour is one edge further away, unless it is nearer. -/
theorem Distance.step {p : Nat} (h : g.Distance r p d) (edge : g.hasEdge p v)
    (available : g.IsAvailable v) (hn : ∀ e ≤ d, ¬ g.Distance r v e) :
    g.Distance r v (d + 1) := by
  have hw : g.Walk r (d + 1) v := .step h.1 edge available
  refine ⟨hw, ?_⟩
  intro e he
  obtain ⟨k, hk, hd⟩ := he.exists_distance
  by_contra hlt
  exact hn k (by omega) hd

theorem Distance.path (h : g.Distance r v d) :
    ∃ l : List Nat, l.length = d + 1 ∧ l.Nodup ∧ ∀ u ∈ l, ∃ e ≤ d, g.Distance r u e := by
  induction d generalizing v with
  | zero => exact ⟨[v], rfl, List.nodup_singleton v, fun u hu => ⟨0, Nat.le_refl 0, by
      rwa [List.mem_singleton.1 hu]⟩⟩
  | succ d ih =>
    obtain ⟨p, hp, -⟩ := h.pred
    obtain ⟨l, hl, hnodup, hmem⟩ := ih hp
    have hv : v ∉ l := fun hv => by
      obtain ⟨e, he, hd⟩ := hmem v hv
      have heq := hd.unique h
      omega
    refine ⟨v :: l, by rw [List.length_cons, hl], List.nodup_cons.2 ⟨hv, hnodup⟩, ?_⟩
    intro u hu
    rcases List.mem_cons.1 hu with rfl | hu
    · exact ⟨d + 1, Nat.le_refl _, h⟩
    · obtain ⟨e, he, hd⟩ := hmem u hu
      exact ⟨e, by omega, hd⟩

theorem Walk.lt_size (hr : r < g.vertices.size) (h : g.Walk r d v) : v < g.vertices.size := by
  cases h with
  | here => exact hr
  | step _ _ available =>
    obtain ⟨x, hx, -⟩ := available
    exact (Array.getElem?_eq_some_iff.1 hx).1

theorem Distance.lt_size (hr : r < g.vertices.size) (h : g.Distance r v d) :
    d < g.vertices.size := by
  obtain ⟨l, hl, hnodup, hmem⟩ := h.path
  have hsub : l ⊆ List.range g.vertices.size := fun u hu => by
    obtain ⟨e, -, hd⟩ := hmem u hu
    exact List.mem_range.2 (hd.1.lt_size hr)
  have hle := (hnodup.subperm hsub).length_le
  rw [hl, List.length_range] at hle
  exact hle

/-- At distance `d`, and not beyond the greatest height. The root counts at any greatest height. -/
def Recruited (g : Graph) (r : Nat) (maxHeight : Int) (v d : Nat) : Prop :=
  g.Distance r v d ∧ (d = 0 ∨ (d : Int) ≤ maxHeight)

variable {maxHeight : Int}

theorem Recruited.pred (h : g.Recruited r maxHeight v (d + 1)) :
    ∃ p, g.Recruited r maxHeight p d ∧ g.hasEdge p v := by
  obtain ⟨p, hp, edge, -⟩ := h.1.pred
  have hm := h.2
  exact ⟨p, ⟨hp, by omega⟩, edge⟩

theorem Recruited.exists_of_le (h : g.Recruited r maxHeight v d) (he : e ≤ d) :
    ∃ u, g.Recruited r maxHeight u e := by
  induction d generalizing v with
  | zero => exact ⟨v, Nat.le_zero.1 he ▸ h⟩
  | succ d ih =>
    by_cases heq : e = d + 1
    · exact ⟨v, heq ▸ h⟩
    · obtain ⟨p, hp, -⟩ := h.pred
      exact ih hp (by omega)

/-- The root has no parent; any other vertex has the lowest of the vertices that are one edge
nearer and that an edge joins to it. -/
def IsParent (g : Graph) (r v : Nat) : Nat → Option Int → Prop
  | 0, p => p = none
  | d + 1, p => ∃ q : Nat, p = some (q : Int) ∧ g.Distance r q d ∧ g.hasEdge q v ∧
      ∀ u, g.Distance r u d → g.hasEdge u v → q ≤ u

def Before (g : Graph) (r u v : Nat) : Prop :=
  ∃ d e, g.Distance r u d ∧ g.Distance r v e ∧ (d < e ∨ d = e ∧ u < v)

theorem Before.ne {u : Nat} (h : g.Before r u v) : u ≠ v := by
  rintro rfl
  obtain ⟨d, e, hd, he, hlt⟩ := h
  have heq := hd.unique he
  omega

end FactorForest.Graph
