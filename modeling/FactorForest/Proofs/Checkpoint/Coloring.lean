import FactorForest.Proofs.Checkpoint.Unfinished
import FactorForest.Proofs.Graph.Histories

set_option autoImplicit false

namespace FactorForest.Graph

open Checkpoint

theorem colors_load_save {m m' : Model} {g h : Graph} (hs : (save m g).fault = none)
    (hl : load (save m g).bytes = .ok (m', h)) : h.colors = g.greedyColors := by
  have hread := sections_of_load hl
  rw [← List.append_nil (save m g).bytes] at hread
  obtain ⟨⟨hsize, hedges⟩, -⟩ := (mirrors_save m g).recovers hs [] _ _ hread
  have hcolored : h.recolor = h := (restored_of_load hl).2.1.colored
  rw [← hcolored]
  refine greedyColors_congr hsize fun u v => ?_
  rw [Adjacent, Adjacent, hedges, hedges]

/-- The greedy colouring is the one in which each vertex has the least colour that no neighbour
ahead of it has. Every vertex has one colour, the ends of an edge have different ones, and no colour
is greater than the number of neighbours. Graphs with as many vertices and the same adjacent pairs
have the same colours: those made by edges in another order, in other directions or repeatedly, and
those that are loaded from a checkpoint. -/
theorem greedyColors_canonical (g : Graph) (hg : g.Sound) :
    (∀ colors, g.LargestFirst colors ↔ colors = g.greedyColors) ∧
    (∀ i, (∃ c, g.recolor.colorOf i = .ok c) ↔ g.holds i) ∧
    (∀ u v : Nat, g.hasEdge u v →
      ∃ c d, g.recolor.colorOf u = .ok c ∧ g.recolor.colorOf v = .ok d ∧ c ≠ d) ∧
    (∀ u c : Nat, g.recolor.colorOf u = .ok c → c ≤ (g.neighbours u).card) ∧
    (∀ h : Graph, h.vertices.size = g.vertices.size →
      (∀ u v, h.Adjacent u v ↔ g.Adjacent u v) → h.greedyColors = g.greedyColors) ∧
    (∀ cs, (made cs).Sound ∧ ∀ ds, ds.countP Change.isVertex = cs.countP Change.isVertex →
      (∀ p, p ∈ joined 0 ds ↔ p ∈ joined 0 cs) → (made ds).greedyColors = (made cs).greedyColors) ∧
    ∀ m m' h, (save m g).fault = none → load (save m g).bytes = .ok (m', h) →
      h.colors = g.greedyColors := by
  have hfirst := largestFirst_greedyColors g
  refine ⟨fun colors => ⟨fun hl => ?_, fun hc => hc ▸ hfirst⟩, fun i => ?_, fun u v he => ?_,
    fun u c hc => ?_, fun h hsize hadj => greedyColors_congr hsize hadj,
    fun cs => ⟨sound_changes sound_empty cs, fun ds hcount hpairs => ?_⟩,
    fun m m' h hs hl => colors_load_save hs hl⟩
  · exact Array.ext_getElem? (hl.getElem?_eq hfirst rfl fun u v => Iff.rfl)
  · rw [exists_colorOf_iff, holds_iff]
    change (∃ v : Nat, i = v ∧ v < g.greedyColors.size) ↔ _
    rw [size_greedyColors]
  · obtain ⟨c, d, hc, hd, hne⟩ := greedyColors_ne hg he
    exact ⟨c, d, colorOf_natCast (g := g.recolor) hc, colorOf_natCast (g := g.recolor) hd, hne⟩
  · obtain ⟨w, hw, hcol⟩ := colorOf_eq_ok_iff.1 hc
    cases Int.ofNat_inj.1 hw
    exact hfirst.le_degree hcol
  · refine greedyColors_congr ?_ fun u v => ?_
    · rw [size_made, size_made, hcount]
    · rw [adjacent_made, adjacent_made, hpairs]

/-- A path of three vertices, its edges added in order. -/
def pathChanges : List Change :=
  [.vertex (lateVertex 0), .vertex (lateVertex 1), .vertex (lateVertex 2), .edge 0 1 {}, .edge 1 2 {}]

/-- The same path, its edges added in both directions and among the vertices, with a refused edge. -/
def tangledChanges : List Change :=
  [.vertex (lateVertex 0), .vertex (lateVertex 1), .edge 1 0 {}, .edge 0 1 {}, .edge 1 2 {},
    .vertex (lateVertex 2), .edge 2 1 {}]

theorem greedyColors_canonical_path :
    (made pathChanges).Sound ∧ (made pathChanges).greedyColors = #[1, 0, 1] ∧
      (made pathChanges).LargestFirst #[1, 0, 1] ∧
      (made tangledChanges).greedyColors = #[1, 0, 1] ∧
      (save pairModel pairGraph).fault = none ∧
      ∃ m h, load (save pairModel pairGraph).bytes = .ok (m, h) ∧ h.colors = #[0, 1] := by
  have hsound : (made pathChanges).Sound := sound_changes sound_empty _
  have hpath : (made pathChanges).greedyColors = #[1, 0, 1] := by decide +kernel
  obtain ⟨hfirst, -, -, -, -, hhistories, -⟩ := greedyColors_canonical _ hsound
  have hpairs : ∀ p, p ∈ joined 0 tangledChanges ↔ p ∈ joined 0 pathChanges := by
    intro p
    simp [joined, tangledChanges, pathChanges, Sym2.eq_swap]
  have htangled := (hhistories pathChanges).2 tangledChanges rfl hpairs
  have hpair : pairGraph.Sound :=
    ((sound_empty.addVertex _).addVertex _).addEdge (i := 0) (j := 1) rfl
  have hsaved : (save pairModel pairGraph).fault = none := by decide +kernel
  have hrun : (load (save pairModel pairGraph).bytes).toOption.any fun _ => true := by
    decide +kernel
  obtain ⟨⟨m, h⟩, hl, -⟩ := exists_ok_of_any hrun
  obtain ⟨-, -, -, -, -, -, hloaded⟩ := greedyColors_canonical pairGraph hpair
  have hcolors : pairGraph.greedyColors = #[0, 1] := by decide +kernel
  exact ⟨hsound, hpath, (hfirst _).2 hpath.symm, htangled.trans hpath, hsaved, m, h, hl,
    (hloaded pairModel m h hsaved hl).trans hcolors⟩

end FactorForest.Graph
