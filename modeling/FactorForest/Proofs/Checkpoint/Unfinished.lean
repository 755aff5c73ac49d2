import FactorForest.Proofs.Checkpoint.Consistency
import FactorForest.Proofs.Checkpoint.Delimited
import FactorForest.Proofs.Checkpoint.Faults
import FactorForest.Proofs.Checkpoint.Recovery

set_option autoImplicit false

namespace FactorForest.Checkpoint

open Archive

variable {bound : Nat}

theorem mirrors_liftExcept {α : Type} {x : Except Fault α} {P : α → Prop}
    (h : ∀ a, x = .ok a → P a) : Mirrors bound {} (readGraph.liftExcept x) P := by
  cases x with
  | ok a => exact .pure (h a rfl)
  | error e => exact .of_complete rfl fun _ _ _ _ hr => nomatch hr

/-- Whatever becomes of the vertices and of the records of edges, as many vertices come back, and
edges between the same of them. -/
theorem mirrors_graph (g : Graph) :
    Mirrors bound (writeGraph g) readGraph fun h =>
      h.vertices.size = g.vertices.size ∧ ∀ u v : Nat, h.hasEdge u v ↔ g.hasEdge u v := by
  simp only [writeGraph, Archive.list, Written.append_assoc]
  refine (mirrors_listLength _).bind fun count hcount => ?_
  rw [Int.ofNat_inj.1 hcount]
  refine (mirrors_vertices _ {}).bind fun h hread => ?_
  refine (mirrors_liftExcept fun h' hr => (parentsKnown_of_restoreSuitors hr).2).after
    fun h' hh' => ?_
  refine (mirrors_listLength _).bind fun links hlinks => ?_
  rw [Int.ofNat_inj.1 hlinks]
  refine (mirrors_links g.edges h').last fun h'' hlinked => .pure ?_
  obtain ⟨ys, hys, rfl⟩ := hread
  obtain ⟨hvertices, hedges⟩ := hlinked
  subst hh'
  refine ⟨?_, fun u v => (hedges u v).trans ?_⟩
  · change h''.vertices.size = _
    rw [hvertices, Graph.rejoined]
    simpa using hys.length_eq.symm
  · rw [or_iff_right (Graph.not_hasEdge_of_no_links rfl u v), Graph.hasEdge_iff]
    exact exists_congr fun e => Graph.mem_edges

theorem mirrors_save (m : Model) (g : Graph) :
    Mirrors bound (save m g) readSections fun r =>
      r.2.vertices.size = g.vertices.size ∧ ∀ u v : Nat, r.2.hasEdge u v ↔ g.hasEdge u v := by
  rw [save, Written.append_assoc]
  refine (Mirrors.of_readsBack readsBack_header).bind fun _ _ => ?_
  refine (mirrors_model m).bind fun m' _ => ?_
  exact (mirrors_graph g).last fun h hh => .pure hh

/-- Where saving fails, at whatever field that is, the bytes that were written up to there are no
checkpoint: loading them fails too, in the way in which loading may fail. -/
theorem load_unfinished {m : Model} {g : Graph} {e : Fault} (h : (save m g).fault = some e) :
    ∃ d, load (save m g).bytes = .error d ∧
      (d.kind = .archive ∨ d = .byteCountRange ∧ Overlong fileCountBound (save m g).bytes) := by
  cases hl : load (save m g).bytes with
  | ok r =>
    have hne : (save m g).fault ≠ none := by simp [h]
    exact absurd (sections_of_load hl) ((mirrors_save m g).starves hne r [])
  | error d =>
    rw [load] at hl
    exact ⟨d, rfl, (tame_readAll fileCountBound _).2 d hl⟩

/-- The graph of `pairGraph` with an edge back that has no tables, behind the one that has them. -/
def bareGraph : Graph := pairGraph.setLink 1 0 {}

/-- A vertex whose update count is no count, so that saving stops within its record. -/
def uncountedGraph : Graph :=
  pairGraph.setVertex 1 { pairVertex (.upTo 1 2) with updates := -1 }

theorem load_unfinished_pair :
    ((save pairModel bareGraph).fault = some .bareEdge ∧
      ∃ d, load (save pairModel bareGraph).bytes = .error d) ∧
    (save pairModel uncountedGraph).fault = some .integerRange ∧
      ∃ d, load (save pairModel uncountedGraph).bytes = .error d := by
  have hbare : (save pairModel bareGraph).fault = some .bareEdge := by decide +kernel
  have huncounted : (save pairModel uncountedGraph).fault = some .integerRange := by decide +kernel
  obtain ⟨d, hd, -⟩ := load_unfinished hbare
  obtain ⟨d', hd', -⟩ := load_unfinished huncounted
  exact ⟨⟨hbare, d, hd⟩, huncounted, d', hd'⟩

end FactorForest.Checkpoint
