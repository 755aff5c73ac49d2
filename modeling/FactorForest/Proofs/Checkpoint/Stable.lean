import FactorForest.Proofs.Checkpoint.Range

set_option autoImplicit false

namespace FactorForest

theorem Vertex.rejoined_stored {heights : Int → Int} {x : Vertex} (hr : x.tree.markedUp = 0)
    (hs : ∀ p, x.tree = .candidate p → x.suitors = [(p, heights p)])
    (hq : x.phase ≠ .candidate → x.suitors = []) : x.stored.rejoined heights = x := by
  obtain ⟨self, sample, factorIds, belief, scratch, updates, tree, bids, suitors⟩ := x
  cases tree with
  | candidate p =>
    cases hs p rfl
    rfl
  | available =>
    cases hq fun h => nomatch h
    rfl
  | boundary p h =>
    cases hq fun h => nomatch h
    rfl
  | treeNode p h n =>
    cases hq fun h => nomatch h
    cases hr
    rfl
  | calibrated p h =>
    cases hq fun h => nomatch h
    rfl

namespace Graph

theorem recolor_eq_of_links {g h : Graph} (hv : g.vertices = h.vertices) (hl : g.links = h.links) :
    g.recolor = h.recolor := by
  cases g
  cases h
  cases hv
  cases hl
  rfl

theorem heightAt_stored (g : Graph) :
    Graph.heightAt { vertices := g.vertices.map Vertex.stored } = g.heightAt :=
  heightAt_map rfl fun x => x.tree.height_unmarked

theorem Restored.reloaded_eq {g : Graph} (hg : g.Restored) (ht : g.Tight) : g.reloaded = g := by
  have hvertices : (Graph.rejoined { vertices := g.vertices.map Vertex.stored }).vertices =
      g.vertices := by
    rw [Graph.rejoined, heightAt_stored, Array.map_map]
    refine (Array.map_congr_left fun x hx => ?_).trans (Array.map_id _)
    exact Vertex.rejoined_stored (hg.reports x hx) (hg.suitor x hx) (hg.quiet x hx)
  have hlinks : ((Graph.rejoined { vertices := g.vertices.map Vertex.stored }).linked
      g.edges).links = g.links := by
    apply Tight.links_eq ((tight_of_no_links rfl).linked g.edges) ht
    intro u v
    apply Option.ext
    intro e
    rw [← mem_edges, ← mem_edges, edges_linked g _ rfl]
  rw [reloaded, recolor_eq_of_links ((vertices_linked _ _).trans hvertices) hlinks, hg.colored]

end Graph

namespace Checkpoint

/-- What was loaded is saved without a refusal and comes back as it is, so that saving it once more
gives the same bytes. Nothing is asked of the bytes it was loaded from. -/
theorem load_save_load {bytes : List UInt8} {m : Model} {g : Graph}
    (h : load bytes = .ok (m, g)) :
    (save m g).fault = none ∧ load (save m g).bytes = .ok (m, g) ∧
      ∀ m' g', load (save m g).bytes = .ok (m', g') → save m' g' = save m g := by
  obtain ⟨hm, hg, hself⟩ := restored_of_load h
  obtain ⟨hms, hgs, htight⟩ := writable_of_load h
  obtain ⟨hfault, hload⟩ := load_save_reloaded hm hms hg.sound hgs hg.parents hself hg.ids
  rw [hg.reloaded_eq htight] at hload
  refine ⟨hfault, hload, ?_⟩
  intro m' g' h'
  rw [hload] at h'
  cases h'
  rfl

/-- The sections of `pairModel` and `pairGraph`, but a variable is listed again and out of order,
the first vertex is in a tree under a parent that is no vertex, and the edge is listed twice, at
first as one that is being explored. -/
def looseFile : Archive.Written :=
  let v : Variable := .upTo 0 1
  let root := { pairVertex v with tree := .boundary (some (-7)) 0 }
  let links := pairGraph.edges.map fun l => (l.1, l.2.1, { l.2.2 with exploring := true })
  Archive.header ++
    Archive.list Archive.variableField (pairModel.vars.values ++ [v]) ++
    Archive.list Archive.factor pairModel.factors.toList ++
    Archive.list writeIndexEntry pairModel.index.entries ++
    Archive.strList pairModel.names ++
    Archive.list writeWeight pairModel.weights.toList ++
    Archive.list writeVertex (root :: pairGraph.vertices.toList.tail) ++
    Archive.list writeLink (links ++ pairGraph.edges)

theorem load_save_load_loose : ∃ m g, load looseFile.bytes = .ok (m, g) ∧
    (save m g).bytes ≠ looseFile.bytes ∧ (save m g).fault = none ∧
      load (save m g).bytes = .ok (m, g) ∧
      ∀ m' g', load (save m g).bytes = .ok (m', g') → save m' g' = save m g := by
  have hloads : (load looseFile.bytes).toOption.any fun r =>
      (save r.1 r.2).bytes ≠ looseFile.bytes := by decide +kernel
  obtain ⟨⟨m, g⟩, hl, hne⟩ := exists_ok_of_any hloads
  exact ⟨m, g, hl, of_decide_eq_true hne, load_save_load hl⟩

end Checkpoint
end FactorForest
