import FactorForest.Proofs.Checkpoint.Records
import FactorForest.Proofs.Graph.Edges

/-!
A checkpoint that is saved is loaded: the model as it was, the vertices as their fields tell them,
each candidate with its tentative parent as its one suitor, and the same edges.
-/

set_option autoImplicit false

namespace FactorForest

def Graph.heightAt (g : Graph) (i : Int) : Int :=
  ((if 0 ≤ i then g.vertices[i.toNat]? else none).map (·.tree.height)).getD 0

/-- A candidate with its tentative parent noted as a suitor, at the height given for it. -/
def Vertex.rejoined (heights : Int → Int) (x : Vertex) : Vertex :=
  match x.tree with
  | .candidate p => { x with suitors := x.suitors ++ [(p, heights p)] }
  | _ => x

theorem Vertex.rejoined_eq (heights : Int → Int) (x : Vertex) :
    x.rejoined heights = { x with suitors := (x.rejoined heights).suitors } := by
  rw [rejoined]
  split <;> rfl

theorem Vertex.tree_rejoined (heights : Int → Int) (x : Vertex) :
    (x.rejoined heights).tree = x.tree := by
  rw [rejoined_eq]

def Graph.linked (g : Graph) (ls : List (Nat × Nat × Edge)) : Graph :=
  ls.foldl (fun h l => h.setLink l.1 l.2.1 l.2.2) g

def Graph.rejoined (g : Graph) : Graph :=
  { g with vertices := g.vertices.map (·.rejoined g.heightAt) }

def Graph.reloaded (g : Graph) : Graph :=
  ((Graph.rejoined { vertices := g.vertices.map Vertex.stored }).linked g.edges).recolor

namespace Graph

theorem vertices_linked (g : Graph) (ls : List (Nat × Nat × Edge)) :
    (g.linked ls).vertices = g.vertices := by
  induction ls generalizing g with
  | nil => rfl
  | cons l ls ih => exact ih (g.setLink l.1 l.2.1 l.2.2)

theorem edge?_linked {ls : List (Nat × Nat × Edge)} (h : ls.Pairwise EdgeBefore) (g : Graph)
    (u v : Nat) (e : Edge) :
    (g.linked ls).edge? u v = some e ↔
      (u, v, e) ∈ ls ∨ (∀ d, (u, v, d) ∉ ls) ∧ g.edge? u v = some e := by
  induction ls generalizing g with
  | nil => simp [linked]
  | cons l ls ih =>
    obtain ⟨a, b, c⟩ := l
    have hl := List.pairwise_cons.1 h
    change ((g.setLink a b c).linked ls).edge? u v = some e ↔ _
    rw [ih hl.2, edge?_setLink]
    by_cases huv : u = a ∧ v = b
    · obtain ⟨rfl, rfl⟩ := huv
      have hn : ∀ d, (u, v, d) ∉ ls := fun d hd => by
        rcases hl.1 _ hd with hlt | ⟨-, hlt⟩ <;> exact Nat.lt_irrefl _ hlt
      simp [hn, eq_comm]
    · have hne : ∀ d, (u, v, d) ≠ (a, b, c) := fun d hd => huv (by simp_all)
      simp only [huv, if_false, List.mem_cons, hne, false_or]

theorem edges_linked (g h : Graph) (hh : h.links = {}) : (h.linked g.edges).edges = g.edges := by
  apply edges_ext
  intro u v
  apply Option.ext
  intro e
  rw [edge?_linked g.edges_ascending, mem_edges, edge?_of_no_links hh]
  simp

theorem heightAt_natCast (g : Graph) (n : Nat) :
    g.heightAt n = ((g.vertices[n]?).map (·.tree.height)).getD 0 := by
  simp [heightAt]

theorem heightAt_setVertex {g : Graph} {n : Nat} {x y : Vertex} (hx : g.vertices[n]? = some x)
    (ht : y.tree = x.tree) : (g.setVertex n y).heightAt = g.heightAt := by
  funext i
  by_cases hi : 0 ≤ i
  · obtain ⟨k, rfl⟩ := Int.eq_ofNat_of_zero_le hi
    rw [heightAt_natCast, heightAt_natCast, getElem?_setVertex hx]
    by_cases hk : k = n
    · rw [if_pos hk, hk, hx, Option.map_some, Option.map_some, ht]
    · rw [if_neg hk]
  · simp [heightAt, hi]

/-- The parents of candidates are vertices. -/
def ParentsKnown (g : Graph) : Prop :=
  ∀ x ∈ g.vertices, ∀ p, x.tree = .candidate p → g.holds p

/-- The numbers and lengths of a graph fit their fields, and the parents of its candidates are
among its vertices. -/
structure Storable (bound : Nat) (g : Graph) : Prop where
  count : g.vertices.size < 2 ^ 64
  vertices : ∀ x ∈ g.vertices, x.Storable bound
  parents : g.ParentsKnown
  edgeCount : g.edgeCount < 2 ^ 64
  edges : ∀ l ∈ g.edges, l.2.2.Storable bound

/-- The numbers and lengths of a graph fit their fields, whatever vertices the parents are. -/
structure Writable (bound : Nat) (g : Graph) : Prop where
  count : g.vertices.size < 2 ^ 64
  vertices : ∀ x ∈ g.vertices, x.Writable bound
  edgeCount : g.edgeCount < 2 ^ 64
  edges : ∀ l ∈ g.edges, l.2.2.Storable bound

theorem Storable.writable {bound : Nat} {g : Graph} (h : g.Storable bound) : g.Writable bound :=
  ⟨h.count, fun x hx => (h.vertices x hx).writable, h.edgeCount, h.edges⟩

end Graph

namespace Checkpoint

open Archive

variable {bound : Nat}

theorem readsBack_vertices (xs : List Vertex) (hb : bound ≤ countBound)
    (hs : ∀ x ∈ xs, x.Writable bound)
    (hroom : ∀ x ∈ xs, Factor.checkRoom (Scope.single x.self) = .ok ())
    (g : Graph) (hid : ∀ i x, xs[i]? = some x → x.self.id = g.vertices.size + i) :
    ReadsBack bound (Written.concat (xs.map writeVertex)) (readVertices g xs.length)
      { g with vertices := g.vertices ++ (xs.map Vertex.stored).toArray } := by
  induction xs generalizing g with
  | nil =>
    have hg : { g with vertices := g.vertices ++ ([].map Vertex.stored).toArray } = g := by simp
    rw [hg]
    exact .pure g
  | cons x xs ih =>
    have hx := readsBack_vertex hb (hs x List.mem_cons_self) (hroom x List.mem_cons_self)
    have h0 : x.stored.self.id = g.vertices.size := hid 0 x rfl
    refine hx.bind ?_
    simp only [h0, ne_eq, not_true_eq_false, if_false]
    have hrest := ih (fun y hy => hs y (List.mem_cons_of_mem x hy))
      (fun y hy => hroom y (List.mem_cons_of_mem x hy)) (g.addVertex x.stored) fun i y hy => by
        have hi := hid (i + 1) y (by simpa using hy)
        rw [Graph.addVertex, Array.size_push]
        omega
    have hg : { g.addVertex x.stored with
        vertices := (g.addVertex x.stored).vertices ++ (xs.map Vertex.stored).toArray } =
          { g with vertices := g.vertices ++ ((x :: xs).map Vertex.stored).toArray } := by
      simp [Graph.addVertex]
    rw [← hg]
    exact hrest

theorem restoreSuitors_cons {g : Graph} (hp : g.ParentsKnown) {n : Nat} {x : Vertex}
    (hx : g.vertices[n]? = some x) (ns : List Nat) :
    restoreSuitors g (n :: ns) = restoreSuitors (g.setVertex n (x.rejoined g.heightAt)) ns := by
  rw [restoreSuitors, hx]
  cases ht : x.tree with
  | candidate p =>
    obtain ⟨k, rfl, hk⟩ := Graph.holds_iff.1 (hp x (Array.mem_of_getElem? hx) p ht)
    have hpar : (if 0 ≤ (k : Int) then g.vertices[(k : Int).toNat]? else none) =
        some g.vertices[k] := by simp [hk]
    have hre : x.restoreSuitor k g.vertices[k].tree.height =
        .ok (x.rejoined g.heightAt) := by
      simp [Vertex.restoreSuitor, Vertex.rejoined, ht, Graph.heightAt, hk]
    simp only [ht, hpar, hre]
    rfl
  | available | boundary | treeNode | calibrated =>
    have hre : x.rejoined g.heightAt = x := by simp only [Vertex.rejoined, ht]
    rw [hre, Graph.setVertex_self hx]
    simp only [ht]

theorem parentsKnown_setVertex {g : Graph} (hp : g.ParentsKnown) {n : Nat} {x y : Vertex}
    (hx : g.vertices[n]? = some x) (ht : y.tree = x.tree) : (g.setVertex n y).ParentsKnown := by
  intro z hz p hzp
  have hz' : z = y ∨ z ∈ g.vertices := Array.mem_or_eq_of_mem_setIfInBounds hz |>.symm
  have hold : g.holds p := by
    rcases hz' with rfl | hm
    · exact hp x (Array.mem_of_getElem? hx) p (ht ▸ hzp)
    · exact hp z hm p hzp
  simpa [Graph.holds] using hold

theorem restoreSuitors_eq {g : Graph} (hp : g.ParentsKnown) {ns : List Nat} (hn : ns.Nodup)
    (hlt : ∀ n ∈ ns, n < g.vertices.size) :
    ∃ h, restoreSuitors g ns = .ok h ∧ h.links = g.links ∧ h.colors = g.colors ∧
      ∀ i : Nat, h.vertices[i]? =
        (g.vertices[i]?).map fun x => if i ∈ ns then x.rejoined g.heightAt else x := by
  -- every vertex keeps its state, so the heights that suitors get are those of the first graph
  induction ns generalizing g with
  | nil => exact ⟨g, rfl, rfl, rfl, fun i => by simp⟩
  | cons n ns ih =>
    have hnd := List.nodup_cons.1 hn
    obtain ⟨x, hx⟩ : ∃ x, g.vertices[n]? = some x :=
      ⟨_, Array.getElem?_eq_getElem (hlt n List.mem_cons_self)⟩
    have ht := x.tree_rejoined g.heightAt
    obtain ⟨h, hr, hl, hc, hv⟩ := ih (parentsKnown_setVertex hp hx ht) hnd.2 fun k hk => by
      rw [Graph.size_setVertex]
      exact hlt k (List.mem_cons_of_mem n hk)
    refine ⟨h, (restoreSuitors_cons hp hx ns).trans hr, hl, hc, ?_⟩
    intro i
    rw [hv, Graph.heightAt_setVertex hx ht, Graph.getElem?_setVertex hx]
    by_cases hi : i = n
    · simp [hi, hx, hnd.1]
    · simp [hi]

theorem restoreSuitors_range {g : Graph} (hp : g.ParentsKnown) :
    restoreSuitors g (List.range g.vertices.size) = .ok g.rejoined := by
  obtain ⟨h, hr, hl, hc, hv⟩ :=
    restoreSuitors_eq hp List.nodup_range fun n hn => List.mem_range.1 hn
  have hvs : h.vertices = g.vertices.map (·.rejoined g.heightAt) := by
    apply Array.ext_getElem?
    intro i
    rw [hv, Array.getElem?_map]
    by_cases hi : i < g.vertices.size
    · simp [hi]
    · simp [Array.getElem?_eq_none (Nat.le_of_not_lt hi)]
  rw [hr]
  cases h
  cases hl
  cases hc
  cases hvs
  rfl

theorem parentsKnown_stored {g : Graph} (hp : g.ParentsKnown) :
    Graph.ParentsKnown { vertices := g.vertices.map Vertex.stored } := by
  intro y hy p hpy
  obtain ⟨x, hx, rfl⟩ := Array.mem_map.1 hy
  have ht : x.tree = .candidate p := by
    cases hx : x.tree <;> simp_all [Vertex.stored, TreeState.unmarked]
  simpa [Graph.holds] using hp x hx p ht

theorem readsBack_links (ls : List (Nat × Nat × Edge)) (hb : bound ≤ countBound)
    (hs : ∀ l ∈ ls, l.2.2.Storable bound) (g : Graph) (hg : g.vertices.size < 2 ^ 64)
    (hl : ∀ l ∈ ls, l.1 < g.vertices.size ∧ l.2.1 < g.vertices.size ∧ l.1 ≠ l.2.1) :
    ReadsBack bound (Written.concat (ls.map writeLink)) (readLinks g ls.length) (g.linked ls) := by
  induction ls generalizing g with
  | nil => exact .pure g
  | cons l ls ih =>
    obtain ⟨hu, hv, hne⟩ := hl l List.mem_cons_self
    have ha : g.addEdge l.1 l.2.1 l.2.2 = .ok (g.setLink l.1 l.2.1 l.2.2) :=
      Graph.addEdge_eq_ok_iff.2 ⟨l.1, l.2.1, rfl, rfl, hu, hv, hne, rfl⟩
    have hrest := ih (fun k hk => hs k (List.mem_cons_of_mem l hk))
      (g.setLink l.1 l.2.1 l.2.2) hg fun k hk => hl k (List.mem_cons_of_mem l hk)
    change ReadsBack bound (writeLink l ++ Written.concat (ls.map writeLink)) _ _
    rw [writeLink]
    simp only [Written.append_assoc]
    refine (readsBack_u64 (hu.trans hg)).bind ((readsBack_u64 (hv.trans hg)).bind
      ((readsBack_edge hb (hs l List.mem_cons_self)).bind ?_))
    exact (ReadsBack.checked ha).bind hrest

theorem empty_append_stored (g : Graph) :
    { ({} : Graph) with
      vertices := ({} : Graph).vertices ++ (g.vertices.toList.map Vertex.stored).toArray } =
        { vertices := g.vertices.map Vertex.stored } := by
  rw [← Array.toList_map, Array.toArray_toList]
  exact congrArg (fun vs => ({ vertices := vs } : Graph)) Array.empty_append

theorem readsBack_graph {g : Graph} (hb : bound ≤ countBound) (hg : g.Sound)
    (hs : g.Writable bound) (hp : g.ParentsKnown)
    (hid : ∀ (i : Nat) (x : Vertex), g.vertices[i]? = some x → x.self.id = i)
    (hroom : ∀ x ∈ g.vertices, Factor.checkRoom (Scope.single x.self) = .ok ()) :
    ReadsBack bound (writeGraph g) readGraph g.reloaded := by
  have hvs := readsBack_vertices g.vertices.toList hb
    (fun x hx => hs.vertices x (Array.mem_toList_iff.1 hx))
    (fun x hx => hroom x (Array.mem_toList_iff.1 hx)) {} fun i x hx => by
      have hi := hid i x (by simpa using hx)
      simpa using hi
  rw [empty_append_stored] at hvs
  have hls := readsBack_links g.edges hb hs.edges
    (Graph.rejoined { vertices := g.vertices.map Vertex.stored })
    (by simpa [Graph.rejoined] using hs.count) fun l hl => by
      have hsound := hg l.1 l.2.1 (Graph.hasEdge_iff.2 ⟨l.2.2, Graph.mem_edges.1 hl⟩)
      simpa [Graph.rejoined] using hsound
  rw [writeGraph, Archive.list, Archive.list]
  simp only [Written.append_assoc]
  refine (readsBack_listLength hs.count).bind (hvs.bind ?_)
  have hr := restoreSuitors_range (parentsKnown_stored hp)
  rw [hr]
  exact (readsBack_listLength hs.edgeCount).bind (hls.last (.pure _))

theorem selfs_reloaded (g : Graph) :
    g.reloaded.vertices.toList.map (·.self) = g.vertices.toList.map (·.self) := by
  rw [Graph.reloaded, Graph.recolor, Graph.vertices_linked, Graph.rejoined]
  simp only [Array.toList_map, List.map_map]
  apply List.map_congr_left
  intro x _
  rw [Function.comp_apply, Function.comp_apply, Vertex.rejoined_eq]
  rfl

theorem load_save_reloaded {m : Model} {g : Graph} (hm : m.Built)
    (hms : m.Storable fileCountBound) (hg : g.Sound) (hgs : g.Writable fileCountBound)
    (hp : g.ParentsKnown)
    (hself : g.vertices.toList.map (·.self) = m.vars.values)
    (hid : ∀ (i : Nat) (x : Vertex), g.vertices[i]? = some x → x.self.id = i) :
    (save m g).fault = none ∧ load (save m g).bytes = .ok (m, g.reloaded) := by
  have hb : fileCountBound ≤ countBound := Nat.sub_le countBound 33
  have hmodel := readsBack_model hb hm hms
  have hgraph := readsBack_graph hb hg hgs hp hid fun x hx => by
    have hv : x.self ∈ m.vars.values := by
      rw [← hself]
      exact List.mem_map_of_mem (Array.mem_toList_iff.2 hx)
    exact checkRoom_registered hm.registered hb hms hv
  have hheader : header.fault = none := rfl
  have hbytes : (save m g).bytes =
      header.bytes ++ ((writeModel m).bytes ++ ((writeGraph g).bytes ++ [])) := by
    rw [save, Written.append_assoc, Written.bytes_append hheader,
      Written.bytes_append hmodel.complete, List.append_nil]
  have hfault : (save m g).fault = none := by
    rw [save, Written.append_assoc, Written.fault_append hheader,
      Written.fault_append hmodel.complete, hgraph.complete]
  have hrun : readAll.start fileCountBound (save m g).bytes = (.ok (m, g.reloaded), []) := by
    rw [hbytes, readAll, Reader.start_bind_ok (readsBack_header.start _),
      Reader.start_bind_ok (hmodel.start _), Reader.start_bind_ok (hgraph.start _),
      Reader.start_bind_ok Reader.start_get]
    simp only [selfs_reloaded, hself, ne_eq, not_true_eq_false, if_false]
    rfl
  exact ⟨hfault, by rw [load, hrun]⟩

theorem load_save_eq {m : Model} {g : Graph} (hm : m.Built) (hms : m.Storable fileCountBound)
    (hg : g.Sound) (hgs : g.Storable fileCountBound)
    (hself : g.vertices.toList.map (·.self) = m.vars.values)
    (hid : ∀ (i : Nat) (x : Vertex), g.vertices[i]? = some x → x.self.id = i) :
    (save m g).fault = none ∧ load (save m g).bytes = .ok (m, g.reloaded) :=
  load_save_reloaded hm hms hg hgs.writable hgs.parents hself hid

end Checkpoint

/-- Vertices with equal records in an archive: all fields but the reports of children and the
suitors. -/
structure Vertex.SameRecord (x y : Vertex) : Prop where
  self : x.self = y.self
  sample : x.sample = y.sample
  factorIds : x.factorIds = y.factorIds
  belief : x.belief = y.belief
  scratch : x.scratch = y.scratch
  updates : x.updates = y.updates
  phase : x.phase = y.phase
  parent : x.tree.parent = y.tree.parent
  height : x.tree.height = y.tree.height
  bids : x.bids = y.bids

theorem Vertex.sameRecord_rejoined (heights : Int → Int) (x : Vertex) :
    (x.stored.rejoined heights).SameRecord x := by
  rw [rejoined_eq]
  exact ⟨rfl, rfl, rfl, rfl, rfl, rfl, x.tree.phase_unmarked, x.tree.parent_unmarked,
    x.tree.height_unmarked, rfl⟩

namespace Checkpoint

open Archive

/-- A model made of accepted factors and a graph over its variables come back from a checkpoint
whenever their numbers and lengths fit the fields. -/
theorem load_save {m : Model} {g : Graph} (hm : m.Built) (hms : m.Storable fileCountBound)
    (hg : g.Sound) (hgs : g.Storable fileCountBound)
    (hself : g.vertices.toList.map (·.self) = m.vars.values)
    (hid : ∀ (i : Nat) (x : Vertex), g.vertices[i]? = some x → x.self.id = i) :
    (save m g).fault = none ∧ ∃ h, load (save m g).bytes = .ok (m, h) ∧
      h.vertices.size = g.vertices.size ∧
      (∀ (i : Nat) (x : Vertex), g.vertices[i]? = some x →
        ∃ y, h.vertices[i]? = some y ∧ y.SameRecord x) ∧
      h.edges = g.edges := by
  obtain ⟨hs, hl⟩ := load_save_eq hm hms hg hgs hself hid
  obtain ⟨heights, hv⟩ : ∃ heights, g.reloaded.vertices =
      (g.vertices.map Vertex.stored).map (·.rejoined heights) :=
    ⟨_, Graph.vertices_linked _ _⟩
  refine ⟨hs, g.reloaded, hl, ?_, ?_, ?_⟩
  · simp [hv]
  · intro i x hx
    refine ⟨x.stored.rejoined heights, ?_, x.sameRecord_rejoined heights⟩
    rw [hv, Array.getElem?_map, Array.getElem?_map, hx]
    rfl
  · exact Graph.edges_linked g _ rfl

def pairModel : Model :=
  { ({} : Model).extend (Factor.zero ⟨[⟨0, 2, by decide⟩, ⟨1, 3, by decide⟩], by decide⟩) none with
    names := ["x", "é"] }

def pairVertex (v : Variable) : Vertex :=
  Vertex.fresh v [0] (Assignment.first (Scope.single v)) .zero

/-- The first vertex of `pairModel` is the root of a tree and has bid for the second. -/
def pairGraph : Graph :=
  let root := { pairVertex ⟨0, 2, by decide⟩ with tree := .boundary none 0 }
  let next := (pairVertex ⟨1, 3, by decide⟩).noteBid 0 0 0
  ((({} : Graph).addVertex root).addVertex next).setLink 0 1
    { message := some next.belief, pairFactor := some root.belief }

theorem load_save_pair :
    (save pairModel pairGraph).fault = none ∧ ∃ h,
      load (save pairModel pairGraph).bytes = .ok (pairModel, h) ∧
      h.vertices.size = pairGraph.vertices.size ∧
      (∀ (i : Nat) (x : Vertex), pairGraph.vertices[i]? = some x →
        ∃ y, h.vertices[i]? = some y ∧ y.SameRecord x) ∧
      h.edges = pairGraph.edges := by
  have hm : pairModel.Built := (Model.Built.empty.extend (by decide)).name _
  have hms : pairModel.Storable fileCountBound :=
    ⟨by decide, by decide, by decide, by decide, by decide⟩
  have hg : pairGraph.Sound :=
    ((Graph.sound_empty.addVertex _).addVertex _).addEdge (i := 0) (j := 1) rfl
  have hx : ∀ x ∈ pairGraph.vertices, x = pairGraph.vertices[0] ∨ x = pairGraph.vertices[1] := by
    simp [pairGraph, Graph.addVertex, Graph.setLink]
  have hgs : pairGraph.Storable fileCountBound := by
    refine ⟨by decide, ?_, ?_, by decide, ?_⟩
    · intro x h
      rcases hx x h with rfl | rfl <;>
        exact ⟨by decide, by decide, by decide, by decide, by decide, by decide, by decide,
          by decide, by decide, by decide, by decide⟩
    · intro x h p hp
      rcases hx x h with rfl | rfl
      · cases hp
      · cases hp
        decide
    · intro l hl
      have hl' : l = pairGraph.edges[0] := List.mem_singleton.1 hl
      rw [hl']
      exact ⟨⟨_, rfl, by decide⟩, ⟨_, rfl, by decide⟩⟩
  have hid : ∀ (i : Nat) (x : Vertex), pairGraph.vertices[i]? = some x → x.self.id = i := by
    intro i x h
    rcases i with _ | _ | i
    · cases h
      rfl
    · cases h
      rfl
    · simp [pairGraph, Graph.addVertex, Graph.setLink] at h
  exact load_save hm hms hg hgs (by decide) hid

end Checkpoint
end FactorForest
