import FactorForest.Proofs.Calls
import FactorForest.Proofs.Graph.Bare
import FactorForest.Proofs.Graph.Clique
import FactorForest.Proofs.Graph.Moves
import FactorForest.Proofs.Lifecycle

/-!
A reset leaves nothing of the rounds before it. Whatever is done to a clique graph, short of adding
vertices or edges, its reset clears the state of the round and nothing else, and the bare graph is
then the one of the new graph; so every tree grows on it as it grows there.
-/

set_option autoImplicit false

namespace FactorForest.Graph

section Steps

variable {P : Graph → Prop} {g : Graph}
  (hP : ∀ (g : Graph) (n : Nat) (x y : Vertex), g.vertices[n]? = some x → x.Step y → P g →
    P (g.setVertex n y))

include hP

theorem bid_induction (p : Nat) (k : Int) (w : Nat) (hg : P g) : P (bid p k g w) := by
  rw [bid]
  split
  · exact hg
  · rename_i x hx
    split
    · rename_i y hy
      exact hP g w x y hx (.bid p k hy) hg
    · exact hg

theorem bidAround_induction (maxHeight : Int) (p : Nat) (hg : P g) :
    P (bidAround maxHeight g p) := by
  rw [bidAround]
  split
  · exact hg
  · split_ifs
    · exact List.foldlRecOn _ _ hg fun h hh w _ => bid_induction hP p _ w hh
    · exact hg

theorem settleAll_induction (vs : List Nat) (hg : P g) : P (settleAll g vs).1 := by
  induction vs generalizing g with
  | nil => exact hg
  | cons v vs ih =>
    rw [settleAll]
    split
    · exact ih hg
    · rename_i x hx
      split_ifs
      · split
        · exact hg
        · rename_i y r hy
          exact ih (hP g v x y hx (.settle r.1 r.2 hy) hg)
      · exact ih hg

theorem finishAll_induction (ps : List Nat) (hg : P g) : P (finishAll g ps).1 := by
  induction ps generalizing g with
  | nil => exact hg
  | cons p ps ih =>
    rw [finishAll]
    split
    · exact ih hg
    · rename_i x hx
      split
      · exact hg
      · rename_i y hy
        exact ih (hP g p x y hx (.finish hy) hg)

theorem growFrom_induction (maxHeight : Int) (rounds : Nat) (front : List Nat) (hg : P g) :
    P (growFrom maxHeight rounds g front).1 := by
  induction rounds generalizing g front with
  | zero => exact hg
  | succ rounds ih =>
    cases front with
    | nil => exact hg
    | cons p ps =>
      have hbids : P ((p :: ps).foldl (bidAround maxHeight) g) :=
        List.foldlRecOn _ _ hg fun h hh q _ => bidAround_induction hP maxHeight q hh
      have hsettle := settleAll_induction hP
        (List.range ((p :: ps).foldl (bidAround maxHeight) g).vertices.size) hbids
      simp only [growFrom]
      -- A fault ends the run after its loop, so the result of each loop tells how it goes on.
      generalize settleAll ((p :: ps).foldl (bidAround maxHeight) g) _ = settled at hsettle ⊢
      obtain ⟨s, e | next⟩ := settled
      · exact hsettle
      · have hfinish := finishAll_induction hP (p :: ps) hsettle
        simp only []
        generalize finishAll s (p :: ps) = finished at hfinish ⊢
        obtain ⟨h, e | _⟩ := finished
        · exact hfinish
        · exact ih next hfinish

/-- What the steps of single vertices keep, growth keeps, also where it is refused on its way. -/
theorem grow_induction (root maxHeight : Int) (hg : P g) : P (g.grow root maxHeight).1 := by
  rw [grow]
  split
  · exact hg
  · rename_i r x hx
    split
    · exact hg
    · rename_i y hy
      have hroot := hP g r x y (getElem?_of_vertexAt hx) (.root hy) hg
      simp only []
      split_ifs
      · exact hroot
      · exact growFrom_induction hP maxHeight _ [r] hroot

end Steps

/-- A use of a graph that adds no vertex and no edge. -/
inductive Act
  | call (v : Int) (c : Vertex.Call)
  | restoreSuitor (v bidder height : Int)
  | sample (v : Int) (a : Assignment)
  | belief (v : Int) (f : Factor)
  | scratch (v : Int) (f : Factor)
  | edge (u v : Int) (f : Edge → Edge)
  | grow (root maxHeight : Int)
  | clear

/-- A vertex or an edge that is not there and a call that fails leave the graph as it was. Growth
that fails leaves it as far as it came. -/
def act (g : Graph) : Act → Graph
  | .call v c => g.attempt v fun x => .ok (x.call c)
  | .restoreSuitor v b k => g.attempt v (·.restoreSuitor b k)
  | .sample v a => g.attempt v fun x => .ok { x with sample := a }
  | .belief v f => g.attempt v fun x => .ok { x with belief := f }
  | .scratch v f => g.attempt v fun x => .ok { x with scratch := f }
  | .edge u v f => (g.setEdge u v f).toOption.getD g
  | .grow root maxHeight => (g.grow root maxHeight).1
  | .clear => g.clearTrees

def acts (g : Graph) (as : List Act) : Graph := as.foldl act g

/-- The bare graph with every vertex as a reset leaves it. -/
def blank (g : Graph) : Graph :=
  { vertices := g.vertices.map fun x => x.clear.bare, links := g.bareLinks }

variable {g h : Graph}

theorem bareLinks_clearTrees (g : Graph) : g.clearTrees.bareLinks = g.bareLinks := by
  rw [bareLinks, clearTrees, IdMap.mapValues_mapValues, bareLinks]
  congr 1
  funext es
  exact IdMap.mapValues_mapValues _ _ es

theorem bareLinks_setLink {u v : Nat} {e : Edge} (he : g.edge? u v = some e) (e' : Edge) :
    (g.setLink u v e').bareLinks = g.bareLinks := by
  obtain ⟨es, hes, hv⟩ : ∃ es, g.links.find? u = some es ∧ es.find? v = some e := by
    rw [edge?_natCast, linksOf] at he
    cases hu : g.links.find? u with
    | none => simp [hu] at he
    | some es => exact ⟨es, rfl, by simpa [hu] using he⟩
  have hlinks : g.linksOf u = es := by rw [linksOf, hes, Option.getD_some]
  -- Both maps have the id already, and what they have under it is bare.
  have hinner : (es.insert v e').mapValues (fun _ => ({} : Edge)) = es.mapValues fun _ => {} := by
    rw [IdMap.mapValues_insert]
    exact IdMap.insert_of_find? (by rw [IdMap.find?_mapValues, hv, Option.map_some])
  rw [bareLinks, setLink, hlinks, IdMap.mapValues_insert, hinner]
  exact IdMap.insert_of_find? (by rw [IdMap.find?_mapValues, hes, Option.map_some])

theorem bare_clearTrees (g : Graph) : g.clearTrees.bare = g.blank := by
  rw [bare, bareLinks_clearTrees, clearTrees, Array.map_map, blank]
  rfl

theorem blank_clearTrees (g : Graph) : g.clearTrees.blank = g.blank := by
  rw [blank, bareLinks_clearTrees, clearTrees, Array.map_map, blank]
  rfl

theorem blank_congr (hv : g.vertices = h.vertices) (hl : g.bareLinks = h.bareLinks) :
    g.blank = h.blank := by
  rw [blank, blank, hv, hl]

theorem blank_setVertex {n : Nat} {x y : Vertex} (hx : g.vertices[n]? = some x)
    (h : y.self = x.self) : (g.setVertex n y).blank = g.blank := by
  have hset : (g.setVertex n y).blank = g.blank.setVertex n y.clear.bare := by
    simp only [blank, bareLinks, setVertex, Array.map_setIfInBounds]
  have hy : y.clear.bare = x.clear.bare := by
    simp only [Vertex.bare, Vertex.clear, Vertex.cleared, h]
  have hn : g.blank.vertices[n]? = some y.clear.bare := by
    rw [blank, Array.getElem?_map, hx, hy, Option.map_some]
  rw [hset]
  exact setVertex_self hn

theorem blank_attempt (g : Graph) (i : Int) {f : Vertex → Except Fault Vertex}
    (hf : ∀ x y, f x = .ok y → y.self = x.self) : (g.attempt i f).blank = g.blank :=
  attempt_induction (P := fun h => h.blank = g.blank) rfl fun _ x y hx hy =>
    blank_setVertex hx (hf x y hy)

theorem blank_setEdge {u v : Int} {f : Edge → Edge} (hs : g.setEdge u v f = .ok h) :
    h.blank = g.blank := by
  obtain ⟨a, b, e, rfl, rfl, he, rfl⟩ := setEdge_eq_ok_iff.1 hs
  exact blank_congr rfl (bareLinks_setLink he (f e))

theorem blank_grow (g : Graph) (root maxHeight : Int) :
    (g.grow root maxHeight).1.blank = g.blank :=
  grow_induction (P := fun h => h.blank = g.blank)
    (fun _ _ _ _ hx hstep hg => (blank_setVertex hx hstep.sameMatter.self_eq).trans hg)
    root maxHeight rfl

/-- No use of a graph shows on it after a reset, but for its samples, its tables and its weights. -/
theorem blank_act (g : Graph) (a : Act) : (g.act a).blank = g.blank := by
  cases a with
  | call v c =>
    refine blank_attempt g v fun x y hy => ?_
    cases hy
    exact (x.sameMatter_calls [c]).self_eq
  | restoreSuitor v b k =>
    refine blank_attempt g v fun x y hy => ?_
    obtain ⟨-, rfl⟩ := Vertex.restoreSuitor_eq_ok_iff.1 hy
    rfl
  | sample v a | belief v f | scratch v f =>
    refine blank_attempt g v fun x y hy => ?_
    cases hy
    rfl
  | edge u v f =>
    rw [act]
    cases hs : g.setEdge u v f with
    | error e => rfl
    | ok h => exact blank_setEdge hs
  | grow root maxHeight => exact blank_grow g root maxHeight
  | clear => exact blank_clearTrees g

theorem blank_acts (g : Graph) (as : List Act) : (g.acts as).blank = g.blank := by
  induction as generalizing g with
  | nil => rfl
  | cons a as ih => exact (ih (g.act a)).trans (blank_act g a)

theorem blank_ofModel {m : Model} {init : Double} {draws : Draws}
    (h : ofModel m init draws = .ok g) : g.blank = g.bare := by
  have hclear : ∀ x ∈ g.vertices, x.clear.bare = x.bare :=
    forall_ofModel (Q := fun x => x.clear.bare = x.bare) (fun _ _ _ => rfl) h
  rw [blank, bare]
  congr 1
  exact Array.map_congr_left hclear

/-- Whatever was done to the clique graph of a model, a reset takes every vertex out of its tree,
with no suitors and no count of bids, and lowers the flag of every edge. It leaves all else as it
was. Each tree grows then as it grows on the new graph, with the same members and the same states
of all vertices, or with the same fault. -/
theorem reset_of_acts {m : Model} {init : Double} {draws : Draws}
    (h : ofModel m init draws = .ok g) (as : List Act) :
    (∀ v : Nat, (g.acts as).clearTrees.vertices[v]? = ((g.acts as).vertices[v]?).map fun x =>
        { x with tree := .available, bids := { count := 0 }, suitors := [] }) ∧
      (∀ u v : Int, (g.acts as).clearTrees.edge? u v =
        ((g.acts as).edge? u v).map fun e => { e with exploring := false }) ∧
      (g.acts as).clearTrees.colors = (g.acts as).colors ∧
      ∀ root maxHeight : Int,
        ((g.acts as).clearTrees.grow root maxHeight).2 = (g.grow root maxHeight).2 ∧
        ∀ v : Nat, (((g.acts as).clearTrees.grow root maxHeight).1.vertices[v]?).map
            (fun x => (x.tree, x.bids, x.suitors)) =
          ((g.grow root maxHeight).1.vertices[v]?).map fun x => (x.tree, x.bids, x.suitors) := by
  have hbare : (g.acts as).clearTrees.bare = g.bare := by
    rw [bare_clearTrees, blank_acts, blank_ofModel h]
  refine ⟨fun v => Array.getElem?_map, edge?_clearTrees (g.acts as), rfl, ?_⟩
  intro root maxHeight
  obtain ⟨hgraph, hmembers⟩ := grow_congr hbare root maxHeight
  exact ⟨hmembers, round_congr hgraph⟩

/-- A tree over the whole chain; then a vertex leaves it and gets a bid, an edge is followed, and a
sample is changed. -/
def chainActs : List Act :=
  [.grow 1 5, .call 2 .clear, .call 2 (.propose 7 4), .call 0 .recordUpdate,
    .edge 0 1 fun e => { e with exploring := true },
    .sample 2 (Assignment.first (Scope.single (.upTo 2 2)))]

theorem reset_of_acts_chain : ∃ g, ofModel chainModel .zero (Draws.ofList [1, 0, 1]) = .ok g ∧
    ((g.acts chainActs).grow 0 1).2 = .error (.wrongPhase 0 .treeNode .available) ∧
    ((g.acts chainActs).clearTrees.grow 0 1).2 = .ok [0, 1] := by
  have hmade : (ofModel chainModel .zero (Draws.ofList [1, 0, 1])).toOption.any fun g =>
      ((g.acts chainActs).grow 0 1).2 = .error (.wrongPhase 0 .treeNode .available) &&
        (g.grow 0 1).2 = .ok [0, 1] := by
    decide +kernel
  obtain ⟨g, hg, hruns⟩ := exists_ok_of_any hmade
  rw [Bool.and_eq_true, decide_eq_true_eq, decide_eq_true_eq] at hruns
  obtain ⟨-, -, -, hgrow⟩ := reset_of_acts hg chainActs
  exact ⟨g, hg, hruns.1, (hgrow 0 1).1.trans hruns.2⟩

end FactorForest.Graph
