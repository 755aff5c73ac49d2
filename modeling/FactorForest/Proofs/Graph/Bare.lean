import FactorForest.Graph.Growth
import FactorForest.Proofs.Graph.Edges
import FactorForest.Proofs.Vertex

set_option autoImplicit false

namespace FactorForest

namespace Vertex

/-- The vertex with nothing but its variable and its part in the round. -/
def bare (x : Vertex) : Vertex :=
  { fresh x.self [] (Assignment.first (Scope.single x.self)) .zero with
    tree := x.tree, bids := x.bids, suitors := x.suitors }

@[simp]
theorem phase_bare (x : Vertex) : x.bare.phase = x.phase := rfl

@[simp]
theorem tree_bare (x : Vertex) : x.bare.tree = x.tree := rfl

theorem makeRoot_bare (x : Vertex) : x.bare.makeRoot = x.makeRoot.map bare := by
  obtain ⟨self, sample, factorIds, belief, scratch, updates, tree, bids, suitors⟩ := x
  cases tree <;> rfl

theorem propose_bare (x : Vertex) (b k : Int) :
    x.bare.propose b k = (x.propose b k).map bare := by
  obtain ⟨self, sample, factorIds, belief, scratch, updates, tree, bids, suitors⟩ := x
  cases tree <;> rfl

theorem settle_bare (x : Vertex) :
    x.bare.settle = x.settle.map fun r => (r.1.bare, r.2) := by
  obtain ⟨self, sample, factorIds, belief, scratch, updates, tree, bids, suitors⟩ := x
  cases tree <;> cases suitors <;> rfl

theorem finish_bare (x : Vertex) : x.bare.finish = x.finish.map bare := by
  obtain ⟨self, sample, factorIds, belief, scratch, updates, tree, bids, suitors⟩ := x
  cases tree <;> rfl

end Vertex

namespace Graph

def bareLinks (g : Graph) : IdMap (IdMap Edge) := g.links.mapValues (·.mapValues fun _ => {})

def bare (g : Graph) : Graph := { vertices := g.vertices.map Vertex.bare, links := g.bareLinks }

@[simp]
theorem getElem?_bare (g : Graph) (n : Nat) :
    g.bare.vertices[n]? = (g.vertices[n]?).map Vertex.bare :=
  Array.getElem?_map

@[simp]
theorem size_bare (g : Graph) : g.bare.vertices.size = g.vertices.size := Array.size_map

theorem setVertex_bare (g : Graph) (n : Nat) (y : Vertex) :
    g.bare.setVertex n y.bare = (g.setVertex n y).bare := by
  simp only [setVertex, bare, bareLinks, Array.map_setIfInBounds]

theorem targets_bare (g : Graph) (u : Nat) : g.bare.targets u = g.targets u := by
  simp only [targets, linksOf, bare, bareLinks, IdMap.find?_mapValues]
  cases g.links.find? u with
  | none => rfl
  | some es => simp only [Option.map_some, Option.getD_some, IdMap.keys_mapValues]

theorem vertexAt_bare (g : Graph) (i : Int) :
    g.bare.vertexAt i = (g.vertexAt i).map fun r => (r.1, r.2.bare) := by
  simp only [vertexAt, size_bare]
  cases resolveIndex g.vertices.size i .noEntryAt with
  | error e => rfl
  | ok n =>
    simp only [getElem?_bare]
    cases g.vertices[n]? <;> rfl

theorem bid_bare (p : Nat) (k : Int) (g : Graph) (w : Nat) :
    bid p k g.bare w = (bid p k g w).bare := by
  simp only [bid, getElem?_bare]
  cases g.vertices[w]? with
  | none => rfl
  | some x =>
    simp only [Option.map_some, Vertex.propose_bare]
    cases x.propose p k with
    | none => rfl
    | some y => exact setVertex_bare g w y

theorem bidAround_bare (maxHeight : Int) (g : Graph) (p : Nat) :
    bidAround maxHeight g.bare p = (bidAround maxHeight g p).bare := by
  simp only [bidAround, getElem?_bare, targets_bare]
  cases g.vertices[p]? with
  | none => rfl
  | some x =>
    simp only [Option.map_some, Vertex.tree_bare]
    by_cases hm : x.tree.height < maxHeight
    · simp only [hm, if_true]
      exact List.foldl_hom Graph.bare (bid_bare p x.tree.height)
    · simp only [hm, if_false]

theorem settleAll_bare (vs : List Nat) (g : Graph) :
    settleAll g.bare vs = ((settleAll g vs).1.bare, (settleAll g vs).2) := by
  induction vs generalizing g with
  | nil => rfl
  | cons v vs ih =>
    simp only [settleAll, getElem?_bare]
    cases g.vertices[v]? with
    | none => exact ih g
    | some x =>
      simp only [Option.map_some, Vertex.phase_bare, Vertex.settle_bare]
      split_ifs
      · cases x.settle with
        | error e => rfl
        | ok r => simp only [Except.map, setVertex_bare, ih]
      · exact ih g

theorem finishAll_bare (ps : List Nat) (g : Graph) :
    finishAll g.bare ps = ((finishAll g ps).1.bare, (finishAll g ps).2) := by
  induction ps generalizing g with
  | nil => rfl
  | cons p ps ih =>
    simp only [finishAll, getElem?_bare]
    cases g.vertices[p]? with
    | none => exact ih g
    | some x =>
      simp only [Option.map_some, Vertex.finish_bare]
      cases x.finish with
      | error e => rfl
      | ok y => simp only [Except.map, setVertex_bare, ih]

theorem growFrom_bare (maxHeight : Int) (rounds : Nat) (g : Graph) (front : List Nat) :
    growFrom maxHeight rounds g.bare front =
      ((growFrom maxHeight rounds g front).1.bare, (growFrom maxHeight rounds g front).2) := by
  induction rounds generalizing g front with
  | zero => rfl
  | succ rounds ih =>
    cases front with
    | nil => rfl
    | cons p ps =>
      have hbids : (p :: ps).foldl (bidAround maxHeight) g.bare =
          ((p :: ps).foldl (bidAround maxHeight) g).bare :=
        List.foldl_hom Graph.bare (bidAround_bare maxHeight)
      simp only [growFrom, hbids, settleAll_bare, size_bare]
      rcases settleAll ((p :: ps).foldl (bidAround maxHeight) g) _ with ⟨s, e | next⟩
      · rfl
      · simp only [finishAll_bare]
        rcases finishAll s (p :: ps) with ⟨h, e | _⟩
        · rfl
        · simp only [ih]

theorem grow_bare (g : Graph) (root maxHeight : Int) :
    g.bare.grow root maxHeight =
      ((g.grow root maxHeight).1.bare, (g.grow root maxHeight).2) := by
  simp only [grow, vertexAt_bare]
  rcases g.vertexAt root with e | ⟨r, x⟩
  · rfl
  · simp only [Except.map, Vertex.makeRoot_bare]
    cases x.makeRoot with
    | error e => rfl
    | ok y =>
      simp only [setVertex_bare, growFrom_bare, size_bare]
      split_ifs <;> rfl

/-- Trees grow alike on graphs that are the same when bare. -/
theorem grow_congr {g h : Graph} (hb : g.bare = h.bare) (root maxHeight : Int) :
    (g.grow root maxHeight).1.bare = (h.grow root maxHeight).1.bare ∧
      (g.grow root maxHeight).2 = (h.grow root maxHeight).2 := by
  have hgrow := congrArg (fun k : Graph => k.grow root maxHeight) hb
  simp only [grow_bare, Prod.mk.injEq] at hgrow
  exact hgrow

theorem round_congr {g h : Graph} (hb : g.bare = h.bare) (v : Nat) :
    (g.vertices[v]?).map (fun x => (x.tree, x.bids, x.suitors)) =
      (h.vertices[v]?).map fun x => (x.tree, x.bids, x.suitors) := by
  have hv : (g.vertices[v]?).map Vertex.bare = (h.vertices[v]?).map Vertex.bare := by
    rw [← getElem?_bare, hb, getElem?_bare]
  have hround := congrArg (Option.map fun x => (x.tree, x.bids, x.suitors)) hv
  simp only [Option.map_map] at hround
  exact hround

end Graph
end FactorForest
