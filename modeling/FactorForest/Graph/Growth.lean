import FactorForest.Graph.Basic

/-!
Growth of one tree from a root, breadth first. In every round the frontier bids for its
neighbours, every candidate settles, and the old frontier is finished; the vertices that settled
are the next frontier.
-/

set_option autoImplicit false

namespace FactorForest.Graph

def bid (p : Nat) (h : Int) (g : Graph) (v : Nat) : Graph :=
  match g.vertices[v]? with
  | none => g
  | some x =>
    match x.propose p h with
    | some y => g.setVertex v y
    | none => g

/-- The bids of one frontier vertex, none from the greatest height on. -/
def bidAround (maxHeight : Int) (g : Graph) (p : Nat) : Graph :=
  match g.vertices[p]? with
  | none => g
  | some x =>
    if x.tree.height < maxHeight then (g.targets p).foldl (bid p x.tree.height) g else g

def settleAll (g : Graph) : List Nat → Graph × Except Fault (List Nat)
  | [] => (g, .ok [])
  | v :: vs =>
    match g.vertices[v]? with
    | none => settleAll g vs
    | some x =>
      if x.phase = .candidate then
        match x.settle with
        | .error e => (g, .error e)
        | .ok (y, _) =>
          let (g', r) := settleAll (g.setVertex v y) vs
          (g', r.map (v :: ·))
      else settleAll g vs

def finishAll (g : Graph) : List Nat → Graph × Except Fault Unit
  | [] => (g, .ok ())
  | v :: vs =>
    match g.vertices[v]? with
    | none => finishAll g vs
    | some x =>
      match x.finish with
      | .error e => (g, .error e)
      | .ok y => finishAll (g.setVertex v y) vs

def growFrom (maxHeight : Int) : Nat → Graph → List Nat → Graph × Except Fault (List Nat)
  | 0, g, _ => (g, .ok [])
  | _ + 1, g, [] => (g, .ok [])
  | rounds + 1, g, frontier =>
    let bids := frontier.foldl (bidAround maxHeight) g
    match settleAll bids (List.range bids.vertices.size) with
    | (g', .error e) => (g', .error e)
    | (g', .ok next) =>
      match finishAll g' frontier with
      | (g'', .error e) => (g'', .error e)
      | (g'', .ok ()) =>
        let (g₃, r) := growFrom maxHeight rounds g'' next
        (g₃, r.map (next ++ ·))

/-- Grows a tree from a root and tells its members, the root first. Each round with a frontier
takes a vertex for good, so one round more than there are vertices is enough. A root named from
the end becomes a root and then is refused, since it has no neighbours under that name. -/
def grow (g : Graph) (root maxHeight : Int) : Graph × Except Fault (List Int) :=
  match g.vertexAt root with
  | .error e => (g, .error e)
  | .ok (r, x) =>
    match x.makeRoot with
    | .error e => (g, .error e)
    | .ok y =>
      let g' := g.setVertex r y
      if root < 0 then (g', .error (.told (.noNode root)))
      else
        let (g'', members) := growFrom maxHeight (g'.vertices.size + 1) g' [r]
        (g'', members.map fun ms => root :: ms.map Int.ofNat)

end FactorForest.Graph
