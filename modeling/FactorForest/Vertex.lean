import FactorForest.Factor.Basic
import FactorForest.Tally
import FactorForest.Tree.State

/-!
Vertices: the sample, beliefs and tree-growth state of one variable. Frontier vertices bid for an
available vertex; when all bids of a round are in, it settles on the bidder of the lowest id. A
transition that is refused gives no new vertex, so nothing changes.
-/

set_option autoImplicit false

namespace FactorForest

structure Vertex where
  self : Variable
  sample : Assignment
  factorIds : List Int
  /-- The running estimate of the marginal, as logarithms. -/
  belief : Factor
  /-- The belief of messages inside a tree. -/
  scratch : Factor
  updates : Int := 0
  tree : TreeState := .available
  bids : Tally := {}
  /-- The bids of this round in order: the bidder and its height. -/
  suitors : List (Int × Int) := []
deriving DecidableEq

namespace Vertex

def fresh (v : Variable) (factorIds : List Int) (sample : Assignment) (init : Double) : Vertex :=
  let belief := Factor.constant (Scope.single v) init
  { self := v, sample, factorIds, belief, scratch := belief }

/-- The first sample of a variable: the given one, or else the `k`-th draw. A variable without
factors is refused. -/
def firstSample (v : Variable) (factorIds : List Int) (sample : Option Assignment)
    (draws : Draws) (k : Nat) : Except Fault Assignment :=
  if factorIds = [] then .error (.told (.noFactors v.id))
  else
    match sample with
    | some a => .ok a
    | none => Assignment.sample (Scope.single v) draws k

def create (v : Variable) (factorIds : List Int) (sample : Option Assignment) (init : Double)
    (draws : Draws) (k : Nat) : Except Fault Vertex := do
  let a ← firstSample v factorIds sample draws k
  Factor.checkRoom (Scope.single v)
  pure (fresh v factorIds a init)

def phase (x : Vertex) : Phase := x.tree.phase

def require (x : Vertex) (p : Phase) : Except Fault Unit :=
  if x.phase = p then .ok () else .error (.told (.wrongPhase x.self.id x.phase p))

def recordUpdate (x : Vertex) : Vertex := { x with updates := x.updates + 1 }

def makeRoot (x : Vertex) : Except Fault Vertex := do
  x.require .available
  pure { x with tree := .boundary none 0 }

def noteBid (x : Vertex) (bidder height parent : Int) : Vertex :=
  { x with
    tree := .candidate parent
    bids := x.bids.raise 1
    suitors := x.suitors ++ [(bidder, height)] }

def propose (x : Vertex) (bidder height : Int) : Option Vertex :=
  match x.tree with
  | .available => some (x.noteBid bidder height bidder)
  | .candidate p => some (x.noteBid bidder height (if bidder < p then bidder else p))
  | _ => none

/-- Gives a candidate that was read from an archive its tentative parent back as a suitor. The
number of bids is restored on its own. -/
def restoreSuitor (x : Vertex) (bidder height : Int) : Except Fault Vertex :=
  match x.tree with
  | .candidate p =>
    if bidder = p then .ok { x with suitors := x.suitors ++ [(bidder, height)] }
    else .error (.told (.strangeSuitor x.self.id bidder p))
  | t => .error (.told (.wrongPhase x.self.id t.phase .candidate))

def lesserBid (a b : Int × Int) : Int × Int :=
  if b.1 < a.1 ∨ (b.1 = a.1 ∧ b.2 < a.2) then b else a

def insertOnce (n : Int) : List Int → List Int
  | [] => [n]
  | m :: ms => if n < m then n :: m :: ms else if n = m then m :: ms else m :: insertOnce n ms

def losers (parent : Int) (bids : List (Int × Int)) : List Int :=
  (bids.filter fun b => b.1 ≠ parent).foldr (fun b ls => insertOnce b.1 ls) []

def cleared (x : Vertex) (t : TreeState) : Vertex := { x with tree := t, bids := {}, suitors := [] }

/-- A candidate joins the tree of its least bid. With it come the accepted parent and the rejected
bidders. -/
def settle (x : Vertex) : Except Fault (Vertex × Int × List Int) := do
  x.require .candidate
  match x.suitors with
  | [] => throw (.told (.noSuitors x.self.id))
  | b :: bs =>
    let best := bs.foldl lesserBid b
    pure (x.cleared (.boundary (some best.1) (best.2 + 1)), best.1, losers best.1 (b :: bs))

def reject (x : Vertex) : Except Fault Vertex := do
  x.require .candidate
  pure (x.cleared .available)

def finish (x : Vertex) : Except Fault Vertex :=
  match x.tree with
  | .boundary p h => .ok { x with tree := .treeNode p h 0 }
  | t => .error (.told (.wrongPhase x.self.id t.phase .boundary))

def markUp (x : Vertex) : Except Fault (Vertex × Int) :=
  match x.tree with
  | .treeNode p h n => .ok ({ x with tree := .treeNode p h (n + 1) }, n + 1)
  | t => .error (.told (.wrongPhase x.self.id t.phase .treeNode))

def calibrate (x : Vertex) (children : Int) : Except Fault Vertex :=
  match x.tree with
  | .treeNode p h n =>
    if n = children then .ok { x with tree := .calibrated p h }
    else .error (.told (.unreported x.self.id n children))
  | t => .error (.told (.wrongPhase x.self.id t.phase .treeNode))

def clear (x : Vertex) : Vertex := x.cleared .available

/-- Equality in all that an archive stores. Reports of children and suitors are not. -/
def agrees (x y : Vertex) : Bool :=
  x.self == y.self && x.sample == y.sample && x.factorIds == y.factorIds &&
    x.belief.agrees y.belief && x.scratch.agrees y.scratch && x.updates == y.updates &&
    x.phase == y.phase && x.tree.parent == y.tree.parent && x.tree.height == y.tree.height &&
    x.bids == y.bids

def describe (x : Vertex) : Except Fault String :=
  Fault.writeOut [(x.self.id : Int), x.tree.parentNumber, x.updates]
    (s!"VertexData(var={x.self.id}, state={x.phase.name}, parent={x.tree.parentNumber}, " ++
      s!"updates={x.updates})")

end Vertex
end FactorForest
