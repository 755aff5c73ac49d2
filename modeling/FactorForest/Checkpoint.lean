import FactorForest.Archive.Reader
import FactorForest.Graph.Coloring
import FactorForest.Model.Basic

/-!
Checkpoints: an archive of a model and its graph, taken between rounds. Bids are not stored one by
one and neither are the reports of children; a candidate that is loaded has its tentative parent
as its only suitor. The colouring is computed anew.
-/

set_option autoImplicit false

namespace FactorForest.Checkpoint

open Archive (Written Reader)

def writeWeight : Option Double → Written
  | none => Archive.bool false
  | some w => Archive.bool true ++ Archive.f64 w

def writeIndexEntry (e : Nat × List Nat) : Written :=
  Archive.u64 e.1 ++ Archive.u64List (e.2.map Int.ofNat)

def writeModel (m : Model) : Written :=
  Archive.list Archive.variableField m.vars.values ++
    Archive.list Archive.factor m.factors.toList ++
    Archive.list writeIndexEntry m.index.entries ++
    Archive.strList m.names ++
    Archive.list writeWeight m.weights.toList

def writeVertex (x : Vertex) : Written :=
  Archive.variableField x.self ++ Archive.assignment x.sample ++ Archive.u64List x.factorIds ++
    Archive.factor x.belief ++ Archive.factor x.scratch ++ Archive.u64 x.updates ++
    Archive.i64 x.tree.parentNumber ++ Archive.u32 x.phase.number ++ Archive.u64 x.tree.height ++
    Archive.u64 x.bids.count

def writeEdge (e : Edge) : Written :=
  match e.message, e.pairFactor with
  | some message, some pairFactor =>
    Archive.f64 e.weight ++ Archive.factor message ++ Archive.factor pairFactor ++
      Archive.bool e.exploring
  | _, _ => .refused .bareEdge

def writeLink (l : Nat × Nat × Edge) : Written :=
  Archive.u64 l.1 ++ Archive.u64 l.2.1 ++ writeEdge l.2.2

def writeGraph (g : Graph) : Written :=
  Archive.list writeVertex g.vertices.toList ++ Archive.list writeLink g.edges

def save (m : Model) (g : Graph) : Written := Archive.header ++ writeModel m ++ writeGraph g

def readWeight : Reader (Option Double) := do
  if ← Reader.bool then
    let w ← Reader.f64
    pure (some w)
  else pure none

def readIndexEntry : Reader (Nat × List Nat) := do
  let id ← Reader.u64
  let ids ← Reader.u64List
  pure (id, ids)

def readModel : Reader Model := do
  let vars ← Reader.list Reader.variableField
  let factors ← Reader.list Reader.factor
  let index ← Reader.list readIndexEntry
  let names ← Reader.strList
  let weights ← Reader.list readWeight
  if weights.length ≠ factors.length then
    throw (.weightCount weights.length factors.length)
  Reader.checked (Model.ofParts vars factors
    (index.map fun e => ((e.1 : Int), e.2.map Int.ofNat)) names (some weights))

/-- A vertex of stored parts, refused if it has no factors or no room for a table. -/
def assemble (v : Variable) (sample : Assignment) (ids : List Nat) (belief scratch : Factor)
    (updates : Nat) (parent : Int) (phase height bids : Nat) : Except Fault Vertex :=
  if ids = [] then .error (.told (.noFactors v.id))
  else do
    Factor.checkRoom (Scope.single v)
    let tree ← TreeState.ofFields phase parent height 0
    pure {
      self := v, sample, factorIds := ids.map Int.ofNat, belief, scratch, updates, tree
      bids := ⟨bids⟩ }

def readVertex : Reader Vertex := do
  let v ← Reader.variableField
  let sample ← Reader.assignment
  let ids ← Reader.u64List
  let belief ← Reader.factor
  let scratch ← Reader.factor
  let updates ← Reader.u64
  let parent ← Reader.i64
  let phase ← Reader.u32
  let height ← Reader.u64
  let bids ← Reader.u64
  Reader.checked (assemble v sample ids belief scratch updates parent phase height bids)

def readEdge : Reader Edge := do
  let weight ← Reader.f64
  let message ← Reader.factor
  let pairFactor ← Reader.factor
  let exploring ← Reader.bool
  pure { weight, message := some message, pairFactor := some pairFactor, exploring }

def readVertices (g : Graph) : Nat → Reader Graph
  | 0 => pure g
  | n + 1 => do
    let x ← readVertex
    if x.self.id ≠ g.vertices.size then throw (.strayVertex g.vertices.size x.self.id)
    readVertices (g.addVertex x) n

/-- Gives the candidates among the listed vertices their tentative parents as suitors, at the
height that the parent has. -/
def restoreSuitors (g : Graph) : List Nat → Except Fault Graph
  | [] => .ok g
  | n :: ns =>
    match g.vertices[n]? with
    | none => restoreSuitors g ns
    | some x =>
      match x.tree with
      | .candidate p =>
        match if 0 ≤ p then g.vertices[p.toNat]? else none with
        | none => .error (.unknownParent n p)
        | some parent => do
          let y ← x.restoreSuitor p parent.tree.height
          restoreSuitors (g.setVertex n y) ns
      | _ => restoreSuitors g ns

def readLinks (g : Graph) : Nat → Reader Graph
  | 0 => pure g
  | n + 1 => do
    let source ← Reader.u64
    let target ← Reader.u64
    let e ← readEdge
    let g' ← Reader.checked (g.addEdge source target e)
    readLinks g' n

def readGraph : Reader Graph := do
  let count ← Reader.listLength
  let g ← readVertices {} count
  let g ← liftExcept (restoreSuitors g (List.range g.vertices.size))
  let links ← Reader.listLength
  let g ← readLinks g links
  pure g.recolor
where
  liftExcept {α : Type} : Except Fault α → Reader α
    | .ok a => pure a
    | .error e => throw e

def readAll : Reader (Model × Graph) := do
  let _ ← Reader.header
  let m ← readModel
  let g ← readGraph
  if (← get) ≠ [] then throw .trailing
  if g.vertices.toList.map (·.self) ≠ m.vars.values then throw .verticesDisagree
  pure (m, g)

def load (bytes : List UInt8) : Except Fault (Model × Graph) :=
  (readAll.start Archive.fileCountBound bytes).1

end FactorForest.Checkpoint
