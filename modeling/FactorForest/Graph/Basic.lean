import FactorForest.Edge
import FactorForest.IdMap
import FactorForest.Vertex

set_option autoImplicit false

namespace FactorForest

structure Graph where
  vertices : Array Vertex := #[]
  links : IdMap (IdMap Edge) := {}
  /-- The colours computed last, by vertex; empty before the first time. -/
  colors : Array Nat := #[]
deriving DecidableEq

namespace Graph

instance : Inhabited Graph := ⟨{}⟩

def addVertex (g : Graph) (x : Vertex) : Graph := { g with vertices := g.vertices.push x }

def holds (g : Graph) (i : Int) : Bool := 0 ≤ i && i < g.vertices.size

def linksOf (g : Graph) (u : Nat) : IdMap Edge := (g.links.find? u).getD {}

def setLink (g : Graph) (u v : Nat) (e : Edge) : Graph :=
  { g with links := g.links.insert u ((g.linksOf u).insert v e) }

def addEdge (g : Graph) (u v : Int) (e : Edge) : Except Fault Graph :=
  if !(g.holds u && g.holds v) then .error (.told (.unknownEndpoint u v))
  else if u = v then .error (.selfEdge u)
  else .ok (g.setLink u.toNat v.toNat e)

def vertexAt (g : Graph) (i : Int) : Except Fault (Nat × Vertex) :=
  match resolveIndex g.vertices.size i .noEntryAt with
  | .error e => .error e
  | .ok n =>
    match g.vertices[n]? with
    | none => .error .noEntryAt
    | some x => .ok (n, x)

def setVertex (g : Graph) (n : Nat) (x : Vertex) : Graph :=
  { g with vertices := g.vertices.setIfInBounds n x }

def edge? (g : Graph) (u v : Int) : Option Edge :=
  if 0 ≤ u ∧ 0 ≤ v then (g.linksOf u.toNat).find? v.toNat else none

def edge (g : Graph) (u v : Int) : Except Fault Edge :=
  match g.edge? u v with
  | some e => .ok e
  | none => .error (.told (.noEdge u v))

def hasEdge (g : Graph) (u v : Int) : Bool := (g.edge? u v).isSome

def setEdge (g : Graph) (u v : Int) (f : Edge → Edge) : Except Fault Graph := do
  let e ← g.edge u v
  pure (g.setLink u.toNat v.toNat (f e))

def targets (g : Graph) (u : Nat) : List Nat := (g.linksOf u).keys

def sources (g : Graph) (v : Nat) : List Nat :=
  (g.links.entries.filter fun e => e.2.contains v).map (·.1)

def outNeighbours (g : Graph) (i : Int) : Except Fault (List Nat) :=
  if g.holds i then .ok (g.targets i.toNat) else .error (.told (.noNode i))

def inNeighbours (g : Graph) (i : Int) : Except Fault (List Nat) :=
  if g.holds i then .ok (g.sources i.toNat) else .error (.told (.noNode i))

def edges (g : Graph) : List (Nat × Nat × Edge) :=
  g.links.entries.flatMap fun p => p.2.entries.map fun q => (p.1, q.1, q.2)

def edgeCount (g : Graph) : Nat := g.edges.length

def clearTrees (g : Graph) : Graph :=
  { g with
    vertices := g.vertices.map Vertex.clear
    links := g.links.mapValues (·.mapValues fun e => { e with exploring := false }) }

def updateRange (g : Graph) : Int × Int :=
  match g.vertices.toList.map (·.updates) with
  | [] => (0, 0)
  | n :: ns => (ns.foldl min n, ns.foldl max n)

def edgesAgree (g h : Graph) : Bool :=
  g.edges.length == h.edges.length &&
    (g.edges.zip h.edges).all fun p =>
      p.1.1 == p.2.1 && p.1.2.1 == p.2.2.1 && p.1.2.2.agrees p.2.2.2

def describe (g : Graph) : String :=
  s!"PairwiseGraph(vertices={g.vertices.size}, edges={g.edgeCount})"

end Graph
end FactorForest
