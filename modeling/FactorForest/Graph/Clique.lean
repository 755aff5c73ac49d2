import FactorForest.Graph.Coloring
import FactorForest.Model.Basic

/-!
The clique graph of a model: a vertex for every variable, and between any two variables that share
a factor an edge each way.
-/

set_option autoImplicit false

namespace FactorForest

namespace Model

def partners (m : Model) (id : Nat) (factorIds : List Nat) : IdMap Variable :=
  factorIds.foldl (fun found fid =>
    match m.factors[fid]? with
    | none => found
    | some f => (f.scope.vars.filter (·.id ≠ id)).foldl (fun d v => d.insert v.id v) found) {}

def idsOf (m : Model) (id : Nat) : List Nat := (m.index.find? id).getD []

end Model

namespace Graph

/-- Adds a vertex for each listed variable, its sample drawn under the number of the vertex. The
place of a vertex must be the id of its variable. There is room for its tables, since a table of
the model holds the variable. -/
def addVariables (m : Model) (init : Double) (draws : Draws) (g : Graph) :
    List Variable → Except Fault Graph
  | [] => .ok g
  | v :: vs => do
    let ids ← m.factorIds v.id
    let a ← Vertex.firstSample v (ids.map Int.ofNat) none draws g.vertices.size
    if g.vertices.size ≠ v.id then throw (.told (.idMismatch g.vertices.size v.id))
    addVariables m init draws (g.addVertex (Vertex.fresh v (ids.map Int.ofNat) a init)) vs

def addPartners (g : Graph) (source : Variable) : List Variable → Except Fault Graph
  | [] => .ok g
  | v :: vs => do
    let e ← Edge.joining source v
    let g' ← g.addEdge source.id v.id e
    addPartners g' source vs

def addCliques (m : Model) (g : Graph) : List Variable → Except Fault Graph
  | [] => .ok g
  | v :: vs => do
    let g' ← addPartners g v (m.partners v.id (m.idsOf v.id)).values
    addCliques m g' vs

def ofModel (m : Model) (init : Double) (draws : Draws) : Except Fault Graph := do
  m.validate
  let g ← addVariables m init draws {} m.vars.values
  let g ← addCliques m g m.vars.values
  pure g.recolor

end Graph
end FactorForest
