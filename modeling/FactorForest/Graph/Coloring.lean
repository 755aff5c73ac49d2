import FactorForest.Graph.Basic

set_option autoImplicit false

namespace FactorForest

def leastFree (used : List Nat) : Nat :=
  ((List.range (used.length + 1)).find? fun c => !used.contains c).getD 0

/-- Insertion into a list of descending keys, before those of the same key. -/
def insertByKey (key : Nat → Nat) (u : Nat) : List Nat → List Nat
  | [] => [u]
  | v :: vs => if key v ≤ key u then u :: v :: vs else v :: insertByKey key u vs

def byKey (key : Nat → Nat) (n : Nat) : List Nat := (List.range n).foldr (insertByKey key) []

def paint (adjacent : Nat → List Nat) (order : List Nat) (colors : IdMap Nat) : IdMap Nat :=
  order.foldl (fun c u => c.insert u (leastFree ((adjacent u).filterMap c.find?))) colors

namespace Graph

def neighbourhoods (g : Graph) : Array (List Nat) :=
  let n := g.vertices.size
  let out := Array.ofFn fun u : Fin n => g.targets u
  Array.ofFn fun u : Fin n =>
    (List.range n).filter fun v => (out.getD u []).contains v || (out.getD v []).contains u.val

def greedyColors (g : Graph) : Array Nat :=
  let near := g.neighbourhoods
  let adjacent (u : Nat) : List Nat := near.getD u []
  let colors := paint adjacent (byKey (fun u => (adjacent u).length) g.vertices.size) {}
  Array.ofFn fun u : Fin g.vertices.size => (colors.find? u).getD 0

def recolor (g : Graph) : Graph := { g with colors := g.greedyColors }

def colored (g : Graph) : Graph := if g.colors.isEmpty then g.recolor else g

/-- The colour of a vertex in the colouring computed last. A vertex added since then has none. -/
def colorOf (g : Graph) (i : Int) : Except Fault Nat :=
  match if 0 ≤ i then g.colors[i.toNat]? else none with
  | some c => .ok c
  | none => .error (.bareKey i)

end Graph
end FactorForest
