import FactorForest.Factor.Normal
import FactorForest.Graph.Coloring
import FactorForest.Number.Decimal

set_option autoImplicit false

namespace FactorForest

structure Report where
  text : String := ""
  fault : Option Fault := none
deriving DecidableEq

namespace Report

/-- A report of one line per entry, ended by the first line that fails. -/
def ofLines {α : Type} (line : α → Except Fault String) : List α → Report
  | [] => {}
  | a :: as =>
    match line a with
    | .error e => ⟨"", some e⟩
    | .ok s =>
      let rest := ofLines line as
      ⟨s ++ "\n" ++ rest.text, rest.fault⟩

def maxPrecision : Int := 2 ^ 31 - 1

def cell (precision : Int) (x : Double) : Except Fault String :=
  if precision < 0 then .error .noPrecision
  else if 2 ^ 63 ≤ precision then .error .endlessPrecision
  else if maxPrecision < precision then .error .hugePrecision
  else .ok (x.general precision.toNat)

def beliefLine (precision : Int) (x : Vertex) : Except Fault String := do
  let ps ← x.belief.probabilities
  let updates ← Fault.writeOut [x.updates] s!"{x.updates}"
  let cells ← ps.mapM (cell precision)
  pure ("\t".intercalate (updates :: cells))

def beliefs (g : Graph) (precision : Int) : Report :=
  ofLines (beliefLine precision) g.vertices.toList

def sampleLine (p : Vertex × Nat) : Except Fault String := do
  let value ← p.1.sample.get p.2
  Fault.writeOut [(value : Int)] s!"{value}"

def samples (g : Graph) : Report := ofLines sampleLine g.vertices.toList.zipIdx

def colors (g : Graph) : Report :=
  ofLines (fun n : Nat => return s!"{← g.colorOf n}") (List.range g.vertices.size)

def treeLine (p : Vertex × Nat) : Except Fault String :=
  Fault.writeOut [p.1.tree.parentNumber] s!"{p.2}\t{p.1.phase.number}\t{p.1.tree.parentNumber}"

def treeStates (g : Graph) : Report := ofLines treeLine g.vertices.toList.zipIdx

end Report
end FactorForest
