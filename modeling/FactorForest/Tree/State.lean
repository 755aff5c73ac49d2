import FactorForest.Fault

set_option autoImplicit false

namespace FactorForest

inductive TreeState
  | available
  | candidate (parent : Int)
  | boundary (parent : Option Int) (height : Int)
  /-- Inside a tree; `markedUp` children have reported. -/
  | treeNode (parent : Option Int) (height : Int) (markedUp : Int)
  | calibrated (parent : Option Int) (height : Int)
deriving DecidableEq, Repr

namespace TreeState

def noParent : Int := -1

def phase : TreeState → Phase
  | .available => .available
  | .candidate _ => .candidate
  | .boundary .. => .boundary
  | .treeNode .. => .treeNode
  | .calibrated .. => .calibrated

def parent : TreeState → Option Int
  | .available => none
  | .candidate p => some p
  | .boundary p _ | .treeNode p _ _ | .calibrated p _ => p

def height? : TreeState → Option Int
  | .available | .candidate _ => none
  | .boundary _ h | .treeNode _ h _ | .calibrated _ h => some h

def height (t : TreeState) : Int := t.height?.getD 0

def markedUp? : TreeState → Option Int
  | .treeNode _ _ n => some n
  | _ => none

def markedUp (t : TreeState) : Int := t.markedUp?.getD 0

def parentNumber (t : TreeState) : Int := t.parent.getD noParent

/-- The state of a flat record: phase number, parent number, height, children that reported. -/
def ofFields (number parent height markedUp : Int) : Except Fault TreeState :=
  let p := if parent = noParent then none else some parent
  match Phase.ofNumber? number with
  | none => .error (.told (.unknownPhase number))
  | some .available => .ok .available
  | some .candidate =>
    match p with
    | none => .error .parentless
    | some q => .ok (.candidate q)
  | some .boundary => .ok (.boundary p height)
  | some .treeNode => .ok (.treeNode p height markedUp)
  | some .calibrated => .ok (.calibrated p height)

def shape : TreeState → String
  | .available => "Available"
  | .candidate _ => "Candidate"
  | .boundary .. => "Boundary"
  | .treeNode .. => "TreeNode"
  | .calibrated .. => "Calibrated"

end TreeState
end FactorForest
