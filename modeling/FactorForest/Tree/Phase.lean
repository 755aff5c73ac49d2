set_option autoImplicit false

namespace FactorForest

inductive Phase
  | available
  | candidate
  | boundary
  | treeNode
  | calibrated
deriving DecidableEq, Repr

def Phase.number : Phase → Nat
  | .available => 0
  | .candidate => 1
  | .boundary => 2
  | .treeNode => 3
  | .calibrated => 4

def Phase.name : Phase → String
  | .available => "AVAILABLE"
  | .candidate => "CANDIDATE"
  | .boundary => "BOUNDARY"
  | .treeNode => "TREE_NODE"
  | .calibrated => "CALIBRATED"

def Phase.all : List Phase := [.available, .candidate, .boundary, .treeNode, .calibrated]

def Phase.ofNumber? (n : Int) : Option Phase := Phase.all.find? fun p => (p.number : Int) == n

end FactorForest
