import FactorForest.Factor.Basic

set_option autoImplicit false

namespace FactorForest

structure Edge where
  weight : Double := .zero
  /-- A table over the target. -/
  message : Option Factor := none
  pairFactor : Option Factor := none
  exploring : Bool := false
deriving DecidableEq

namespace Edge

instance : Inhabited Edge := ⟨{}⟩

def joining (source target : Variable) : Except Fault Edge := do
  let ends ← (Scope.single source).union (Scope.single target)
  pure { message := some (Factor.zero (Scope.single target)), pairFactor := some (Factor.zero ends) }

def between (source target : Variable) : Except Fault Edge := do
  let message ← Factor.blank (Scope.single target) .zero
  let ends ← (Scope.single source).union (Scope.single target)
  let pairFactor ← Factor.blank ends .zero
  pure { message := some message, pairFactor := some pairFactor }

def tablesAgree : Option Factor → Option Factor → Bool
  | some f, some g => f.agrees g
  | none, none => true
  | _, _ => false

def agrees (a b : Edge) : Bool :=
  a.weight.numEq b.weight && tablesAgree a.message b.message &&
    tablesAgree a.pairFactor b.pairFactor && a.exploring == b.exploring

end Edge
end FactorForest
