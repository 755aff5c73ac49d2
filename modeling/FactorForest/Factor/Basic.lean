import FactorForest.Assignment
import FactorForest.Number.Double

set_option autoImplicit false

namespace FactorForest

structure Factor where
  scope : Scope
  table : Array Double
  size_eq : table.size = scope.size
deriving DecidableEq

/-- A cell named by its linear index, which may be out of range, or by an assignment, which may
be over another scope. -/
inductive Cell
  | index (i : Int)
  | assignment (a : Assignment)

namespace Factor

def constant (s : Scope) (x : Double) : Factor := ⟨s, Array.replicate s.size x, by simp⟩

def zero (s : Scope) : Factor := constant s .zero

/-- No table has this many cells. -/
def cellLimit : Nat := 2 ^ 60

def checkRoom (s : Scope) : Except Fault Unit :=
  if s.size < cellLimit then .ok () else .error (.hugeTable s.size)

def blank (s : Scope) (x : Double) : Except Fault Factor := do
  checkRoom s
  pure (constant s x)

def ofTable (s : Scope) (t : Array Double) : Except Fault Factor :=
  if h : t.size = s.size then .ok ⟨s, t, h⟩
  else .error (.told (.tableSize s.vars s.size t.size))

def place (f : Factor) : Cell → Except Fault Nat
  | .index i =>
    if 0 ≤ i ∧ i < f.table.size then .ok i.toNat else .error (.told (.indexRange i f.table.size))
  | .assignment a =>
    if a.scope = f.scope then .ok a.index
    else .error (.told (.scopeMismatch a.scope.vars f.scope.vars))

def get (f : Factor) (c : Cell) : Except Fault Double := do
  let i ← f.place c
  pure (f.table.getD i .zero)

def set (f : Factor) (c : Cell) (x : Double) : Except Fault Factor := do
  let i ← f.place c
  pure ⟨f.scope, f.table.setIfInBounds i x, by rw [Array.size_setIfInBounds, f.size_eq]⟩

def fill (f : Factor) (x : Double) : Factor := constant f.scope x

def mapCells (f : Factor) (g : Double → Double) : Factor :=
  ⟨f.scope, f.table.map g, by rw [Array.size_map, f.size_eq]⟩

/-- Equal scopes and equal cells; cells that are not a number are equal to each other. -/
def agrees (f g : Factor) : Bool :=
  f.scope == g.scope && f.table.size == g.table.size &&
    (f.table.toList.zip g.table.toList).all fun p => p.1.cellEq p.2

def describe (f : Factor) : Except Fault String := do
  let scope ← f.scope.describe
  pure s!"TableFactor({scope}, size={f.table.size})"

end Factor
end FactorForest
