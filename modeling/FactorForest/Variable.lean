set_option autoImplicit false

namespace FactorForest

/-- A variable takes the values `0, …, arity - 1`. -/
structure Variable where
  id : Nat
  arity : Nat
  arity_pos : 0 < arity := by omega
deriving DecidableEq, Repr

namespace Variable

def le (v w : Variable) : Bool := v.id < w.id || (v.id == w.id && v.arity ≤ w.arity)

def label (v : Variable) : String := s!"v{v.id}:{v.arity}"

end Variable

def scopeLabel (vs : List Variable) : String :=
  "Domain(" ++ ", ".intercalate (vs.map Variable.label) ++ ")"

end FactorForest
