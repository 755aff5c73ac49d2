import FactorForest.Number.Power

set_option autoImplicit false

namespace FactorForest

/-- The answer to the `k`-th draw for an arity. -/
abbrev Draws := Nat → Nat → Int

namespace Draws

def ofList (xs : List Int) : Draws := fun k _ => xs.getD k 0

def mix (x : UInt64) : UInt64 :=
  let x := (x ^^^ (x >>> 30)) * 0xBF58476D1CE4E5B9
  let x := (x ^^^ (x >>> 27)) * 0x94D049BB133111EB
  x ^^^ (x >>> 31)

def ofSeed (seed : Int) : Draws := fun k arity =>
  let start := UInt64.ofNat (seed % 2 ^ 64).toNat
  (mix (start + UInt64.ofNat (k + 1) * 0x9E3779B97F4A7C15)).toNat % arity

end Draws
end FactorForest
