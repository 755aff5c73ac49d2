import FactorForest.Fault

set_option autoImplicit false

namespace FactorForest

structure Tally where
  count : Int := 0
deriving DecidableEq, Repr

namespace Tally

def raise (t : Tally) (n : Int) : Tally := ⟨t.count + n⟩

def lower (t : Tally) (n : Int) : Tally := ⟨t.count - n⟩

def describe (t : Tally) : Except Fault String :=
  Fault.writeOut [t.count] s!"AtomicCounter({t.count})"

end Tally
end FactorForest
