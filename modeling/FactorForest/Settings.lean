import FactorForest.Fault
import FactorForest.Number.Double

set_option autoImplicit false

namespace FactorForest

structure Settings where
  defaultArity : Int := 2
  /-- The first value of every belief cell. -/
  beliefInit : Double := .lowest
  precision : Int := 16
  seed : Option Int := none
  logLevel : Option String := some "WARNING"
deriving DecidableEq

namespace Settings

def positive (name : String) (value : Option Int) : Except Fault Int :=
  match value with
  | none => .error (.noNumber name)
  | some n => if n < 1 then .error (.told (.smallSetting name n)) else .ok n

/-- Settings, changed where an arity or a precision is given. What is given need not be a number;
the settings are refused then, as they are where it is out of range. -/
def override (s : Settings) (arity precision : Option (Option Int)) : Except Fault Settings := do
  let arity ← positive "default_arity" (arity.getD (some s.defaultArity))
  let precision ← positive "report_precision" (precision.getD (some s.precision))
  pure { s with defaultArity := arity, precision := precision }

end Settings
end FactorForest
