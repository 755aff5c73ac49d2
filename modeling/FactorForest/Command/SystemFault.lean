set_option autoImplicit false

namespace FactorForest

inductive SystemFault
  | notFound
  | exists
  | notFolder
  | isFolder
  | noSpace
  | nameTooLong
deriving DecidableEq, Repr

def SystemFault.number : SystemFault → Nat
  | .notFound => 2
  | .exists => 17
  | .notFolder => 20
  | .isFolder => 21
  | .noSpace => 28
  | .nameTooLong => 36

def SystemFault.reason : SystemFault → String
  | .notFound => "No such file or directory"
  | .exists => "File exists"
  | .notFolder => "Not a directory"
  | .isFolder => "Is a directory"
  | .noSpace => "No space left on device"
  | .nameTooLong => "File name too long"

/-- Whether a path is to blame. An open file that cannot be filled is refused without its path. -/
def SystemFault.blamesPath (f : SystemFault) : Bool := f ≠ .noSpace

end FactorForest
