import FactorForest.Text.Quoted

set_option autoImplicit false

namespace FactorForest

inductive LineFault
  | noVariablesHeader
  | noFactorsHeader
  | emptyDeclaration
  | badArity (text name : String)
  | smallArity (name : String) (arity : Int)
  | declaredTwice (name : String)
  | noSeparator
  | unknownVariable (name : String)
  | repeatedVariable (name : String)
  | badWeight (text : String)
  | badValue (text : String)
  | missingValues (count needed found : Nat)
deriving DecidableEq, Repr

open Text in
def LineFault.message : LineFault → String
  | .noVariablesHeader => "expected 'variables:' header"
  | .noFactorsHeader => "reached end of file before 'factors:' header"
  | .emptyDeclaration => "empty line in variables section"
  | .badArity text name => "invalid arity " ++ quoted text ++ " for variable " ++ quoted name
  | .smallArity name arity => "arity of " ++ quoted name ++ s!" must be >= 1, got {arity}"
  | .declaredTwice name => "variable " ++ quoted name ++ " declared twice"
  | .noSeparator => "missing '//' separator in factor line"
  | .unknownVariable name => "unknown variable " ++ quoted name
  | .repeatedVariable name => "variable " ++ quoted name ++ " appears twice in one factor"
  | .badWeight text => "invalid factor weight " ++ quoted text
  | .badValue text => "invalid table value (could not convert string to float: " ++ quoted text ++ ")"
  | .missingValues count needed found =>
    s!"factor over {count} variables needs {needed} values, found {found}"

end FactorForest
