import FactorForest.Archive.Tag
import FactorForest.Command.SystemFault
import FactorForest.Model.LineFault
import FactorForest.Number.Power
import FactorForest.Text.Quoted
import FactorForest.Text.Utf8
import FactorForest.Tree.Phase
import FactorForest.Variable

/-!
Everything that can go wrong. An operation fails with a cause; the class of a cause and its
wording are functions of it.
-/

set_option autoImplicit false

namespace FactorForest

inductive Fault.Kind
  | value
  | key
  | index
  | transition
  | modelText (line : Nat)
  | archive
  | overflow
  | encoding
  | node
  | system
  | type
  | operation
deriving DecidableEq, Repr

inductive Fault
  | negativeId (id : Int)
  | emptyArity (id arity : Int)
  | duplicateId (id : Nat)
  | absentVariable (id : Int) (scope : List Variable)
  | arityClash (id left right : Nat)
  | valueCount (values count : Nat)
  | valueRange (value : Int) (id arity : Nat)
  | indexRange (index : Int) (size : Nat)
  | noVariableAt
  | noEntryAt
  | hugeIndex
  | hugeNumber
  | hugeTable (cells : Nat)
  | tableSize (scope : List Variable) (needed found : Nat)
  | scopeMismatch (given expected : List Variable)
  | zeroMass (scope : List Variable)
  | registeredArity (id known factor arity : Nat)
  | unregistered (id : Int)
  | unnamed (id : Int)
  | bareKey (id : Int)
  | sparseIds (last : Int) (missing : Nat)
  | variablesDisagree
  | indexDisagrees
  | line (number : Nat) (cause : LineFault)
  | unknownPhase (number : Int)
  | parentless
  | noFactors (id : Nat)
  | wrongPhase (id : Nat) (found : Phase) (expected : Phase)
  | strangeSuitor (id : Nat) (suitor parent : Int)
  | noSuitors (id : Nat)
  | unreported (id : Nat) (reported children : Int)
  | unknownEndpoint (source target : Int)
  | selfEdge (vertex : Int)
  | noEdge (source target : Int)
  | noNode (vertex : Int)
  | idMismatch (vertex id : Nat)
  | bareEdge
  | noPrecision
  | hugePrecision
  | endlessPrecision
  | smallSetting (name : String) (value : Int)
  | noNumber (name : String)
  | integerRange
  | byteCountRange
  | truncated (wanted found : Nat)
  | badMagic
  | version (number : Nat)
  | wrongTag (expected : Tag) (found : Nat)
  | badBool (byte : UInt8)
  | badText (cause : Text.Utf8.Fault)
  | weightCount (weights factors : Nat)
  | strayVertex (vertex id : Nat)
  | unknownParent (vertex : Nat) (parent : Int)
  | trailing
  | verticesDisagree
  | refused (cause : Fault)
  | undecodable (cause : Text.Utf8.Fault)
  | system (cause : SystemFault) (path : String)
  | noSource
  | noPath
  | nulInPath
  | noLevel (text : String)
  | strangeLevel
  | namelessLevel
deriving DecidableEq, Repr

namespace Fault

def kind : Fault → Kind
  | .absentVariable .. | .unregistered .. | .unnamed .. | .bareKey .. | .unknownEndpoint ..
  | .noEdge .. => .key
  | .noVariableAt | .noEntryAt | .hugeIndex => .index
  | .wrongPhase .. | .noSuitors .. | .unreported .. => .transition
  | .line n _ => .modelText n
  | .truncated .. | .badMagic | .version .. | .wrongTag .. | .badBool .. | .badText ..
  | .weightCount .. | .strayVertex .. | .unknownParent .. | .trailing | .verticesDisagree
  | .refused .. => .archive
  | .integerRange | .byteCountRange => .overflow
  | .undecodable .. => .encoding
  | .noNode .. => .node
  | .system .. => .system
  | .noNumber .. | .noPath | .strangeLevel => .type
  | .namelessLevel => .operation
  | .negativeId .. | .emptyArity .. | .duplicateId .. | .arityClash .. | .valueCount ..
  | .valueRange .. | .indexRange .. | .hugeTable ..
  | .tableSize .. | .scopeMismatch .. | .zeroMass ..
  | .registeredArity .. | .sparseIds .. | .variablesDisagree | .indexDisagrees
  | .unknownPhase .. | .parentless | .noFactors .. | .strangeSuitor .. | .selfEdge ..
  | .idMismatch .. | .bareEdge | .noPrecision | .hugePrecision | .endlessPrecision
  | .smallSetting .. | .noSource | .nulInPath | .hugeNumber | .noLevel .. => .value

def isValueFault (f : Fault) : Bool :=
  match f.kind with
  | .value | .modelText _ | .archive | .encoding => true
  | _ => false

/-- Numbers of more digits are never written out. -/
-- irreducible, so that no power of it is computed where two faults are compared
@[irreducible]
def writtenDigits : Nat := 4300

def writable (n : Int) : Bool := n.natAbs < 10 ^ writtenDigits

def scopeNumbers (vs : List Variable) : List Int :=
  vs.flatMap fun v => [(v.id : Int), (v.arity : Int)]

/-- The numbers of a message that nothing bounds. Left out are counts and places of what is held,
line numbers, and the fields of an archive. -/
def numbers : Fault → List Int
  | .negativeId id | .unregistered id | .unnamed id => [id]
  | .duplicateId id | .noFactors id | .noSuitors id | .wrongPhase id _ _ | .idMismatch _ id => [id]
  | .emptyArity id arity => [id, arity]
  | .absentVariable id scope => id :: scopeNumbers scope
  | .arityClash id left right => [id, left, right]
  | .valueRange value id arity => [value, id, arity]
  | .indexRange index size => [index, size]
  | .tableSize scope needed _ => scopeNumbers scope ++ [(needed : Int)]
  | .scopeMismatch given expected => scopeNumbers given ++ scopeNumbers expected
  | .zeroMass scope => scopeNumbers scope
  | .registeredArity id known _ arity => [id, known, arity]
  | .line _ (.missingValues _ needed _) => [needed]
  | .unknownPhase n | .noNode n | .smallSetting _ n => [n]
  | .strangeSuitor id suitor parent => [id, suitor, parent]
  | .unreported id reported children => [id, reported, children]
  | .unknownEndpoint source target | .noEdge source target => [source, target]
  | _ => []

/-- The fault that comes of a cause: the cause, if the numbers in its message can be written out,
and the failure to write them if not. -/
def told (f : Fault) : Fault := if f.numbers.all writable then f else .hugeNumber

def writeOut (numbers : List Int) (text : String) : Except Fault String :=
  if numbers.all writable then .ok text else .error .hugeNumber

open Text in
def message : Fault → String
  | .negativeId id => s!"Variable id must be non-negative, got {id}"
  | .emptyArity id arity => s!"Variable {id}: arity must be >= 1, got {arity}"
  | .duplicateId id => s!"Domain has duplicate variable id {id}"
  | .absentVariable id scope => s!"Variable {id} not in domain {scopeLabel scope}"
  | .arityClash id left right =>
    s!"Variable {id} has arity {left} in one domain and {right} in the other"
  | .valueCount values count => s!"Assignment has {values} values but domain has {count} variables"
  | .valueRange value id arity =>
    s!"Value {value} out of range for variable {id} with arity {arity}"
  | .indexRange index size => s!"Linear index {index} out of range [0, {size})"
  | .noVariableAt => "tuple index out of range"
  | .noEntryAt => "list index out of range"
  | .hugeIndex => "cannot fit 'int' into an index-sized integer"
  | .hugeNumber =>
    s!"Exceeds the limit ({writtenDigits} digits) for integer string conversion; " ++
      "use sys.set_int_max_str_digits() to increase the limit"
  | .hugeTable cells =>
    if 2 ^ 63 ≤ cells then "Maximum allowed dimension exceeded"
    else "array is too big; `arr.size * arr.dtype.itemsize` is larger than the maximum possible size."
  | .tableSize scope needed found =>
    s!"Factor over {scopeLabel scope} needs {needed} values, got {found}"
  | .scopeMismatch given expected =>
    s!"Assignment over {scopeLabel given} does not match factor over {scopeLabel expected}"
  | .zeroMass scope => s!"Cannot normalize factor over {scopeLabel scope}: zero total mass"
  | .registeredArity id known factor arity =>
    s!"Variable {id} registered with arity {known}, factor {factor} uses arity {arity}"
  | .unregistered id => s!"Variable {id} is not registered in the model"
  | .unnamed id => s!"No name recorded for variable {id}"
  | .bareKey id => s!"{id}"
  | .sparseIds last missing => s!"Variable ids must be dense 0..{last}: missing id {missing}"
  | .variablesDisagree => "Stored variable set does not match factor domains"
  | .indexDisagrees => "Stored reverse index does not match factor domains"
  | .line n cause => s!"line {n}: " ++ cause.message
  | .unknownPhase n => s!"Unknown vertex state enumerant {n}"
  | .parentless => "CANDIDATE vertex must carry a parent proposal"
  | .noFactors id => s!"Variable {id} has no factors"
  | .wrongPhase id found expected => s!"Vertex {id} is {found.name}, expected {expected.name}"
  | .strangeSuitor id suitor parent =>
    s!"Vertex {id}: suitor {suitor} is not the proposed parent {parent}"
  | .noSuitors id => s!"Vertex {id} has no recorded suitors"
  | .unreported id reported children =>
    s!"Vertex {id}: {reported} of {children} children reported"
  | .unknownEndpoint source target => s!"Edge ({source}, {target}) references an unknown vertex"
  | .selfEdge v => s!"Self edge on vertex {v}"
  | .noEdge source target => s!"No edge ({source}, {target})"
  | .noNode v => s!"The node {v} is not in the digraph."
  | .idMismatch v id => s!"Vertex id {v} does not match variable id {id}"
  | .bareEdge => "edge record has no message or edge factor table"
  | .noPrecision => "Format specifier missing precision"
  | .hugePrecision => "precision too big"
  | .endlessPrecision => "Too many decimal digits in format string"
  | .smallSetting name value => s!"{name} must be >= 1, got {value}"
  | .noNumber name => s!"{name} must be a number"
  | .integerRange | .byteCountRange => "integer out of range"
  | .truncated wanted found => s!"truncated archive: wanted {wanted} bytes, got {found}"
  | .badMagic => "not a pgibbs archive (bad magic)"
  | .version n => s!"unsupported archive version {n}"
  | .wrongTag expected found => s!"expected {expected.name} field, found {Tag.describe found}"
  | .badBool b => "invalid bool byte " ++ quotedBytes [b]
  | .badText cause => "invalid string field: " ++ cause.message
  | .weightCount weights factors => s!"{weights} weights stored for {factors} factors"
  | .strayVertex v id => s!"vertex {v} stores variable {id}"
  | .unknownParent v parent => s!"vertex {v} proposed to unknown parent {parent}"
  | .trailing => "trailing bytes after graph section"
  | .verticesDisagree => "graph vertices do not match model variables"
  | .refused cause => if cause.kind = .key then quoted cause.message else cause.message
  | .undecodable cause => cause.message
  | .system cause path =>
    s!"[Errno {cause.number}] {cause.reason}"
      ++ (if cause.blamesPath then ": " ++ quoted path else "")
  | .noSource => "Must specify --input MODEL (or --checkpoint FILE)"
  | .noPath => "a path is needed"
  | .nulInPath => "embedded null byte"
  | .noLevel text => "Unknown level: " ++ quoted text
  | .strangeLevel => "Level not an integer or a valid string"
  | .namelessLevel => "a level needs a name"

end Fault
end FactorForest
