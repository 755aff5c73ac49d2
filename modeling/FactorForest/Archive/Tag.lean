set_option autoImplicit false

namespace FactorForest

inductive Tag
  | u64
  | i64
  | u32
  | f64
  | bool
  | str
  | list
  | f64Array
deriving DecidableEq, Repr

def Tag.number : Tag → Nat
  | .u64 => 1
  | .i64 => 2
  | .u32 => 3
  | .f64 => 4
  | .bool => 5
  | .str => 6
  | .list => 7
  | .f64Array => 8

def Tag.name : Tag → String
  | .u64 => "u64"
  | .i64 => "i64"
  | .u32 => "u32"
  | .f64 => "f64"
  | .bool => "bool"
  | .str => "str"
  | .list => "list"
  | .f64Array => "f64[]"

def Tag.all : List Tag := [.u64, .i64, .u32, .f64, .bool, .str, .list, .f64Array]

def Tag.describe (n : Nat) : String :=
  match Tag.all.find? fun t => t.number == n with
  | some t => t.name
  | none => s!"tag {n}"

end FactorForest
