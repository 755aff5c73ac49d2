import FactorForest.Fault
import FactorForest.Factor.Basic

set_option autoImplicit false

namespace FactorForest.Archive

/-- What a writer has put out, and the refusal that ended it, if one did. -/
structure Written where
  bytes : List UInt8 := []
  fault : Option Fault := none
deriving DecidableEq

namespace Written

def append (a b : Written) : Written :=
  match a.fault with
  | some _ => a
  | none => ⟨a.bytes ++ b.bytes, b.fault⟩

instance : Append Written := ⟨append⟩

def concat : List Written → Written
  | [] => {}
  | w :: ws => w ++ concat ws

def refused (e : Fault) : Written := ⟨[], some e⟩

end Written

def littleEndian : Nat → Nat → List UInt8
  | 0, _ => []
  | width + 1, n => UInt8.ofNat (n % 256) :: littleEndian width (n / 256)

def magic : List UInt8 := "PGIBBS".toList.map (fun c => UInt8.ofNat c.toNat) ++ [0]

def formatVersion : Nat := 1

def header : Written := ⟨magic ++ littleEndian 4 formatVersion, none⟩

def field (t : Tag) (payload : List UInt8) : Written := ⟨UInt8.ofNat t.number :: payload, none⟩

def unsigned (t : Tag) (width : Nat) (n : Int) : Written :=
  if 0 ≤ n ∧ n < 256 ^ width then field t (littleEndian width n.toNat)
  else .refused .integerRange

def u64 (n : Int) : Written := unsigned .u64 8 n

def u32 (n : Int) : Written := unsigned .u32 4 n

def i64 (n : Int) : Written :=
  if -2 ^ 63 ≤ n ∧ n < 2 ^ 63 then field .i64 (littleEndian 8 (n % 2 ^ 64).toNat)
  else .refused .integerRange

def doubleBytes (x : Double) : List UInt8 := littleEndian 8 x.bits.toNat

def f64 (x : Double) : Written := field .f64 (doubleBytes x)

def bool (b : Bool) : Written := field .bool [if b then 1 else 0]

/-- A payload after its count of units, which must fit like any other unsigned number. -/
def counted (t : Tag) (count : Nat) (payload : List UInt8) : Written :=
  unsigned t 8 count ++ ⟨payload, none⟩

def str (s : String) : Written :=
  let bytes := Text.Utf8.encode s
  counted .str bytes.length bytes

def listLength (n : Int) : Written := unsigned .list 8 n

def f64Array (xs : List Double) : Written :=
  counted .f64Array xs.length (xs.flatMap doubleBytes)

def list {α : Type} (write : α → Written) (xs : List α) : Written :=
  listLength xs.length ++ Written.concat (xs.map write)

def u64List (xs : List Int) : Written := list u64 xs

def strList (xs : List String) : Written := list str xs

def variableField (v : Variable) : Written := u64 v.id ++ u64 v.arity

def scope (s : Scope) : Written := list variableField s.vars

def assignment (a : Assignment) : Written :=
  scope a.scope ++ u64List (a.values.map Int.ofNat)

def factor (f : Factor) : Written := scope f.scope ++ f64Array f.table.toList

end FactorForest.Archive
