import FactorForest.Archive.Writer

/-!
Reading archives. A reader takes fields off the front of a byte sequence; after a failure the bytes
that it took stay taken. A field that runs out takes what is left.
-/

set_option autoImplicit false

namespace FactorForest.Archive

/-- A step of reading, under a bound on the byte counts that can be asked for at once: a value or a
fault, and the bytes that are left. -/
abbrev Reader (α : Type) := ReaderT Nat (ExceptT Fault (StateM (List UInt8))) α

/-- Byte counts are signed numbers of 64 bits. -/
def countBound : Nat := 2 ^ 63

/-- Bytes of a file are put behind a head of 32 bytes and in front of one more, which a byte count
has to leave room for. -/
def fileCountBound : Nat := countBound - 33

namespace Reader

def start {α : Type} (r : Reader α) (bound : Nat) (bytes : List UInt8) :
    Except Fault α × List UInt8 :=
  ((r.run bound).run).run bytes

def checked {α : Type} : Except Fault α → Reader α
  | .ok a => pure a
  | .error e => throw (.refused e)

def take (n : Nat) : Reader (List UInt8) := do
  let bytes ← get
  let got := bytes.take n
  set (bytes.drop n)
  if got.length = n then pure got else throw (.truncated n got.length)

def times {α : Type} (r : Reader α) : Nat → Reader (List α)
  | 0 => pure []
  | n + 1 => do
    let a ← r
    let as ← times r n
    pure (a :: as)

def ofLittleEndian : List UInt8 → Nat
  | [] => 0
  | b :: bs => b.toNat + 256 * ofLittleEndian bs

def number (width : Nat) : Reader Nat := do
  let bytes ← take width
  pure (ofLittleEndian bytes)

def header : Reader Nat := do
  let bytes ← take magic.length
  if bytes ≠ magic then throw .badMagic
  let version ← number 4
  if version ≠ formatVersion then throw (.version version)
  pure version

def expect (t : Tag) : Reader Unit := do
  let n ← number 1
  if n ≠ t.number then throw (.wrongTag t n)

def u64 : Reader Nat := do
  expect .u64
  number 8

def u32 : Reader Nat := do
  expect .u32
  number 4

def i64 : Reader Int := do
  expect .i64
  let n ← number 8
  pure (if n < 2 ^ 63 then (n : Int) else (n : Int) - 2 ^ 64)

def f64 : Reader Double := do
  expect .f64
  let n ← number 8
  pure ⟨UInt64.ofNat n⟩

def bool : Reader Bool := do
  expect .bool
  match ← take 1 with
  | [0] => pure false
  | [1] => pure true
  | bytes => throw (.badBool (bytes.headD 0))

def payload (n : Nat) : Reader (List UInt8) := do
  if n < (← read) then take n else throw .byteCountRange

def str : Reader String := do
  expect .str
  let n ← number 8
  match Text.Utf8.decode (← payload n) with
  | .ok cs => pure (String.ofList cs)
  | .error e => throw (.badText e)

def listLength : Reader Nat := do
  expect .list
  number 8

def doubles : List UInt8 → List Double
  | a :: b :: c :: d :: e :: f :: g :: h :: rest =>
    ⟨UInt64.ofNat (ofLittleEndian [a, b, c, d, e, f, g, h])⟩ :: doubles rest
  | _ => []

def f64Array : Reader (List Double) := do
  expect .f64Array
  let n ← number 8
  let bytes ← payload (n * 8)
  pure (doubles bytes)

def list {α : Type} (r : Reader α) : Reader (List α) := do
  let n ← listLength
  times r n

def u64List : Reader (List Nat) := list u64

def strList : Reader (List String) := list str

def variableField : Reader Variable := do
  let id ← u64
  let arity ← u64
  checked (Variable.ofInts id arity)

def scope : Reader Scope := do
  let vs ← list variableField
  checked (Scope.ofList vs)

def assignment : Reader Assignment := do
  let s ← scope
  let values ← u64List
  checked (Assignment.ofValues s (values.map Int.ofNat))

def factor : Reader Factor := do
  let s ← scope
  let table ← f64Array
  checked (Factor.ofTable s table.toArray)

end Reader
end FactorForest.Archive
