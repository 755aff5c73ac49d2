import FactorForest.Number.Power

set_option autoImplicit false

namespace FactorForest

structure Double where
  bits : UInt64
deriving DecidableEq, Repr

namespace Double

instance : Inhabited Double := ⟨⟨0⟩⟩

def zero : Double := ⟨0⟩

def infinity : Double := ⟨0x7FF0000000000000⟩

def negInfinity : Double := ⟨0xFFF0000000000000⟩

def quietNaN : Double := ⟨0x7FF8000000000000⟩

/-- The least finite number. It stands in for the logarithm of zero where a table must stay
finite. -/
def lowest : Double := ⟨0xFFEFFFFFFFFFFFFF⟩

def signBit : UInt64 := 0x8000000000000000

def isNegative (x : Double) : Bool := x.bits &&& signBit != 0

def negate (x : Double) : Double := ⟨x.bits ^^^ signBit⟩

def exponent (x : Double) : Nat := x.bits.toNat / 2 ^ 52 % 2 ^ 11

def fraction (x : Double) : Nat := x.bits.toNat % 2 ^ 52

def isNaN (x : Double) : Bool := x.exponent == 2047 && x.fraction != 0

def isInfinite (x : Double) : Bool := x.exponent == 2047 && x.fraction == 0

/-- A finite number is `m * 2 ^ (q - 1074)` up to its sign; this is `(m, q)`. -/
def parts (x : Double) : Nat × Nat :=
  if x.exponent = 0 then (x.fraction, 0) else (2 ^ 52 + x.fraction, x.exponent - 1)

def isZero (x : Double) : Bool := x.exponent == 0 && x.fraction == 0

/-- Equality of numbers: the two zeros are equal, a not-a-number equals nothing. -/
def numEq (x y : Double) : Bool :=
  !x.isNaN && !y.isNaN && (x.bits == y.bits || (x.isZero && y.isZero))

def cellEq (x y : Double) : Bool := x.numEq y || (x.isNaN && y.isNaN)

def rank (x : Double) : Int :=
  let magnitude : Nat := x.bits.toNat % 2 ^ 63
  if x.isNegative then -magnitude else magnitude

/-- The greater of two numbers, the first one if they are level, and any that is not a number. -/
def greater (x y : Double) : Double :=
  if x.isNaN then x
  else if y.isNaN || x.rank < y.rank then y
  else x

def ofFloat (x : Float) : Double := ⟨x.toBits⟩

def toFloat (x : Double) : Float := Float.ofBits x.bits

def roundEven (num den : Nat) : Nat :=
  let q := num / den
  let r := num % den
  if 2 * r < den then q
  else if den < 2 * r then q + 1
  else q + q % 2

/-- The binary64 number nearest to `num / den`, ties to the even significand; beyond the largest
finite one it is infinite. With `q` the least exponent field at which the significand stays below
`2 ^ 53`, the significand and the field are added as one integer, so that a carry moves on to the
next binade by itself. -/
def ofRatio (num den : Nat) : Double :=
  if num = 0 then zero
  else
    let top := num.log2 + 1074 - den.log2
    let q := top - 53
    let q := if num * 2 ^ 1074 < den * 2 ^ (q + 53) then q else q + 1
    let m := roundEven (num * 2 ^ 1074) (den * 2 ^ q)
    let sum := q * 2 ^ 52 + m
    if sum < 0x7FF0000000000000 then ⟨UInt64.ofNat sum⟩ else infinity

end Double
end FactorForest
