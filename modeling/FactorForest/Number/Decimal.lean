import FactorForest.Number.Double

/-!
Decimal texts of binary64 numbers. Every text shows the exact value rounded once, a half to the
even digit: with a fixed number of places, with one digit before the point and an exponent, or
with a number of significant digits and no trailing zeros.
-/

set_option autoImplicit false

namespace FactorForest

def digits (n : Nat) : List Char := Nat.toDigits 10 n

def pointed (places : Nat) (ds : List Char) : List Char :=
  let padded := List.replicate (places + 1 - ds.length) '0' ++ ds
  let cut := padded.length - places
  if places = 0 then padded else padded.take cut ++ '.' :: padded.drop cut

def exponentText (e : Int) : List Char :=
  let ds := digits e.natAbs
  'e' :: (if e < 0 then '-' else '+') :: (List.replicate (2 - ds.length) '0' ++ ds)

def dropZeros (cs : List Char) : List Char :=
  if cs.contains '.' then
    let kept := cs.reverse.dropWhile (· == '0')
    (if kept.head? == some '.' then kept.tail else kept).reverse
  else cs

namespace Double

def ratio (x : Double) : Nat × Nat :=
  let (m, q) := x.parts
  if 1074 ≤ q then (m * 2 ^ (q - 1074), 1) else (m, 2 ^ (1074 - q))

def scaled (places : Nat) (x : Double) : Nat := roundEven (x.ratio.1 * 10 ^ places) x.ratio.2

def reachesTen (e : Int) (num den : Nat) : Bool :=
  if 0 ≤ e then 10 ^ e.toNat * den ≤ num else den ≤ num * 10 ^ (-e).toNat

/-- The decimal exponent of a nonzero finite number: `10 ^ e ≤ |x| < 10 ^ (e + 1)`. The binary
exponents of its quotient give it up to one, since `1233 / 4096` is close to the logarithm of two
to the base ten. -/
def decimalExponent (x : Double) : Int :=
  let (num, den) := x.ratio
  let e := ((num.log2 : Int) - den.log2) * 1233 / 4096
  if reachesTen (e + 1) num den then e + 1 else if reachesTen e num den then e else e - 1

/-- The value rounded to `more + 1` significant digits, as those digits and the exponent of the
first. Rounding up to a power of ten moves the exponent. -/
def significant (more : Nat) (x : Double) : Nat × Int :=
  if x.ratio.1 = 0 then (0, 0)
  else
    let e := x.decimalExponent
    let shift := (more : Int) - e
    let n :=
      if 0 ≤ shift then roundEven (x.ratio.1 * 10 ^ shift.toNat) x.ratio.2
      else roundEven x.ratio.1 (x.ratio.2 * 10 ^ (-shift).toNat)
    if n < 10 ^ (more + 1) then (n, e) else (n / 10, e + 1)

def signed (x : Double) (size : Double → List Char) : String :=
  if x.isNaN then "nan"
  else
    let body := if x.isInfinite then ['i', 'n', 'f'] else size x
    String.ofList (if x.isNegative then '-' :: body else body)

def fixed (places : Nat) (x : Double) : String :=
  x.signed fun y => pointed places (digits (y.scaled places))

def scientific (places : Nat) (x : Double) : String :=
  x.signed fun y =>
    let (n, e) := y.significant places
    pointed places ((digits n) ++ List.replicate (places + 1 - (digits n).length) '0') ++
      exponentText e

/-- The exact value of a finite number has fewer significant digits than this. -/
def digitLimit : Nat := 1100

/-- `count` significant digits, at least one, without trailing zeros; an exponent where the first
digit stands right of the fourth place after the point or left of the `count`-th before it. -/
def general (count : Nat) (x : Double) : String :=
  x.signed fun y =>
    let count := min (max count 1) digitLimit
    let (n, e) := y.significant (count - 1)
    let ds := digits n ++ List.replicate (count - (digits n).length) '0'
    if -4 ≤ e ∧ e < count then dropZeros (pointed ((count : Int) - 1 - e).toNat ds)
    else dropZeros (pointed (count - 1) ds) ++ exponentText e

end Double
end FactorForest
