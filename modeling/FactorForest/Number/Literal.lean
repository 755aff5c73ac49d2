import FactorForest.Number.Double
import FactorForest.Text.Lines

set_option autoImplicit false

namespace FactorForest.Literal

open FactorForest.Text

def unpadded (cs : List Char) : List Char := trimBy isPadding cs

def takeSign : List Char → Bool × List Char
  | '-' :: cs => (true, cs)
  | '+' :: cs => (false, cs)
  | cs => (false, cs)

/-- The longest run of digits, single underscores between them, and the rest. An underscore that
no digit follows is left in the rest. -/
def takeDigits : List Char → List Nat × List Char
  | [] => ([], [])
  | [c] =>
    match digitValue? c with
    | none => ([], [c])
    | some d => ([d], [])
  | c :: c' :: cs =>
    match digitValue? c with
    | none => ([], c :: c' :: cs)
    | some d =>
      if c' = '_' then
        match takeDigits cs with
        | ([], _) => ([d], c' :: cs)
        | (ds, rest) => (d :: ds, rest)
      else
        let (ds, rest) := takeDigits (c' :: cs)
        (d :: ds, rest)

def ofDigits (ds : List Nat) : Nat := ds.foldl (fun n d => 10 * n + d) 0

def maxDigits : Nat := 4300

def int? (cs : List Char) : Option Int :=
  let (negative, body) := takeSign (unpadded cs)
  let (ds, rest) := takeDigits body
  if ds = [] ∨ rest ≠ [] ∨ maxDigits < ds.length then none
  else if negative then some (-(ofDigits ds : Int)) else some (ofDigits ds)

structure Decimal where
  digits : List Nat
  exponent : Int
deriving Repr

/-- Far outside these bounds a number is infinite or zero whatever its digits. -/
def Decimal.toDouble (x : Decimal) : Double :=
  let ds := x.digits.dropWhile (· == 0)
  let m := ofDigits ds
  let top := (ds.length : Int) + x.exponent
  if m = 0 then .zero
  else if 400 < top then .infinity
  else if top < -400 then .zero
  else if 0 ≤ x.exponent then .ofRatio (m * 10 ^ x.exponent.toNat) 1
  else .ofRatio m (10 ^ (-x.exponent).toNat)

def exponent? : List Char → Option Int
  | [] => some 0
  | c :: cs =>
    if c = 'e' ∨ c = 'E' then
      let (negative, body) := takeSign cs
      let (ds, rest) := takeDigits body
      if ds = [] ∨ rest ≠ [] then none
      else some (if negative then -(ofDigits ds : Int) else ofDigits ds)
    else none

def decimal? (cs : List Char) : Option Decimal :=
  let (whole, rest) := takeDigits cs
  let (part, rest) :=
    match rest with
    | '.' :: rest' => takeDigits rest'
    | _ => ([], rest)
  if whole = [] ∧ part = [] then none
  else (exponent? rest).map fun e => ⟨whole ++ part, e - part.length⟩

def word? (cs : List Char) : Option Double :=
  let w := String.ofList (cs.map Char.toLower)
  if w = "inf" ∨ w = "infinity" then some .infinity
  else if w = "nan" then some .quietNaN
  else none

def double? (cs : List Char) : Option Double :=
  let (negative, body) := takeSign (unpadded cs)
  let size := (word? body).or ((decimal? body).map Decimal.toDouble)
  size.map fun x => if negative then x.negate else x

end FactorForest.Literal
