import FactorForest.Text.Quoted

set_option autoImplicit false

namespace FactorForest.Text.Utf8

inductive Reason
  | badStart
  | badContinuation
  | endOfData
deriving DecidableEq, Repr

/-- The bad sequence: its offset, its length, its first byte. -/
structure Fault where
  start : Nat
  length : Nat
  byte : UInt8
  reason : Reason
deriving DecidableEq, Repr

def Reason.message : Reason → String
  | .badStart => "invalid start byte"
  | .badContinuation => "invalid continuation byte"
  | .endOfData => "unexpected end of data"

def Fault.message (f : Fault) : String :=
  if f.length = 1 then
    "'utf-8' codec can't decode byte 0x" ++ String.ofList (hex 2 f.byte.toNat) ++
      s!" in position {f.start}: " ++ f.reason.message
  else
    s!"'utf-8' codec can't decode bytes in position {f.start}-{f.start + f.length - 1}: " ++
      f.reason.message

/-- What a first byte announces: its share of the code point, and for each byte that must follow
the range it lies in. Nothing is announced by a byte that starts no character. -/
def announced (b : Nat) : Option (Nat × List (Nat × Nat)) :=
  if b < 0x80 then some (b, [])
  else if b < 0xC2 then none
  else if b < 0xE0 then some (b - 0xC0, [(0x80, 0xBF)])
  else if b = 0xE0 then some (0, [(0xA0, 0xBF), (0x80, 0xBF)])
  else if b = 0xED then some (13, [(0x80, 0x9F), (0x80, 0xBF)])
  else if b < 0xF0 then some (b - 0xE0, [(0x80, 0xBF), (0x80, 0xBF)])
  else if b = 0xF0 then some (0, [(0x90, 0xBF), (0x80, 0xBF), (0x80, 0xBF)])
  else if b < 0xF4 then some (b - 0xF0, [(0x80, 0xBF), (0x80, 0xBF), (0x80, 0xBF)])
  else if b = 0xF4 then some (4, [(0x80, 0x8F), (0x80, 0xBF), (0x80, 0xBF)])
  else none

/-- Reads the announced bytes onto `acc`. A failure tells how many of them were fine. -/
def follow : List (Nat × Nat) → Nat → Nat → List UInt8 → Except (Nat × Reason) (Nat × List UInt8)
  | [], acc, _, bs => .ok (acc, bs)
  | _ :: _, _, fine, [] => .error (fine, .endOfData)
  | (lo, hi) :: more, acc, fine, b :: bs =>
    if lo ≤ b.toNat ∧ b.toNat ≤ hi then follow more (acc * 64 + (b.toNat - 0x80)) (fine + 1) bs
    else .error (fine, .badContinuation)

theorem follow_length {rs : List (Nat × Nat)} {acc fine n : Nat} {bs rest : List UInt8}
    (h : follow rs acc fine bs = .ok (n, rest)) : rest.length ≤ bs.length := by
  induction rs generalizing acc fine bs with
  | nil => simp only [follow, Except.ok.injEq, Prod.mk.injEq] at h; simp [h.2]
  | cons r rs ih =>
    cases bs with
    | nil => simp [follow] at h
    | cons b bs =>
      rw [follow] at h
      split at h
      · exact Nat.le_succ_of_le (ih h)
      · exact absurd h (by simp)

def decodeFrom (pos : Nat) (bs : List UInt8) : Except Fault (List Char) :=
  match bs with
  | [] => .ok []
  | b :: tail =>
    match announced b.toNat with
    | none => .error ⟨pos, 1, b, .badStart⟩
    | some (start, ranges) =>
      match h : follow ranges start 1 tail with
      | .error (fine, reason) => .error ⟨pos, fine, b, reason⟩
      | .ok (n, rest) => do
        let cs ← decodeFrom (pos + 1 + ranges.length) rest
        pure (Char.ofNat n :: cs)
termination_by bs.length
decreasing_by
  have := follow_length h
  simp only [List.length_cons]
  omega

def decode (bs : List UInt8) : Except Fault (List Char) := decodeFrom 0 bs

def encode (s : String) : List UInt8 := s.toList.flatMap String.utf8EncodeChar

end FactorForest.Text.Utf8
