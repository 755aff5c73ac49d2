import FactorForest.Number.Power
import FactorForest.Text.Utf8
import Mathlib.Tactic.IntervalCases

set_option autoImplicit false

namespace FactorForest.Text.Utf8

theorem toNat_byte {n : Nat} (h : n < 256) : (UInt8.ofNat n).toNat = n :=
  UInt8.toNat_ofNat_of_lt' h

/-- A first byte and the bytes after it that are read as a character, whatever follows. -/
def Spells (c : Char) (b : UInt8) (tail : List UInt8) : Prop :=
  ∃ start ranges, announced b.toNat = some (start, ranges) ∧ ranges.length = tail.length ∧
    ∀ rest, follow ranges start 1 (tail ++ rest) = .ok (c.toNat, rest)

theorem follow_cons {lo hi acc fine n : Nat} {more : List (Nat × Nat)} {bs : List UInt8}
    (hn : n < 256) (hlo : lo ≤ n) (hhi : n ≤ hi) :
    follow ((lo, hi) :: more) acc fine (UInt8.ofNat n :: bs) =
      follow more (acc * 64 + (n - 0x80)) (fine + 1) bs := by
  rw [follow, toNat_byte hn, if_pos ⟨hlo, hhi⟩]

theorem spells_one {c : Char} (h : c.toNat ≤ 0x7f) : Spells c (UInt8.ofNat c.toNat) [] := by
  refine ⟨c.toNat, [], ?_, rfl, fun rest => rfl⟩
  rw [toNat_byte (by omega), announced, if_pos (by omega)]

theorem spells_two {c : Char} (h : 0x7f < c.toNat) (h' : c.toNat ≤ 0x7ff) :
    Spells c (UInt8.ofNat (c.toNat / 64 % 0x20 + 0xc0))
      [UInt8.ofNat (c.toNat % 0x40 + 0x80)] := by
  refine ⟨c.toNat / 64, [(0x80, 0xBF)], ?_, rfl, ?_⟩
  · rw [toNat_byte (by omega), announced, if_neg (by omega), if_neg (by omega), if_pos (by omega)]
    have he : c.toNat / 64 % 0x20 + 0xc0 - 0xC0 = c.toNat / 64 := by omega
    rw [he]
  · intro rest
    rw [List.singleton_append, follow_cons (by omega) (by omega) (by omega), follow]
    have he : c.toNat / 64 * 64 + (c.toNat % 0x40 + 0x80 - 0x80) = c.toNat := by omega
    rw [he]

/-- The range of the second of three bytes: no shorter form, no surrogate. -/
def secondOfThree (lead : Nat) : Nat × Nat :=
  if lead = 0 then (0xA0, 0xBF) else if lead = 13 then (0x80, 0x9F) else (0x80, 0xBF)

theorem announced_three {lead : Nat} (h : lead < 16) :
    announced (lead + 0xe0) = some (lead, [secondOfThree lead, (0x80, 0xBF)]) := by
  interval_cases lead <;> rfl

def secondOfFour (lead : Nat) : Nat × Nat :=
  if lead = 0 then (0x90, 0xBF) else if lead = 4 then (0x80, 0x8F) else (0x80, 0xBF)

theorem announced_four {lead : Nat} (h : lead < 5) :
    announced (lead + 0xf0) = some (lead, [secondOfFour lead, (0x80, 0xBF), (0x80, 0xBF)]) := by
  interval_cases lead <;> rfl

theorem spells_three {c : Char} (h : 0x7ff < c.toNat) (h' : c.toNat ≤ 0xffff) :
    Spells c (UInt8.ofNat (c.toNat / 4096 % 0x10 + 0xe0))
      [UInt8.ofNat (c.toNat / 64 % 0x40 + 0x80), UInt8.ofNat (c.toNat % 0x40 + 0x80)] := by
  have hlead : c.toNat / 4096 % 0x10 = c.toNat / 4096 := by omega
  refine ⟨c.toNat / 4096, [secondOfThree (c.toNat / 4096), (0x80, 0xBF)], ?_, rfl, ?_⟩
  · rw [toNat_byte (by omega), hlead, announced_three (by omega)]
  · intro rest
    have hsur : c.toNat < 0xD800 ∨ 0xDFFF < c.toNat := by
      rcases c.valid with hv | hv
      · exact .inl hv
      · exact .inr hv.1
    have hs : (secondOfThree (c.toNat / 4096)).1 ≤ c.toNat / 64 % 0x40 + 0x80 ∧
        c.toNat / 64 % 0x40 + 0x80 ≤ (secondOfThree (c.toNat / 4096)).2 := by
      unfold secondOfThree
      split
      · constructor <;> dsimp only <;> omega
      · split
        · constructor <;> dsimp only <;> omega
        · constructor <;> dsimp only <;> omega
    rw [List.cons_append, List.singleton_append, follow_cons (by omega) hs.1 hs.2,
      follow_cons (by omega) (by omega) (by omega), follow]
    have he : (c.toNat / 4096 * 64 + (c.toNat / 64 % 0x40 + 0x80 - 0x80)) * 64 +
        (c.toNat % 0x40 + 0x80 - 0x80) = c.toNat := by omega
    rw [he]

theorem spells_four {c : Char} (h : 0xffff < c.toNat) :
    Spells c (UInt8.ofNat (c.toNat / 262144 % 0x08 + 0xf0))
      [UInt8.ofNat (c.toNat / 4096 % 0x40 + 0x80), UInt8.ofNat (c.toNat / 64 % 0x40 + 0x80),
        UInt8.ofNat (c.toNat % 0x40 + 0x80)] := by
  have hmax : c.toNat < 0x110000 := by
    rcases c.valid with hv | hv
    · exact Nat.lt_trans hv (by decide)
    · exact hv.2
  have hlead : c.toNat / 262144 % 0x08 = c.toNat / 262144 := by omega
  refine ⟨c.toNat / 262144, [secondOfFour (c.toNat / 262144), (0x80, 0xBF), (0x80, 0xBF)], ?_, rfl,
    ?_⟩
  · rw [toNat_byte (by omega), hlead, announced_four (by omega)]
  · intro rest
    have hs : (secondOfFour (c.toNat / 262144)).1 ≤ c.toNat / 4096 % 0x40 + 0x80 ∧
        c.toNat / 4096 % 0x40 + 0x80 ≤ (secondOfFour (c.toNat / 262144)).2 := by
      unfold secondOfFour
      split
      · constructor <;> dsimp only <;> omega
      · split
        · constructor <;> dsimp only <;> omega
        · constructor <;> dsimp only <;> omega
    rw [List.cons_append, List.cons_append, List.singleton_append, follow_cons (by omega) hs.1 hs.2,
      follow_cons (by omega) (by omega) (by omega), follow_cons (by omega) (by omega) (by omega),
      follow]
    have he : ((c.toNat / 262144 * 64 + (c.toNat / 4096 % 0x40 + 0x80 - 0x80)) * 64 +
        (c.toNat / 64 % 0x40 + 0x80 - 0x80)) * 64 + (c.toNat % 0x40 + 0x80 - 0x80) = c.toNat := by
      omega
    rw [he]

theorem spells_utf8EncodeChar (c : Char) :
    ∃ b tail, String.utf8EncodeChar c = b :: tail ∧ Spells c b tail := by
  by_cases h₁ : c.toNat ≤ 0x7f
  · exact ⟨_, _, if_pos h₁, spells_one h₁⟩
  by_cases h₂ : c.toNat ≤ 0x7ff
  · exact ⟨_, _, (if_neg h₁).trans (if_pos h₂), spells_two (by omega) h₂⟩
  by_cases h₃ : c.toNat ≤ 0xffff
  · exact ⟨_, _, (if_neg h₁).trans ((if_neg h₂).trans (if_pos h₃)), spells_three (by omega) h₃⟩
  · exact ⟨_, _, (if_neg h₁).trans ((if_neg h₂).trans (if_neg h₃)), spells_four (by omega)⟩

theorem decodeFrom_cons {c : Char} {b : UInt8} {tail : List UInt8} (h : Spells c b tail)
    (pos : Nat) (rest : List UInt8) :
    decodeFrom pos (b :: tail ++ rest) =
      (decodeFrom (pos + 1 + tail.length) rest).map (c :: ·) := by
  obtain ⟨start, ranges, ha, hl, hf⟩ := h
  rw [List.cons_append, decodeFrom]
  simp only [ha]
  split
  · rename_i hfr
    rw [hf] at hfr
    exact absurd hfr (by simp)
  · rename_i n more hfr
    rw [hf] at hfr
    obtain ⟨rfl, rfl⟩ : c.toNat = n ∧ rest = more := by simpa using hfr
    rw [Char.ofNat_toNat, hl]
    cases decodeFrom (pos + 1 + tail.length) rest <;> rfl

theorem decodeFrom_encode (cs : List Char) (pos : Nat) :
    decodeFrom pos (cs.flatMap String.utf8EncodeChar) = .ok cs := by
  induction cs generalizing pos with
  | nil => rw [List.flatMap_nil, decodeFrom]
  | cons c cs ih =>
    obtain ⟨b, tail, hb, hs⟩ := spells_utf8EncodeChar c
    rw [List.flatMap_cons, hb, decodeFrom_cons hs, ih]
    rfl

theorem decode_encode (s : String) : decode (encode s) = .ok s.toList :=
  decodeFrom_encode s.toList 0

theorem utf8Size_ofNat (n : Nat) :
    (n < 0x80 → (Char.ofNat n).utf8Size = 1) ∧ (n < 0x800 → (Char.ofNat n).utf8Size ≤ 2) ∧
      (n < 0x10000 → (Char.ofNat n).utf8Size ≤ 3) ∧ (Char.ofNat n).utf8Size ≤ 4 := by
  have hn : (Char.ofNat n).val.toNat ≤ n := by
    by_cases h : n.isValidChar
    · rw [Char.ofNat, dif_pos h]
      exact Nat.le_refl n
    · rw [Char.ofNat, dif_neg h]
      exact Nat.zero_le n
  rw [Char.utf8Size]
  simp only [UInt32.le_iff_toNat_le, UInt32.toNat_ofNatLT]
  split_ifs <;> omega

theorem follow_bounds {ranges : List (Nat × Nat)} (hr : ∀ r ∈ ranges, r.2 ≤ 0xBF)
    {acc fine n : Nat} {bs rest : List UInt8} (h : follow ranges acc fine bs = .ok (n, rest)) :
    n < (acc + 1) * 64 ^ ranges.length ∧ ranges.length + rest.length = bs.length := by
  induction ranges generalizing acc fine bs with
  | nil =>
    cases h
    simp
  | cons r ranges ih =>
    cases bs with
    | nil => cases h
    | cons b bs =>
      unfold follow at h
      split at h
      · rename_i hb
        have hmax := hr r List.mem_cons_self
        obtain ⟨hn, hl⟩ := ih (fun s hs => hr s (List.mem_cons_of_mem r hs)) h
        have hstep : acc * 64 + (b.toNat - 0x80) + 1 ≤ (acc + 1) * 64 := by omega
        constructor
        · rw [List.length_cons, Nat.pow_succ', ← Nat.mul_assoc]
          exact Nat.lt_of_lt_of_le hn (Nat.mul_le_mul_right _ hstep)
        · rw [List.length_cons, List.length_cons]
          omega
      · cases h

/-- A first byte announces as many bytes as the character needs, at least. -/
theorem announced_bounds {b start : Nat} {ranges : List (Nat × Nat)}
    (h : announced b = some (start, ranges)) :
    (∀ r ∈ ranges, r.2 ≤ 0xBF) ∧ ∀ n < (start + 1) * 64 ^ ranges.length,
      (Char.ofNat n).utf8Size ≤ 1 + ranges.length := by
  unfold announced at h
  split_ifs at h
  all_goals
    obtain ⟨rfl, rfl⟩ := Prod.mk.inj (Option.some.inj h)
    refine ⟨by simp, fun n hn => ?_⟩
    have hsize := utf8Size_ofNat n
    simp at hn ⊢
    omega

theorem length_le_of_decodeFrom {pos : Nat} {bs : List UInt8} {cs : List Char}
    (h : decodeFrom pos bs = .ok cs) : (cs.flatMap String.utf8EncodeChar).length ≤ bs.length := by
  fun_induction decodeFrom pos bs generalizing cs with
  | case1 =>
    cases h
    simp
  | case2 => exact nomatch h
  | case3 => exact nomatch h
  | case4 pos b tail start ranges ha n rest hf ih =>
    obtain ⟨hranges, hsize⟩ := announced_bounds ha
    obtain ⟨hn, hl⟩ := follow_bounds hranges hf
    cases hcs : decodeFrom (pos + 1 + ranges.length) rest with
    | error e =>
      rw [hcs] at h
      exact nomatch h
    | ok ds =>
      rw [hcs] at h
      cases h
      have hrest := ih hcs
      have hfirst := hsize n hn
      rw [List.flatMap_cons, List.length_append, String.length_utf8EncodeChar, List.length_cons]
      omega

theorem length_encode_le {bs : List UInt8} {cs : List Char} (h : decode bs = .ok cs) :
    (encode (String.ofList cs)).length ≤ bs.length := by
  rw [encode, String.toList_ofList]
  exact length_le_of_decodeFrom h
end FactorForest.Text.Utf8
