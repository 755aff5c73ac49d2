import FactorForest.Number.Literal
import FactorForest.Proofs.Text.Cuts
import Mathlib.Data.List.Forall2

set_option autoImplicit false

namespace FactorForest.Literal

open FactorForest.Text

structure Digits (ds : List Char) (n : Nat) : Prop where
  short : ds.length ≤ maxDigits
  shows : ∃ xs, xs ≠ [] ∧ ds.map digitValue? = xs.map some ∧ ofDigits xs = n

theorem zeros_apart : ∀ z ∈ decimalZeros, z = 0x30 ∨ (0xA0 < z ∧ z + 10 ≤ 0x1680) ∨
    (0x1680 < z ∧ z + 10 ≤ 0x2000) ∨ 0x3000 < z := by decide

theorem digitValue?_blank {c : Char} (hc : isBlank c) : digitValue? c = none := by
  have hn : (0x09 ≤ c.toNat ∧ c.toNat ≤ 0x20) ∨ c.toNat = 0x85 ∨ c.toNat = 0xA0 ∨
      c.toNat = 0x1680 ∨ (0x2000 ≤ c.toNat ∧ c.toNat ≤ 0x3000) := by
    simp only [isBlank, Bool.or_eq_true, Bool.and_eq_true, decide_eq_true_eq, beq_iff_eq] at hc
    omega
  rw [digitValue?]
  split
  · rw [if_neg]
    simp only [Bool.and_eq_true, decide_eq_true_eq]
    omega
  · have hfind : (decimalZeros.find? fun z => z ≤ c.toNat && c.toNat < z + 10) = none := by
      refine List.find?_eq_none.2 fun z hz => ?_
      have hz := zeros_apart z hz
      simp only [Bool.and_eq_true, decide_eq_true_eq]
      omega
    rw [hfind]
    rfl

theorem isBlank_of_digit {c : Char} {d : Nat} (h : digitValue? c = some d) : isBlank c = false := by
  rw [← Bool.not_eq_true]
  intro hb
  rw [digitValue?_blank hb] at h
  exact nomatch h

theorem takeDigits_digits {ds : List Char} {xs : List Nat}
    (h : ds.map digitValue? = xs.map some) : takeDigits ds = (xs, []) := by
  induction ds generalizing xs with
  | nil => cases List.map_eq_nil_iff.1 h.symm; rfl
  | cons c cs ih =>
    cases xs with
    | nil => exact nomatch h
    | cons d xs =>
      obtain ⟨hc, hcs⟩ := List.cons.inj h
      have hrest := ih hcs
      cases cs with
      | nil => cases List.map_eq_nil_iff.1 hcs.symm; rw [takeDigits, hc]
      | cons c' cs =>
        have hbar : c' ≠ '_' := by
          rintro rfl
          cases xs with
          | nil => exact nomatch hcs
          | cons d' xs => exact absurd (List.cons.inj hcs).1 (by simp [digitValue?])
        rw [takeDigits, hc]
        simp only [if_neg hbar, hrest]

theorem Digits.ne_nil {ds : List Char} {n : Nat} (h : Digits ds n) : ds ≠ [] := by
  rintro rfl
  obtain ⟨xs, hne, hxs, -⟩ := h.shows
  exact hne (List.map_eq_nil_iff.1 hxs.symm)

theorem Digits.exists_value {ds : List Char} {n : Nat} (h : Digits ds n) {c : Char} (hc : c ∈ ds) :
    ∃ d, digitValue? c = some d := by
  obtain ⟨xs, -, hxs, -⟩ := h.shows
  have hmem : digitValue? c ∈ xs.map some := hxs ▸ List.mem_map_of_mem hc
  obtain ⟨d, -, hd⟩ := List.mem_map.1 hmem
  exact ⟨d, hd.symm⟩

theorem Digits.not_blank {ds : List Char} {n : Nat} (h : Digits ds n) {c : Char} (hc : c ∈ ds) :
    isBlank c = false := by
  obtain ⟨d, hd⟩ := h.exists_value hc
  exact isBlank_of_digit hd

theorem takeSign_digits {ds : List Char} {n : Nat} (h : Digits ds n) :
    takeSign ds = (false, ds) := by
  cases ds with
  | nil => rfl
  | cons c cs =>
    obtain ⟨d, hd⟩ := h.exists_value List.mem_cons_self
    have hminus : c ≠ '-' := by
      rintro rfl
      exact nomatch hd
    have hplus : c ≠ '+' := by
      rintro rfl
      exact nomatch hd
    simp [takeSign, hminus, hplus]

theorem unpadded_of_not_blank {cs : List Char} (h : ∀ c ∈ cs, isBlank c = false) :
    unpadded cs = cs := by
  have hpadding : ∀ c ∈ cs, isPadding c = false := by
    intro c hc
    rw [isPadding, h c hc, Bool.false_and]
  exact trimBy_of_ends (fun c hc => hpadding c (List.mem_of_mem_head? hc))
    fun c hc => hpadding c (List.mem_of_mem_getLast? hc)

theorem int?_digits {ds : List Char} {n : Nat} (h : Digits ds n) : int? ds = some (n : Int) := by
  obtain ⟨xs, hne, hxs, hn⟩ := h.shows
  have hlength : xs.length = ds.length := by simpa using (congrArg List.length hxs).symm
  have hshort : ¬ maxDigits < xs.length := hlength ▸ Nat.not_lt.2 h.short
  rw [int?, unpadded_of_not_blank fun c hc => h.not_blank hc, takeSign_digits h]
  simp only [takeDigits_digits hxs]
  rw [if_neg (by simp [hne, hshort]), if_neg Bool.false_ne_true, hn]

theorem digit_ne_slash {c : Char} {d : Nat} (h : digitValue? c = some d) : '/' ≠ c := by
  rintro rfl
  exact nomatch h

theorem slash_mem_takeDigits {cs : List Char} (h : '/' ∈ cs) : '/' ∈ (takeDigits cs).2 := by
  fun_induction takeDigits cs with
  | case1 => exact h
  | case2 c hc => exact h
  | case3 c d hc => exact absurd (List.mem_singleton.1 h) (digit_ne_slash hc)
  | case4 c c' cs hc => exact h
  | case5 c cs d hc rest hrest ih => exact (List.mem_cons.1 h).resolve_left (digit_ne_slash hc)
  | case6 c cs d hc ds rest hds hrest ih =>
    have htail := (List.mem_cons.1 h).resolve_left (digit_ne_slash hc)
    have hmem := ih ((List.mem_cons.1 htail).resolve_left (by decide))
    rw [hrest] at hmem
    exact hmem
  | case7 c c' cs d hc hbar ds rest hrest ih =>
    have hmem := ih ((List.mem_cons.1 h).resolve_left (digit_ne_slash hc))
    rw [hrest] at hmem
    exact hmem

theorem slash_mem_takeSign {cs : List Char} (h : '/' ∈ cs) : '/' ∈ (takeSign cs).2 := by
  fun_cases takeSign cs with
  | case1 cs => exact (List.mem_cons.1 h).resolve_left (by decide)
  | case2 cs => exact (List.mem_cons.1 h).resolve_left (by decide)
  | case3 => exact h

theorem exponent?_slash {cs : List Char} (h : '/' ∈ cs) : exponent? cs = none := by
  cases cs with
  | nil => exact nomatch h
  | cons c cs =>
    rw [exponent?]
    split
    · rename_i hc
      have hne : '/' ≠ c := by
        rintro rfl
        exact absurd hc (by decide)
      have hrest := slash_mem_takeDigits
        (slash_mem_takeSign ((List.mem_cons.1 h).resolve_left hne))
      exact if_pos (.inr (List.ne_nil_of_mem hrest))
    · rfl

theorem decimal?_slash {cs : List Char} (h : '/' ∈ cs) : decimal? cs = none := by
  have hrest := slash_mem_takeDigits h
  rw [decimal?]
  generalize takeDigits cs = taken at hrest
  obtain ⟨whole, rest⟩ := taken
  dsimp only at hrest ⊢
  split
  · rename_i tail
    have htail := slash_mem_takeDigits ((List.mem_cons.1 hrest).resolve_left (by decide))
    rw [exponent?_slash htail, Option.map_none, ite_self]
  · rw [exponent?_slash hrest, Option.map_none, ite_self]

theorem word?_slash {cs : List Char} (h : '/' ∈ cs) : word? cs = none := by
  have hmem : '/' ∈ cs.map Char.toLower := List.mem_map.2 ⟨'/', h, rfl⟩
  have hne : ∀ w : String, '/' ∉ w.toList → String.ofList (cs.map Char.toLower) ≠ w := by
    rintro w hw rfl
    rw [String.toList_ofList] at hw
    exact hw hmem
  rw [word?]
  simp [hne "inf" (by decide), hne "infinity" (by decide), hne "nan" (by decide)]

theorem slash_not_mem_of_double? {cs : List Char} {x : Double} (h : double? cs = some x) :
    '/' ∉ cs := by
  intro hslash
  have hbody := slash_mem_takeSign (mem_trimBy (p := isPadding) hslash (by decide))
  rw [double?] at h
  simp only [unpadded, word?_slash hbody, decimal?_slash hbody] at h
  exact nomatch h

theorem ne_nil_of_double? {cs : List Char} {x : Double} (h : double? cs = some x) : cs ≠ [] := by
  rintro rfl
  exact nomatch h

end FactorForest.Literal
