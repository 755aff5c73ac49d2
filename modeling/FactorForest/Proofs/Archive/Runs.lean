import FactorForest.Proofs.Archive.ReadBack

set_option autoImplicit false

namespace FactorForest.Archive

theorem littleEndian_ofLittleEndian (bytes : List UInt8) :
    littleEndian bytes.length (Reader.ofLittleEndian bytes) = bytes := by
  induction bytes with
  | nil => rfl
  | cons b bs ih =>
    have hb := b.toNat_lt
    have hm : (b.toNat + 256 * Reader.ofLittleEndian bs) % 256 = b.toNat := by omega
    have hd : (b.toNat + 256 * Reader.ofLittleEndian bs) / 256 = Reader.ofLittleEndian bs := by
      omega
    rw [List.length_cons, Reader.ofLittleEndian, littleEndian, hm, hd, ih, UInt8.ofNat_toNat]

theorem ofLittleEndian_lt (bytes : List UInt8) :
    Reader.ofLittleEndian bytes < 256 ^ bytes.length := by
  induction bytes with
  | nil => exact Nat.one_pos
  | cons b bs ih =>
    have hb := b.toNat_lt
    rw [Reader.ofLittleEndian, List.length_cons, Nat.pow_succ']
    omega

namespace Reader

variable {α β : Type} {bound : Nat} {bytes rest : List UInt8}

theorem start_throw (e : Fault) : (throw e : Reader α).start bound bytes = (.error e, bytes) := rfl

theorem start_bind_eq_ok_iff {r : Reader α} {f : α → Reader β} {b : β} :
    (r >>= f).start bound bytes = (.ok b, rest) ↔
      ∃ a mid, r.start bound bytes = (.ok a, mid) ∧ (f a).start bound mid = (.ok b, rest) := by
  rw [start_bind]
  cases r.start bound bytes with
  | mk res mid => cases res <;> simp

theorem start_checked_eq_ok_iff {x : Except Fault α} {a : α} :
    (checked x).start bound bytes = (.ok a, rest) ↔ x = .ok a ∧ rest = bytes := by
  cases x with
  | error e => simp [checked, start_throw]
  | ok b => simp [checked, start_pure, eq_comm]

theorem start_guarded_eq_ok_iff {c : Prop} [Decidable c] {e : Fault} {next : Unit → Reader α}
    {a : α} :
    (if c then throw e >>= next else next ()).start bound bytes = (.ok a, rest) ↔
      ¬ c ∧ (next ()).start bound bytes = (.ok a, rest) := by
  by_cases hc : c
  · simp [hc, start_bind, start_throw]
  · simp [hc]

theorem start_take_eq_ok_iff {n : Nat} {front : List UInt8} :
    (take n).start bound bytes = (.ok front, rest) ↔
      front.length = n ∧ bytes = front ++ rest := by
  constructor
  · intro h
    rw [start_take] at h
    split at h
    · rename_i hl
      cases h
      exact ⟨hl, (List.take_append_drop n bytes).symm⟩
    · exact absurd h (by simp)
  · rintro ⟨hl, rfl⟩
    exact start_take_append hl rest

theorem start_payload_eq_ok_iff {n : Nat} {front : List UInt8} :
    (payload n).start bound bytes = (.ok front, rest) ↔
      n < bound ∧ front.length = n ∧ bytes = front ++ rest := by
  rw [payload, start_bind_ok start_read]
  by_cases hn : n < bound
  · rw [if_pos hn, start_take_eq_ok_iff]
    exact (and_iff_right hn).symm
  · rw [if_neg hn, start_throw]
    simp [hn]

theorem start_number_eq_ok_iff {width n : Nat} :
    (number width).start bound bytes = (.ok n, rest) ↔
      n < 256 ^ width ∧ bytes = littleEndian width n ++ rest := by
  constructor
  · intro h
    obtain ⟨front, mid, ht, hp⟩ := start_bind_eq_ok_iff.1 h
    obtain ⟨rfl, rfl⟩ := start_take_eq_ok_iff.1 ht
    cases hp
    exact ⟨ofLittleEndian_lt front, by rw [littleEndian_ofLittleEndian]⟩
  · rintro ⟨hn, rfl⟩
    exact start_number hn rest

theorem start_expect_eq_ok_iff {t : Tag} {u : Unit} :
    (expect t).start bound bytes = (.ok u, rest) ↔ bytes = UInt8.ofNat t.number :: rest := by
  have hb : littleEndian 1 t.number = [UInt8.ofNat t.number] := by cases t <;> rfl
  have ht : t.number < 256 ^ 1 := by cases t <;> decide
  rw [expect, start_bind_eq_ok_iff]
  constructor
  · rintro ⟨n, mid, hn, h⟩
    obtain ⟨hne, h⟩ := start_guarded_eq_ok_iff.1 h
    cases h
    rw [not_not.1 hne] at hn
    exact (start_number_eq_ok_iff.1 hn).2.trans (congrArg (· ++ rest) hb)
  · rintro rfl
    refine ⟨t.number, rest, start_number_eq_ok_iff.2 ⟨ht, (congrArg (· ++ rest) hb).symm⟩, ?_⟩
    exact start_guarded_eq_ok_iff.2 ⟨not_not.2 rfl, rfl⟩

end Reader

/-- Whatever the bytes are, a value that the reader gives has the property. -/
def Yields {α : Type} (bound : Nat) (r : Reader α) (P : α → Prop) : Prop :=
  ∀ bytes a rest, r.start bound bytes = (.ok a, rest) → P a

namespace Yields

variable {α β : Type} {bound : Nat} {P : α → Prop} {Q : β → Prop}

theorem any (r : Reader α) : Yields bound r fun _ => True := fun _ _ _ _ => trivial

theorem mono {r : Reader α} {P' : α → Prop} (h : Yields bound r P) (hp : ∀ a, P a → P' a) :
    Yields bound r P' :=
  fun bytes a rest hr => hp a (h bytes a rest hr)

theorem and {r : Reader α} {P' : α → Prop} (h : Yields bound r P) (h' : Yields bound r P') :
    Yields bound r fun a => P a ∧ P' a :=
  fun bytes a rest hr => ⟨h bytes a rest hr, h' bytes a rest hr⟩

theorem pure {a : α} (h : P a) : Yields bound (pure a) P := by
  intro _ b _ hr
  cases hr
  exact h

theorem checked {x : Except Fault α} (h : ∀ a, x = .ok a → P a) :
    Yields bound (Reader.checked x) P :=
  fun _ a _ hr => h a (Reader.start_checked_eq_ok_iff.1 hr).1

theorem bind {r : Reader α} {f : α → Reader β} (hr : Yields bound r P)
    (hf : ∀ a, P a → Yields bound (f a) Q) : Yields bound (r >>= f) Q := by
  intro bytes b rest h
  obtain ⟨a, mid, ha, hb⟩ := Reader.start_bind_eq_ok_iff.1 h
  exact hf a (hr bytes a mid ha) mid b rest hb

theorem after {r : Reader α} {f : α → Reader β} (hf : ∀ a, Yields bound (f a) Q) :
    Yields bound (r >>= f) Q :=
  (any r).bind fun a _ => hf a

theorem guarded {c : Prop} [Decidable c] {e : Fault} {next : Unit → Reader α}
    (h : ¬ c → Yields bound (next ()) P) :
    Yields bound (if c then throw e >>= next else next ()) P := by
  intro bytes a rest hr
  obtain ⟨hc, hr⟩ := Reader.start_guarded_eq_ok_iff.1 hr
  exact h hc bytes a rest hr

end Yields
end FactorForest.Archive
