import FactorForest.Fault

set_option autoImplicit false

namespace FactorForest

variable {α β : Type}

theorem pure_eq_ok_iff {a b : α} : (pure a : Except Fault α) = .ok b ↔ b = a :=
  ⟨fun h => (Except.ok.inj h).symm, fun h => congrArg Except.ok h.symm⟩

theorem map_eq_ok_iff {r : Except Fault α} {f : α → β} {b : β} :
    r.map f = .ok b ↔ ∃ a, r = .ok a ∧ f a = b := by
  cases r <;> simp [Except.map]

theorem bind_eq_ok_iff {r : Except Fault α} {f : α → Except Fault β} {b : β} :
    (r >>= f) = .ok b ↔ ∃ a, r = .ok a ∧ f a = .ok b := by
  cases r <;> simp [bind, Except.bind]

theorem guarded_eq_ok_iff {c : Prop} [Decidable c] {e : Fault} {next : Unit → Except Fault β}
    {b : β} :
    (if c then (throw e : Except Fault Unit) >>= next else next ()) = .ok b ↔
      ¬ c ∧ next () = .ok b := by
  by_cases hc : c
  · simp [hc, throw, throwThe, MonadExceptOf.throw, bind, Except.bind]
  · simp [hc]

namespace Fault

variable {f : Fault}

theorem writable_natCast {n : Nat} : writable n ↔ n < 10 ^ writtenDigits := by
  rw [writable, Int.natAbs_natCast, decide_eq_true_iff]

theorem not_writable_pow : ¬ writable (10 ^ writtenDigits) := by
  simp [writable, Int.natAbs_pow]

theorem writable_of_natAbs_lt {n : Int} (h : n.natAbs < 2 ^ 64) : writable n := by
  have hdigits : 64 ≤ writtenDigits := by
    rw [writtenDigits]
    decide
  have hbig : 2 ^ 64 ≤ 10 ^ writtenDigits :=
    Nat.le_trans (Nat.pow_le_pow_left (by decide) 64) (Nat.pow_le_pow_right (by decide) hdigits)
  exact decide_eq_true (Nat.lt_of_lt_of_le h hbig)

theorem writeOut_one {n : Int} (h : writable n) (text : String) :
    writeOut [n] text = .ok text := by
  simp [writeOut, h]

theorem told_of_writable (h : ∀ n ∈ f.numbers, writable n) : f.told = f :=
  if_pos (List.all_eq_true.2 h)

theorem told_of_not_writable {n : Int} (hn : n ∈ f.numbers) (h : ¬ writable n) :
    f.told = .hugeNumber :=
  if_neg fun hall => h (List.all_eq_true.1 hall n hn)

theorem told_eq_or (f : Fault) : f.told = f ∨ f.told = .hugeNumber := by
  by_cases h : f.numbers.all writable
  · exact .inl (if_pos h)
  · exact .inr (if_neg h)

theorem kind_told_of_value (h : f.kind = .value) : f.told.kind = .value := by
  rcases f.told_eq_or with ht | ht
  · rw [ht, h]
  · rw [ht]
    rfl

end Fault

theorem exists_ok_of_any {ε : Type} {r : Except ε α} {p : α → Bool} (h : r.toOption.any p) :
    ∃ a, r = .ok a ∧ p a := by
  cases r with
  | error e => exact nomatch h
  | ok a => exact ⟨a, rfl, h⟩

end FactorForest
