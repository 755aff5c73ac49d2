import FactorForest.Proofs.Archive.Stepwise

set_option autoImplicit false

namespace FactorForest.Archive

/-- Wherever the reader succeeds, it has used a part of the bytes on which it depends alone. -/
def Delimited {α : Type} (r : Reader α) : Prop :=
  ∀ (bound : Nat) (bytes : List UInt8) (a : α) (rest : List UInt8),
    r.start bound bytes = (.ok a, rest) → ∃ used, bytes = used ++ rest ∧
      (∀ more, r.start bound (used ++ more) = (.ok a, more)) ∧
      ∀ short, short <+: used → short ≠ used →
        ∃ n k, k < n ∧ (r.start bound short).1 = .error (.truncated n k)

namespace Delimited

variable {α β : Type}

theorem still {r : Reader α} (h : ∀ bound bytes a rest, r.start bound bytes = (.ok a, rest) →
    rest = bytes ∧ ∀ more, r.start bound more = (.ok a, more)) : Delimited r := by
  intro bound bytes a rest hr
  obtain ⟨rfl, hmore⟩ := h bound bytes a rest hr
  refine ⟨[], rfl, hmore, ?_⟩
  intro short hs hne
  exact absurd (List.prefix_nil.1 hs) hne

theorem pure (a : α) : Delimited (pure a) := by
  apply still
  intro _ _ _ _ h
  cases h
  exact ⟨rfl, fun _ => rfl⟩

theorem throw (e : Fault) : Delimited (throw e : Reader α) :=
  fun _ _ _ _ h => nomatch h

theorem take (n : Nat) : Delimited (Reader.take n) := by
  intro bound bytes front rest h
  obtain ⟨hlen, hbytes⟩ := Reader.start_take_eq_ok_iff.1 h
  refine ⟨front, hbytes, fun more => Reader.start_take_append hlen more, ?_⟩
  intro short hs hne
  have hlt : short.length < n := by
    have hle := hs.length_le
    have hl : short.length ≠ front.length := fun he => hne (hs.eq_of_length he)
    omega
  refine ⟨n, short.length, hlt, ?_⟩
  rw [Reader.start_take, List.take_of_length_le (Nat.le_of_lt hlt), if_neg (Nat.ne_of_lt hlt)]

theorem bind {r : Reader α} {f : α → Reader β} (hr : Delimited r) (hf : ∀ a, Delimited (f a)) :
    Delimited (r >>= f) := by
  intro bound bytes b rest h
  obtain ⟨a, mid, ha, hb⟩ := Reader.start_bind_eq_ok_iff.1 h
  obtain ⟨front, hfront, hmore, hshort⟩ := hr bound bytes a mid ha
  obtain ⟨back, hback, hmore', hshort'⟩ := hf a bound mid b rest hb
  refine ⟨front ++ back, by rw [hfront, hback, List.append_assoc], ?_, ?_⟩
  · intro more
    rw [List.append_assoc, Reader.start_bind_ok (hmore _)]
    exact hmore' more
  · intro short hs hne
    have hf' : front <+: front ++ back := List.prefix_append front back
    -- the cut falls into what the first step uses, or into what the second one does
    by_cases hlen : short.length < front.length
    · have hs' := List.prefix_of_prefix_length_le hs hf' (Nat.le_of_lt hlen)
      obtain ⟨n, k, hlt, he⟩ := hshort short hs' fun h => Nat.lt_irrefl _ (h ▸ hlen)
      exact ⟨n, k, hlt, Reader.start_bind_error he f⟩
    · obtain ⟨cut, rfl⟩ := List.prefix_of_prefix_length_le hf' hs (Nat.le_of_not_lt hlen)
      have hcut := (List.prefix_append_right_inj front).1 hs
      rw [Reader.start_bind_ok (hmore cut)]
      exact hshort' cut hcut fun h => hne (by rw [h])

theorem number (width : Nat) : Delimited (Reader.number width) :=
  (take width).bind fun _ => pure _

theorem expect (t : Tag) : Delimited (Reader.expect t) := by
  refine (number 1).bind fun n => ?_
  split
  · exact (throw _ : Delimited (MonadExcept.throw _ : Reader Unit)).bind pure
  · exact pure ()

theorem payload (n : Nat) : Delimited (Reader.payload n) := by
  have hread : Delimited (read : Reader Nat) := by
    apply still
    intro _ _ _ _ h
    cases h
    exact ⟨rfl, fun _ => rfl⟩
  refine hread.bind fun bound => ?_
  split
  · exact take n
  · exact throw _

end Delimited

theorem Stepwise.delimited {α : Type} {r : Reader α} (h : Stepwise r) : Delimited r := by
  induction h with
  | pure a => exact .pure a
  | throw he => exact .throw _
  | take n => exact .take n
  | counted ht _ ih =>
    exact (Delimited.expect _).bind fun _ => (Delimited.number 8).bind fun n =>
      (Delimited.payload _).bind ih
  | bind _ _ ihr ihf => exact ihr.bind ihf

end FactorForest.Archive
