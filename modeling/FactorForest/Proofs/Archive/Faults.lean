import FactorForest.Proofs.Archive.Stepwise

/-!
How reading can fail. Every reader leaves a part of its bytes unread, and its faults are faults of
the archive, with one exception: a text or a table whose stored count asks for more bytes than can
be asked for at once.
-/

set_option autoImplicit false

namespace FactorForest.Archive

/-- Somewhere in the bytes begins a text or a table that is said to fill `bound` bytes or more. -/
def Overlong (bound : Nat) (bytes : List UInt8) : Prop :=
  ∃ (t : Tag) (unit count : Nat) (tail : List UInt8), t.unitBytes? = some unit ∧
    count < 2 ^ 64 ∧ (field t (littleEndian 8 count)).bytes ++ tail <:+ bytes ∧
      bound ≤ count * unit

theorem Overlong.of_suffix {bound : Nat} {bytes rest : List UInt8} (h : rest <:+ bytes)
    (ho : Overlong bound rest) : Overlong bound bytes := by
  obtain ⟨t, unit, count, tail, ht, hc, hs, hb⟩ := ho
  exact ⟨t, unit, count, tail, ht, hc, hs.trans h, hb⟩

/-- The faults that reading may end in. -/
def Expected (bound : Nat) (bytes : List UInt8) (e : Fault) : Prop :=
  e.kind = .archive ∨ e = .byteCountRange ∧ Overlong bound bytes

theorem Expected.of_suffix {bound : Nat} {bytes rest : List UInt8} {e : Fault}
    (h : rest <:+ bytes) (he : Expected bound rest e) : Expected bound bytes e :=
  he.imp_right fun ⟨hr, ho⟩ => ⟨hr, ho.of_suffix h⟩

def Tame {α : Type} (r : Reader α) : Prop :=
  ∀ (bound : Nat) (bytes : List UInt8), (r.start bound bytes).2 <:+ bytes ∧
    ∀ e, (r.start bound bytes).1 = .error e → Expected bound bytes e

namespace Tame

variable {α β : Type}

theorem pure (a : α) : Tame (pure a) := fun _ bytes => ⟨List.suffix_refl bytes, nofun⟩

theorem throw {e : Fault} (he : e.kind = .archive) : Tame (throw e : Reader α) := by
  intro bound bytes
  refine ⟨List.suffix_refl bytes, fun d hd => ?_⟩
  cases hd
  exact .inl he

theorem get : Tame (get : Reader (List UInt8)) := fun _ bytes => ⟨List.suffix_refl bytes, nofun⟩

theorem bind_of {r : Reader α} {f : α → Reader β} (hr : Tame r)
    (hf : ∀ bound bytes a mid, r.start bound bytes = (.ok a, mid) →
      ((f a).start bound mid).2 <:+ mid ∧
        ∀ e, ((f a).start bound mid).1 = .error e → Expected bound bytes e) :
    Tame (r >>= f) := by
  intro bound bytes
  have hrun := hr bound bytes
  rw [Reader.start_bind]
  cases hs : r.start bound bytes with
  | mk first mid =>
    rw [hs] at hrun
    cases first with
    | error e =>
      refine ⟨hrun.1, fun d hd => hrun.2 d ?_⟩
      cases hd
      rfl
    | ok a =>
      obtain ⟨hrest, hfault⟩ := hf bound bytes a mid hs
      exact ⟨hrest.trans hrun.1, hfault⟩

theorem bind {r : Reader α} {f : α → Reader β} (hr : Tame r) (hf : ∀ a, Tame (f a)) :
    Tame (r >>= f) := by
  refine hr.bind_of fun bound bytes a mid h => ?_
  have hmid : mid <:+ bytes := by simpa [h] using (hr bound bytes).1
  exact ⟨(hf a bound mid).1, fun e he => ((hf a bound mid).2 e he).of_suffix hmid⟩

theorem guarded {c : Prop} [Decidable c] {e : Fault} {next : Unit → Reader α}
    (he : e.kind = .archive) (h : Tame (next ())) :
    Tame (if c then MonadExcept.throw e >>= next else next ()) := by
  split
  · exact throw he
  · exact h

end Tame

theorem tame_take (n : Nat) : Tame (Reader.take n) := by
  intro bound bytes
  rw [Reader.start_take]
  refine ⟨List.drop_suffix n bytes, fun e he => ?_⟩
  split at he
  · exact nomatch he
  · cases he
    exact .inl rfl

theorem tame_number (width : Nat) : Tame (Reader.number width) :=
  (tame_take width).bind fun _ => .pure _

theorem tame_expect (t : Tag) : Tame (Reader.expect t) :=
  (tame_number 1).bind fun _ => .guarded rfl (.pure ())

theorem tame_counted {α : Type} {t : Tag} {unit : Nat} (ht : t.unitBytes? = some unit)
    {f : List UInt8 → Reader α} (hf : ∀ payload, Tame (f payload)) :
    Tame (Reader.expect t >>= fun _ => Reader.number 8 >>= fun n =>
      Reader.payload (n * unit) >>= f) := by
  -- only here can a reader be asked for more bytes than there may be; the count that asks for them
  -- stands in the archive, behind its tag
  have hhead : Tame (Reader.expect t >>= fun _ => Reader.number 8) :=
    (tame_expect t).bind fun _ => tame_number 8
  rw [← bind_assoc]
  refine hhead.bind_of fun bound bytes n mid h => ?_
  obtain ⟨_, _, htag, hcount⟩ := Reader.start_bind_eq_ok_iff.1 h
  obtain ⟨hn, rfl⟩ := Reader.start_number_eq_ok_iff.1 hcount
  have hbytes := Reader.start_expect_eq_ok_iff.1 htag
  have hmid : mid <:+ bytes := by simpa [h] using (hhead bound bytes).1
  rw [Reader.payload, bind_assoc, Reader.start_bind_ok Reader.start_read]
  by_cases hb : n * unit < bound
  · have hnext := (tame_take (n * unit)).bind hf bound mid
    rw [if_pos hb]
    exact ⟨hnext.1, fun e he => (hnext.2 e he).of_suffix hmid⟩
  · rw [if_neg hb]
    refine ⟨List.suffix_refl mid, fun e he => ?_⟩
    cases he
    exact .inr ⟨rfl, t, unit, n, mid, ht, hn, by rw [hbytes]; exact List.suffix_refl _,
      Nat.le_of_not_lt hb⟩

theorem Stepwise.tame {α : Type} {r : Reader α} (h : Stepwise r) : Tame r := by
  induction h with
  | pure a => exact .pure a
  | throw he => exact .throw he
  | take n => exact tame_take n
  | counted ht _ ih => exact tame_counted ht ih
  | bind _ _ ihr ihf => exact ihr.bind ihf

end FactorForest.Archive
