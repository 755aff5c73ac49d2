import FactorForest.Proofs.Archive.Faults
import FactorForest.Proofs.Checkpoint.Stepwise

set_option autoImplicit false

namespace FactorForest.Checkpoint

open Archive

theorem tame_readAll : Tame readAll := by
  rw [readAll_eq]
  exact stepwise_readSections.tame.bind fun r => Tame.get.bind fun _ =>
    .guarded rfl (.guarded rfl (.pure r))

/-- Loading gives a model and its graph or fails with a fault of the archive, unless the bytes hold
a text or a table that is said to fill as many bytes as a file cannot have. -/
theorem load_expected (bytes : List UInt8) :
    (∃ m g, load bytes = .ok (m, g)) ∨
      ∃ e, load bytes = .error e ∧
        (e.kind = .archive ∨ e = .byteCountRange ∧ Overlong fileCountBound bytes) := by
  have h := (tame_readAll fileCountBound bytes).2
  rw [load]
  cases hr : (readAll.start fileCountBound bytes).1 with
  | ok r => exact .inl ⟨r.1, r.2, rfl⟩
  | error e => exact .inr ⟨e, rfl, h e hr⟩

/-- Bytes that begin like a checkpoint of an empty model with one name, the length of which is
`2 ^ 63`. -/
def endlessName : List UInt8 :=
  (header ++ listLength 0 ++ listLength 0 ++ listLength 0 ++ listLength 1 ++
    field .str (littleEndian 8 (2 ^ 63))).bytes

/-- The exception does occur: a length that is too large is no fault of the archive. -/
theorem load_endlessName :
    ¬ ∀ bytes, (∃ m g, load bytes = .ok (m, g)) ∨ ∃ e, load bytes = .error e ∧ e.kind = .archive := by
  intro h
  have hl : load endlessName = .error .byteCountRange := by decide +kernel
  rcases h endlessName with ⟨m, g, hok⟩ | ⟨e, he, hk⟩
  · rw [hl] at hok
    exact nomatch hok
  · rw [hl] at he
    cases he
    exact nomatch hk

end FactorForest.Checkpoint
