import FactorForest.Proofs.Archive.Delimited
import FactorForest.Proofs.Checkpoint.Consistency
import FactorForest.Proofs.Checkpoint.Stepwise

set_option autoImplicit false

namespace FactorForest.Checkpoint

open Archive

theorem load_eq_error {bytes : List UInt8} {e : Fault}
    (h : (readSections.start fileCountBound bytes).1 = .error e) : load bytes = .error e := by
  rw [load, readAll_eq]
  exact Reader.start_bind_error h conclude

theorem load_eq_trailing {bytes rest : List UInt8} {r : Model × Graph}
    (h : readSections.start fileCountBound bytes = (.ok r, rest)) (hrest : rest ≠ []) :
    load bytes = .error .trailing := by
  rw [load, readAll_eq, Reader.start_bind_ok h, conclude, Reader.start_bind_ok Reader.start_get,
    if_pos hrest]
  rfl

theorem sections_of_load {bytes : List UInt8} {r : Model × Graph} (h : load bytes = .ok r) :
    readSections.start fileCountBound bytes = (.ok r, []) := by
  obtain ⟨left, hr⟩ := load_eq_ok_iff.1 h
  rw [readAll_eq] at hr
  obtain ⟨r', rest, hs, hc⟩ := Reader.start_bind_eq_ok_iff.1 hr
  rw [conclude, Reader.start_bind_ok Reader.start_get] at hc
  obtain ⟨hrest, hc⟩ := Reader.start_guarded_eq_ok_iff.1 hc
  obtain ⟨-, hc⟩ := Reader.start_guarded_eq_ok_iff.1 hc
  cases hc
  rw [hs, not_not.1 hrest]

/-- Of an accepted checkpoint every shorter part is refused as truncated, and whatever is put behind
it is refused as trailing; both are faults of the archive. -/
theorem load_selfDelimiting {bytes : List UInt8} {m : Model} {g : Graph}
    (h : load bytes = .ok (m, g)) :
    (∀ short, short <+: bytes → short ≠ bytes →
      ∃ n k, k < n ∧ load short = .error (.truncated n k) ∧
        (Fault.truncated n k).kind = .archive) ∧
    ∀ more, more ≠ [] → load (bytes ++ more) = .error .trailing ∧ Fault.trailing.kind = .archive := by
  obtain ⟨used, hused, hmore, hshort⟩ :=
    stepwise_readSections.delimited _ _ _ _ (sections_of_load h)
  rw [List.append_nil] at hused
  subst hused
  constructor
  · intro short hs hne
    obtain ⟨n, k, hlt, he⟩ := hshort short hs hne
    exact ⟨n, k, hlt, load_eq_error he, rfl⟩
  · intro more hne
    exact ⟨load_eq_trailing (hmore more) hne, rfl⟩

theorem load_selfDelimiting_pair : ∃ m g, load (save pairModel pairGraph).bytes = .ok (m, g) ∧
    (∀ short, short <+: (save pairModel pairGraph).bytes →
      short ≠ (save pairModel pairGraph).bytes →
        ∃ n k, k < n ∧ load short = .error (.truncated n k) ∧
          (Fault.truncated n k).kind = .archive) ∧
    ∀ more, more ≠ [] → load ((save pairModel pairGraph).bytes ++ more) = .error .trailing ∧
      Fault.trailing.kind = .archive := by
  have hloads : (load (save pairModel pairGraph).bytes).toOption.any fun _ => true := by
    decide +kernel
  obtain ⟨⟨m, g⟩, hl, -⟩ := exists_ok_of_any hloads
  exact ⟨m, g, hl, load_selfDelimiting hl⟩

end FactorForest.Checkpoint
