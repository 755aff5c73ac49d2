import FactorForest.Command.Script
import FactorForest.Proofs.Command.Disk

set_option autoImplicit false

namespace FactorForest.Command

namespace Script

variable {α β : Type} {d d' : Disk} {path : String} {bytes : List UInt8}

theorem Played.eq_of_result {p : Played α} {a : α} (h : p.result = .ok a) :
    p = ⟨p.said, p.disk, .ok a⟩ := by rw [← h]

theorem play_bind (s : Script α) (f : α → Script β) (said : String) (d : Disk) :
    (s >>= f).play said d = match s.play said d with
      | ⟨saidMid, mid, .ok a⟩ => (f a).play saidMid mid
      | ⟨saidMid, mid, .error e⟩ => ⟨saidMid, mid, .error e⟩ := by
  change (s.bind f).play said d = _
  induction s generalizing said d with
  | done r => cases r <;> rfl
  | say text next ih => exact ih _ d
  | read p next ih => exact ih _ said d
  | write p b next ih =>
    rw [bind, play, play]
    cases d.write p b with
    | ok d' => exact ih _ said d'
    | error e => exact ih _ said d
  | makeFolder p next ih =>
    rw [bind, play, play]
    cases d.makeFolder p with
    | ok d' => exact ih _ said d'
    | error e => exact ih _ said d

theorem play_bind_ok {s : Script α} {said said' : String} {a : α}
    (h : s.play said d = ⟨said', d', .ok a⟩) (f : α → Script β) :
    (s >>= f).play said d = (f a).play said' d' := by
  rw [play_bind, h]

theorem exists_play_of_bind {s : Script α} {f : α → Script β} {said said' : String} {b : β}
    (h : (s >>= f).play said d = ⟨said', d', .ok b⟩) : ∃ saidMid mid a,
      s.play said d = ⟨saidMid, mid, .ok a⟩ ∧ (f a).play saidMid mid = ⟨said', d', .ok b⟩ := by
  rw [play_bind] at h
  cases hs : s.play said d with
  | mk saidMid mid r =>
    rw [hs] at h
    cases r with
    | ok a => exact ⟨saidMid, mid, a, rfl, h⟩
    | error e => exact nomatch h

/-- What was said before comes before what is said, and that is all there is to it. -/
theorem play_said (s : Script α) (said : String) (d : Disk) :
    s.play said d = { s.play "" d with said := said ++ (s.play "" d).said } := by
  induction s generalizing said d with
  | done r => simp [play]
  | say text next ih =>
    rw [play, play, ih, ih ("" ++ text)]
    simp [String.append_assoc]
  | read p next ih => exact ih _ said d
  | write p b next ih =>
    rw [play, play]
    cases d.write p b with
    | ok d' => exact ih _ said d'
    | error e => exact ih _ said d
  | makeFolder p next ih =>
    rw [play, play]
    cases d.makeFolder p with
    | ok d' => exact ih _ said d'
    | error e => exact ih _ said d

theorem play_pure (a : α) (said : String) (d : Disk) :
    (pure a : Script α).play said d = ⟨said, d, .ok a⟩ := rfl

theorem play_line (text said : String) (d : Disk) :
    (line text).play said d = ⟨said ++ (text ++ "\n"), d, .ok ()⟩ := rfl

theorem play_guardPath (h : '\x00' ∉ path.toList) (said : String) :
    (guardPath path).play said d = ⟨said, d, .ok ()⟩ := by
  rw [guardPath, if_neg (by simpa using h)]
  rfl

theorem play_readFile (h : d.Reads path bytes) (said : String) :
    (readFile path).play said d = ⟨said, d, .ok bytes⟩ := by
  rw [readFile, play_bind_ok (play_guardPath h.plain said), play, h.read]
  rfl

theorem play_writeFile (h : '\x00' ∉ path.toList) (hw : d.write path bytes = .ok d')
    (said : String) : (writeFile path bytes).play said d = ⟨said, d', .ok ()⟩ := by
  rw [writeFile, play_bind_ok (play_guardPath h said), play, hw]
  rfl

theorem play_folder (h : '\x00' ∉ path.toList) (hnames : pathNames path ≠ [])
    (hmade : d.makeFolder (plainPath path) = .ok d') (said : String) :
    (folder path).play said d = ⟨said, d', .ok ()⟩ := by
  obtain ⟨name, outer, hlist⟩ := List.exists_cons_of_ne_nil (mt List.reverse_eq_nil_iff.1 hnames)
  have hwhole : pathOf (pathRoot path) (name :: outer).reverse = plainPath path := by
    rw [← hlist, List.reverse_reverse, plainPath]
  rw [folder, play_bind_ok (play_guardPath h said), hlist]
  simp only [foldersUp, hwhole, play, hmade]
  rfl

theorem of_play_guardPath {said said' : String} {u : Unit}
    (h : (guardPath path).play said d = ⟨said', d', .ok u⟩) : '\x00' ∉ path.toList ∧ d' = d := by
  rw [guardPath] at h
  split at h
  · exact nomatch h
  · rename_i hplain
    cases h
    exact ⟨by simpa using hplain, rfl⟩

theorem of_play_writeFile {said said' : String} {u : Unit}
    (h : (writeFile path bytes).play said d = ⟨said', d', .ok u⟩) :
    '\x00' ∉ path.toList ∧ d.write path bytes = .ok d' := by
  obtain ⟨saidMid, mid, _, hguard, hrest⟩ := exists_play_of_bind h
  obtain ⟨hplain, rfl⟩ := of_play_guardPath hguard
  rw [play] at hrest
  cases hw : mid.write path bytes with
  | error e =>
    rw [hw] at hrest
    exact nomatch hrest
  | ok written =>
    rw [hw] at hrest
    cases hrest
    exact ⟨hplain, rfl⟩

theorem play_ofExcept {r : Except Fault α} {a : α} (h : r = .ok a) (said : String) (d : Disk) :
    (ofExcept r).play said d = ⟨said, d, .ok a⟩ := by
  rw [h]
  rfl

/-- The same was done and came of it, whatever was said. -/
structure SameOutcome (a b : Played α) : Prop where
  disk : a.disk = b.disk
  result : a.result = b.result

theorem sameOutcome_said (s : Script α) (said said' : String) (d : Disk) :
    SameOutcome (s.play said d) (s.play said' d) := by
  rw [s.play_said said, s.play_said said']
  exact ⟨rfl, rfl⟩

end Script
end FactorForest.Command
