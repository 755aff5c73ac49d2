import FactorForest.Command.Disk
import FactorForest.Proofs.Fault
import FactorForest.Proofs.Text.Cuts

set_option autoImplicit false

namespace FactorForest.Command

variable {d d' : Disk} {path name other : String} {bytes old : List UInt8}

namespace Disk

/-- The bytes can be read from the path. -/
structure Reads (d : Disk) (path : String) (bytes : List UInt8) : Prop where
  plain : '\x00' ∉ path.toList
  read : d.read path = .ok bytes

/-- A file can be written under the path, and it is one that keeps what is written to it. -/
structure Keeps (d : Disk) (path : String) : Prop where
  plain : '\x00' ∉ path.toList
  named : path.endsWith "/" = false
  target : ∃ place, d.target path = .ok place ∧ place ≠ nullDevice ∧ place ≠ fullDevice

theorem keeps_iff : d.Keeps path ↔ '\x00' ∉ path.toList ∧ path.endsWith "/" = false ∧
    (d.target path).toOption.any fun place => place ≠ nullDevice ∧ place ≠ fullDevice := by
  constructor
  · rintro ⟨hplain, hnamed, place, htarget, hdevices⟩
    rw [htarget]
    exact ⟨hplain, hnamed, decide_eq_true hdevices⟩
  · rintro ⟨hplain, hnamed, htarget⟩
    obtain ⟨place, hplace, hdevices⟩ := exists_ok_of_any htarget
    exact ⟨hplain, hnamed, place, hplace, of_decide_eq_true hdevices⟩

instance (d : Disk) (path : String) : Decidable (d.Keeps path) := decidable_of_iff _ keeps_iff.symm

/-- Where a path leads is a matter of the folders. -/
theorem follow_ok (files : List (List String × List UInt8)) {steps place found : List String}
    (h : d.follow place steps = .ok found) : { d with files }.follow place steps = .ok found := by
  induction steps generalizing place with
  | nil => exact h
  | cons step rest ih =>
    rw [follow] at h ⊢
    by_cases hdot : step = "."
    · rw [if_pos hdot] at h ⊢
      exact ih h
    by_cases hup : step = ".."
    · rw [if_neg hdot, if_pos hup] at h ⊢
      exact ih h
    by_cases hlong : nameLimit < step.utf8ByteSize
    · rw [if_neg hdot, if_neg hup, if_pos hlong] at h
      exact absurd h (by simp)
    rw [if_neg hdot, if_neg hup, if_neg hlong] at h ⊢
    dsimp only at h ⊢
    have hsame : { d with files }.isFolder (place ++ [step]) = d.isFolder (place ++ [step]) := rfl
    rw [hsame]
    split at h
    · rename_i hfolder
      rw [if_pos hfolder]
      exact ih h
    · rename_i hfolder
      rw [if_neg hfolder]
      split at h
      · rename_i hrest
        rw [if_pos hrest]
        exact h
      · split at h <;> exact absurd h (by simp)

theorem locate_ok (files : List (List String × List UInt8)) {steps found : List String}
    (h : d.locate path steps = .ok found) : { d with files }.locate path steps = .ok found := by
  rw [locate] at h ⊢
  split at h
  · exact absurd h (by simp)
  · rename_i hne
    rw [if_neg hne]
    split at h
    · exact absurd h (by simp)
    · rename_i hshort
      rw [if_neg hshort]
      exact follow_ok files h

theorem lookup_filter_ne {place other : List String} (h : other ≠ place)
    (files : List (List String × List UInt8)) :
    (files.filter (·.1 ≠ place)).lookup other = files.lookup other := by
  induction files with
  | nil => rfl
  | cons f files ih =>
    rw [List.lookup_cons]
    by_cases hf : f.1 = place
    · have hne : (other == f.1) = false := beq_eq_false_iff_ne.2 fun he => h (he.trans hf)
      rw [List.filter_cons_of_neg (by simpa using hf), hne]
      exact ih
    · rw [List.filter_cons_of_pos (by simpa using hf), List.lookup_cons, ih]

theorem read_eq_ok_iff :
    d.read path = .ok bytes ↔ ∃ place, d.locate path (pathSteps path) = .ok place ∧
      d.isFolder place = false ∧ d.file? place = some bytes ∧ path.endsWith "/" = false := by
  rw [read]
  cases d.locate path (pathSteps path) with
  | error e => simp
  | ok place =>
    cases hfolder : d.isFolder place with
    | true => simp [hfolder]
    | false =>
      cases hfile : d.file? place with
      | none => simp [hfolder, hfile]
      | some found =>
        cases hnamed : path.endsWith "/" <;> simp [hfolder, hfile]

theorem target_eq_ok_iff {place : List String} : d.target path = .ok place ↔
    asksFolder path = false ∧ d.locate path (pathSteps path) = .ok place ∧
      d.isFolder place = false := by
  rw [target]
  cases asksFolder path with
  | true =>
    cases d.locate path ((pathSteps path).dropLast ++ ["."]) <;> simp
  | false =>
    cases d.locate path (pathSteps path) with
    | error e => simp
    | ok found =>
      cases hfolder : d.isFolder found with
      | true =>
        simp only [Bool.false_eq_true, if_false, hfolder, if_true, true_and]
        constructor
        · exact fun h => nomatch h
        · rintro ⟨he, hplain⟩
          cases he
          exact absurd (hfolder.symm.trans hplain) (by decide)
      | false =>
        simp only [Bool.false_eq_true, if_false, hfolder, true_and]
        exact ⟨fun h => ⟨h, by cases h; exact hfolder⟩, fun h => h.1⟩

theorem write_ok (h : d.Keeps path) (bytes : List UInt8) :
    ∃ place, d.locate path (pathSteps path) = .ok place ∧ d.isFolder place = false ∧
      place ≠ nullDevice ∧ place ≠ fullDevice ∧
      d.write path bytes =
        .ok { d with files := (place, bytes) :: d.files.filter (·.1 ≠ place) } := by
  obtain ⟨place, htarget, hnull, hfull⟩ := h.target
  obtain ⟨-, hplace, hfolder⟩ := target_eq_ok_iff.1 htarget
  refine ⟨place, hplace, hfolder, hnull, hfull, ?_⟩
  rw [write, htarget]
  simp only [hfull, false_and, if_false]

/-- A file that was written reads as it was written, and the files elsewhere as they did. -/
theorem reads_write (h : d.Keeps path) (bytes : List UInt8) :
    ∃ d', d.write path bytes = .ok d' ∧ d'.Reads path bytes ∧
      ∀ other old, d.locate other (pathSteps other) ≠ d.locate path (pathSteps path) →
        d.Reads other old → d'.Reads other old := by
  obtain ⟨place, hplace, hfolder, hnull, hfull, hwrite⟩ := write_ok h bytes
  refine ⟨_, hwrite, ⟨h.plain, read_eq_ok_iff.2 ?_⟩, fun other old hne hother =>
    ⟨hother.plain, read_eq_ok_iff.2 ?_⟩⟩
  · refine ⟨place, locate_ok _ hplace, hfolder, ?_, h.named⟩
    rw [file?, if_neg (not_or.2 ⟨hnull, hfull⟩), List.lookup_cons, beq_self_eq_true]
  · obtain ⟨found, hfound, hplain, hfile, hnamed⟩ := read_eq_ok_iff.1 hother.read
    refine ⟨found, locate_ok _ hfound, hplain, ?_, hnamed⟩
    have hapart : found ≠ place := fun he => hne (hfound.trans (he ▸ hplace.symm))
    rw [file?] at hfile ⊢
    split at hfile
    · rename_i hdevice
      rw [if_pos hdevice]
      exact hfile
    · rename_i hdevice
      rw [if_neg hdevice, List.lookup_cons, beq_eq_false_iff_ne.2 hapart]
      exact (lookup_filter_ne hapart d.files).trans hfile

theorem of_write (h : d.write path bytes = .ok d') :
    (∃ place, d.target path = .ok place) ∧ ∃ files, d' = { d with files } := by
  rw [write] at h
  split at h
  · exact absurd h (by simp)
  · rename_i place hplace
    split at h
    · exact absurd h (by simp)
    · cases h
      exact ⟨⟨place, hplace⟩, _, rfl⟩

theorem Keeps.with_files (h : d.Keeps path) (files : List (List String × List UInt8)) :
    { d with files }.Keeps path := by
  obtain ⟨place, htarget, hdevices⟩ := h.target
  obtain ⟨hasks, hplace, hfolder⟩ := target_eq_ok_iff.1 htarget
  exact ⟨h.plain, h.named, place, target_eq_ok_iff.2 ⟨hasks, locate_ok files hplace, hfolder⟩,
    hdevices⟩

theorem getLast?_follow {above place found : List String} {last : String}
    (h : d.follow place (above ++ [last]) = .ok found) (hdot : last ≠ ".") (hup : last ≠ "..") :
    found.getLast? = some last := by
  induction above generalizing place with
  | nil =>
    rw [List.nil_append, follow, if_neg hdot, if_neg hup] at h
    split at h
    · exact absurd h (by simp)
    · have hfound : found = place ++ [last] := by
        dsimp only at h
        split at h
        · exact (Except.ok.inj h).symm
        · exact (Except.ok.inj ((if_pos rfl).symm.trans h)).symm
      rw [hfound, List.getLast?_concat]
  | cons step above ih =>
    rw [List.cons_append, follow] at h
    split at h
    · exact ih h
    split at h
    · exact ih h
    split at h
    · exact absurd h (by simp)
    dsimp only at h
    split at h
    · exact ih h
    · rw [if_neg (by simp)] at h
      split at h <;> exact absurd h (by simp)

end Disk

/-- The name of a table: one step of a path. -/
structure Tabular (name : String) : Prop where
  step : '/' ∉ name.toList
  ending : ".tsv".toList <:+ name.toList

theorem Tabular.ne_of_not_suffix {text : String} (h : Tabular name) (lead : String)
    (ht : ¬ ".tsv".toList <:+ text.toList) : lead ++ name ≠ text := by
  rintro rfl
  rw [String.toList_append] at ht
  exact ht (h.ending.trans (List.suffix_append _ _))

theorem exists_pathSteps_append (front : String) : ∃ above lead, ∀ name, Tabular name →
    pathSteps (front ++ name) = above ++ [lead ++ name] := by
  obtain ⟨above, lead, hpieces⟩ := Text.exists_pieces_append '/' front.toList
  refine ⟨(above.map String.ofList).filter (· ≠ ""), String.ofList lead, fun name hname => ?_⟩
  have hne : String.ofList lead ++ name ≠ "" := hname.ne_of_not_suffix _ (by decide)
  rw [pathSteps, String.toList_append, hpieces _ hname.step, List.map_append, List.filter_append,
    List.map_singleton, String.ofList_append, String.ofList_toList,
    List.filter_singleton, decide_eq_true hne]
  rfl

theorem exists_inFolder (folder : String) :
    ∃ front, ∀ name, inFolder folder name = front ++ name := by
  by_cases hdot : folder = "."
  · exact ⟨"", fun name => by simp [inFolder, hdot]⟩
  by_cases hnames : pathNames folder = []
  · exact ⟨folder, fun name => by simp [inFolder, hdot, hnames]⟩
  · exact ⟨folder ++ "/", fun name => by simp [inFolder, hdot, hnames]⟩

theorem exists_pathSteps_inFolder (folder : String) : ∃ above lead, ∀ name, Tabular name →
    pathSteps (inFolder folder name) = above ++ [lead ++ name] := by
  obtain ⟨front, hfront⟩ := exists_inFolder folder
  obtain ⟨above, lead, hsteps⟩ := exists_pathSteps_append front
  exact ⟨above, lead, fun name hname => hfront name ▸ hsteps name hname⟩

theorem Tabular.endsWith_inFolder (h : Tabular name) (folder : String) :
    (inFolder folder name).endsWith "/" = false := by
  obtain ⟨front, hfront⟩ := exists_inFolder folder
  rw [hfront, ← String.endsWith_toSlice, String.Slice.endsWith_string_eq_false_iff,
    String.copy_toSlice, String.toList_append]
  intro hslash
  have hshort : "/".toList.length ≤ name.toList.length :=
    Nat.le_trans (by decide) h.ending.length_le
  have hname := List.suffix_of_suffix_length_le hslash (List.suffix_append _ _) hshort
  exact h.step (hname.subset (by decide))

namespace Disk

theorem exists_getLast?_locate (folder : String) : ∃ lead, ∀ (d : Disk) name place, Tabular name →
    d.locate (inFolder folder name) (pathSteps (inFolder folder name)) = .ok place →
      place.getLast? = some (lead ++ name) := by
  obtain ⟨above, lead, hsteps⟩ := exists_pathSteps_inFolder folder
  refine ⟨lead, fun d name place hname h => ?_⟩
  rw [locate, hsteps name hname] at h
  split at h
  · exact absurd h (by simp)
  split at h
  · exact absurd h (by simp)
  exact getLast?_follow h (hname.ne_of_not_suffix lead (by decide))
    (hname.ne_of_not_suffix lead (by decide))

theorem locate_inFolder_ne {folder : String} (hname : Tabular name) (hother : Tabular other)
    (hne : name ≠ other) {place : List String}
    (h : d.locate (inFolder folder name) (pathSteps (inFolder folder name)) = .ok place) :
    d.locate (inFolder folder name) (pathSteps (inFolder folder name)) ≠
      d.locate (inFolder folder other) (pathSteps (inFolder folder other)) := by
  obtain ⟨lead, hlast⟩ := exists_getLast?_locate folder
  intro he
  have hends := (hlast d name place hname h).symm.trans
    (hlast d other place hother (he.symm.trans h))
  have hlists := congrArg String.toList (Option.some.inj hends)
  simp only [String.toList_append] at hlists
  exact hne (String.toList_injective (List.append_cancel_left hlists))

/-- A table that could be written is kept: it is neither of the devices. -/
theorem keeps_of_write {folder : String} (hname : Tabular name)
    (hplain : '\x00' ∉ (inFolder folder name).toList)
    (h : d.write (inFolder folder name) bytes = .ok d') : d.Keeps (inFolder folder name) := by
  obtain ⟨lead, hlast⟩ := exists_getLast?_locate folder
  obtain ⟨⟨place, htarget⟩, -⟩ := of_write h
  have hend := hlast d name place hname (target_eq_ok_iff.1 htarget).2.1
  refine ⟨hplain, hname.endsWith_inFolder folder, place, htarget, ?_, ?_⟩
  · rintro rfl
    exact hname.ne_of_not_suffix lead (by decide) (Option.some.inj hend).symm
  · rintro rfl
    exact hname.ne_of_not_suffix lead (by decide) (Option.some.inj hend).symm

end Disk

end FactorForest.Command
