import FactorForest.Command.Run
import FactorForest.Proofs.Command.Script
import FactorForest.Proofs.Report

set_option autoImplicit false

namespace FactorForest.Command

open Script

variable {d d' : Disk} {folder name path said said' : String} {bytes : List UInt8} {r : Report}
  {fs : List (String × Report)} {g : Graph} {precision : Int} {u : Unit}

/-- A report that came to its end is what can be read from a path. -/
structure Disk.Holds (d : Disk) (path : String) (r : Report) : Prop where
  reads : d.Reads path (Text.Utf8.encode r.text)
  whole : r.fault = none

/-- The four reports of a graph stand in a folder. -/
structure Disk.Reported (d : Disk) (folder : String) (g : Graph) (precision : Int) : Prop where
  beliefs : d.Holds (inFolder folder "beliefs.tsv") (Report.beliefs g precision)
  samples : d.Holds (inFolder folder "samples.tsv") (Report.samples g)
  colors : d.Holds (inFolder folder "colors.tsv") (Report.colors g)
  treeStates : d.Holds (inFolder folder "tree_state.tsv") (Report.treeStates g)

/-- The folder is there or can be made, and then every report has a place in it. -/
def Disk.Admits (d : Disk) (folder : String) : Prop :=
  ∃ said made, (Script.folder folder).play "" d = ⟨said, made, .ok ()⟩ ∧
    ∀ name ∈ ["beliefs.tsv", "samples.tsv", "colors.tsv", "tree_state.tsv"],
      made.Keeps (inFolder folder name)

theorem Disk.admits_of_isFolder {place : List String} (hplain : '\x00' ∉ folder.toList)
    (hnames : pathNames folder ≠ [])
    (hplace : d.locate (plainPath folder) (pathSteps (plainPath folder)) = .ok place)
    (hfolder : d.isFolder place)
    (hkeeps : ∀ name ∈ ["beliefs.tsv", "samples.tsv", "colors.tsv", "tree_state.tsv"],
      d.Keeps (inFolder folder name)) : d.Admits folder := by
  have hmade : d.makeFolder (plainPath folder) = .ok d := by
    rw [makeFolder, hplace]
    exact if_pos hfolder
  exact ⟨"", d, play_folder hplain hnames hmade "", hkeeps⟩

theorem tabular_reportFiles : ∀ f ∈ reportFiles g precision, Tabular f.1 := by
  simp only [reportFiles, List.forall_mem_cons]
  exact ⟨⟨by decide, by decide⟩, ⟨by decide, by decide⟩, ⟨by decide, by decide⟩,
    ⟨by decide, by decide⟩, fun _ h => nomatch h⟩

theorem nodup_reportFiles : ((reportFiles g precision).map (·.1)).Nodup := by
  change ["beliefs.tsv", "samples.tsv", "colors.tsv", "tree_state.tsv"].Nodup
  decide

/-- No report of a graph at the start of a round fails, unless its beliefs have no mass. -/
theorem fault_reportFiles {m : Model} {init : Double} {draws : Draws} {bound : Nat}
    (h : g.Cooccurrence m init draws) (hm : m.Registered) (hs : m.Storable bound)
    (hcolored : g.recolor = g) (hinit : init ≠ .negInfinity) (h0 : 0 ≤ precision)
    (hmax : precision ≤ Report.maxPrecision) :
    ∀ f ∈ reportFiles g precision, f.2.fault = none := by
  simp only [reportFiles, List.forall_mem_cons, Graph.colored_of_recolor hcolored]
  exact ⟨h.fault_beliefs hinit h0 hmax, h.fault_samples hm hs, Report.fault_colors hcolored,
    h.fault_treeStates, fun _ hf => nomatch hf⟩

theorem of_play_writeReport (hname : Tabular name)
    (h : (writeReport (inFolder folder name) r).play said d = ⟨said', d', .ok u⟩) :
    d'.Holds (inFolder folder name) r ∧ ∀ other, Tabular other → other ≠ name → ∀ bytes,
      d.Reads (inFolder folder other) bytes → d'.Reads (inFolder folder other) bytes := by
  obtain ⟨saidMid, mid, _, hfirst, hend⟩ := exists_play_of_bind h
  obtain ⟨hplain, hwrite⟩ := of_play_writeFile hfirst
  obtain ⟨written, hwrite', hreads, hothers⟩ :=
    Disk.reads_write (Disk.keeps_of_write hname hplain hwrite) (Text.Utf8.encode r.text)
  cases hwrite.symm.trans hwrite'
  cases hfault : r.fault with
  | some e =>
    rw [hfault] at hend
    exact nomatch hend
  | none =>
    rw [hfault] at hend
    cases hend
    refine ⟨⟨hreads, hfault⟩, fun other hother hne bytes hold => hothers _ _ ?_ hold⟩
    obtain ⟨place, hplace, -⟩ := Disk.read_eq_ok_iff.1 hold.read
    exact Disk.locate_inFolder_ne hother hname hne hplace

theorem reads_of_writeReports (htables : ∀ f ∈ fs, Tabular f.1) (hname : Tabular name)
    (hne : name ∉ fs.map (·.1))
    (h : (writeReports folder fs).play said d = ⟨said', d', .ok u⟩)
    (hr : d.Reads (inFolder folder name) bytes) : d'.Reads (inFolder folder name) bytes := by
  induction fs generalizing said d with
  | nil =>
    cases h
    exact hr
  | cons f fs ih =>
    obtain ⟨hhead, htail⟩ := List.forall_mem_cons.1 htables
    obtain ⟨hf, hfs⟩ := not_or.1 (mt List.mem_cons.2 hne)
    obtain ⟨saidMid, mid, _, hfirst, hrest⟩ := exists_play_of_bind h
    obtain ⟨-, hothers⟩ := of_play_writeReport hhead hfirst
    exact ih htail hfs hrest (hothers name hname hf bytes hr)

theorem holds_of_writeReports (htables : ∀ f ∈ fs, Tabular f.1) (hnodup : (fs.map (·.1)).Nodup)
    (h : (writeReports folder fs).play said d = ⟨said', d', .ok u⟩) :
    ∀ f ∈ fs, d'.Holds (inFolder folder f.1) f.2 := by
  -- the induction is on the reports that are left: one that was written stays as it is
  induction fs generalizing said d with
  | nil => exact fun _ hf => nomatch hf
  | cons f fs ih =>
    obtain ⟨hhead, htail⟩ := List.forall_mem_cons.1 htables
    obtain ⟨hnew, hrestNodup⟩ := List.nodup_cons.1 hnodup
    obtain ⟨saidMid, mid, _, hfirst, hrest⟩ := exists_play_of_bind h
    obtain ⟨hheld, -⟩ := of_play_writeReport hhead hfirst
    refine List.forall_mem_cons.2 ⟨⟨?_, hheld.whole⟩, ih htail hrestNodup hrest⟩
    exact reads_of_writeReports htail hhead hnew hrest hheld.reads

theorem play_writeReport (hk : d.Keeps path) (hr : r.fault = none) (said : String) :
    ∃ files, (writeReport path r).play said d = ⟨said, { d with files }, .ok ()⟩ := by
  obtain ⟨written, hwrite, -⟩ := Disk.reads_write hk (Text.Utf8.encode r.text)
  obtain ⟨-, files, rfl⟩ := Disk.of_write hwrite
  refine ⟨files, ?_⟩
  rw [writeReport, play_bind_ok (play_writeFile hk.plain hwrite said), hr]
  rfl

theorem play_writeReports (hk : ∀ f ∈ fs, d.Keeps (inFolder folder f.1))
    (hr : ∀ f ∈ fs, f.2.fault = none) (said : String) :
    ∃ files, (writeReports folder fs).play said d = ⟨said, { d with files }, .ok ()⟩ := by
  induction fs generalizing d with
  | nil => exact ⟨d.files, rfl⟩
  | cons f fs ih =>
    obtain ⟨hkeeps, hkeepsRest⟩ := List.forall_mem_cons.1 hk
    obtain ⟨hwhole, hwholeRest⟩ := List.forall_mem_cons.1 hr
    obtain ⟨files, hfirst⟩ := play_writeReport hkeeps hwhole said
    obtain ⟨rest, hrest⟩ := ih (d := { d with files })
      (fun f hf => (hkeepsRest f hf).with_files files) hwholeRest
    exact ⟨rest, (play_bind_ok hfirst _).trans hrest⟩

end FactorForest.Command
