import FactorForest.Proofs.Command.Reports
import FactorForest.Proofs.Model.Text

/-!
The reports of a model and those of its checkpoint. The two ways to a graph meet before the first
report is written: what the checkpoint brings back is the graph that the model makes, with the
colours that the loader gives it.
-/

set_option autoImplicit false

namespace FactorForest.Command

open Script

variable {d d' : Disk} {source : Source} {input saved : String} {bytes : List UInt8}
  {settings : Settings} {draws : Draws} {m : Model} {g : Graph} {ws : List Model.Warning}

theorem Disk.Reads.ne_empty {path : String} (h : d.Reads path bytes) : path ≠ "" := by
  rintro rfl
  exact nomatch h.read

theorem given?_some {path : String} (h : path ≠ "") : given? (some path) = some path :=
  Option.filter_some_pos (decide_eq_true h)

/-- The part of an export that a graph and the precision decide. -/
def exportGraph (outDir : Option String) (precision : Int) (g : Graph) : Script Unit := do
  let folder := plainPath (← pathGiven outDir)
  Script.folder folder
  writeReports folder (reportFiles g precision)
  Script.line ("\nReports written to: " ++ folder)

theorem play_obtain_model (hi : source.input = some input) (hr : d.Reads input bytes)
    (hparse : Model.parseFile bytes settings.defaultArity = .ok (m, ws))
    (hg : Graph.ofModel m settings.beliefInit draws = .ok g) (said : String) :
    (obtain source none settings draws).play said d =
      ⟨said ++ ("Loading model from: " ++ input ++ "\n"), d, .ok (m, g)⟩ := by
  have hnone : given? none = none := rfl
  have hgiven : given? source.input = some input := hi ▸ given?_some hr.ne_empty
  simp only [obtain, hnone, hgiven]
  rw [play_bind_ok (play_line _ said d), play_bind_ok (play_readFile hr _),
    play_bind_ok (play_ofExcept hparse _ d), play_bind_ok (play_ofExcept hg _ d)]
  rfl

theorem play_obtain_checkpoint (hr : d.Reads saved bytes)
    (hload : Checkpoint.load bytes = .ok (m, g)) (said : String) :
    (obtain source (some saved) settings draws).play said d =
      ⟨said ++ ("Loading checkpoint from: " ++ saved ++ "\n"), d, .ok (m, g)⟩ := by
  simp only [obtain, given?_some hr.ne_empty]
  rw [play_bind_ok (play_line _ said d), play_bind_ok (play_readFile hr _), play_ofExcept hload _ d]

theorem play_report {outDir : Option String} {p : Option (Option Int)} {said said' : String}
    (h : (obtain source source.checkpoint settings draws).play said d = ⟨said', d, .ok (m, g)⟩) :
    (perform (.report source outDir p) settings draws).play said d =
      (exportGraph outDir settings.precision g).play said' d :=
  play_bind_ok h _

theorem play_checkpoint {said said' output : String} (hplain : '\x00' ∉ output.toList)
    (h : (obtain source none settings draws).play said d = ⟨said', d, .ok (m, g)⟩)
    (hw : (Checkpoint.save m g).fault = none)
    (hd : d.write output (Checkpoint.save m g).bytes = .ok d') :
    (perform (.checkpoint source (some output)) settings draws).play said d =
      ⟨said' ++ ("\nCheckpoint saved to: " ++ output ++ "\n"), d', .ok ()⟩ := by
  rw [perform, play_bind_ok h]
  simp only [pathGiven, hw]
  rw [play_bind_ok (play_pure output said' d), play_bind_ok (play_writeFile hplain hd said'),
    play_line]

theorem exportGraph_some (out : String) (precision : Int) (g : Graph) :
    exportGraph (some out) precision g = (do
      Script.folder (plainPath out)
      writeReports (plainPath out) (reportFiles g precision)
      Script.line ("\nReports written to: " ++ plainPath out)) := rfl

theorem reported_of_exportGraph {outDir : Option String} {precision : Int} {said : String}
    (hg : g.recolor = g) (h : ((exportGraph outDir precision g).play said d).result = .ok ()) :
    ∃ out, outDir = some out ∧
      ((exportGraph outDir precision g).play said d).disk.Reported (plainPath out) g precision := by
  cases outDir with
  | none => exact nomatch h
  | some out =>
    rw [exportGraph_some] at h ⊢
    obtain ⟨_, _, _, -, hwrites⟩ := exists_play_of_bind (Played.eq_of_result h)
    obtain ⟨_, written, _, hreports, hline⟩ := exists_play_of_bind hwrites
    have hlast : _ = written := congrArg Played.disk (hline.symm.trans (play_line _ _ written))
    have hheld := holds_of_writeReports tabular_reportFiles nodup_reportFiles hreports
    simp only [reportFiles, List.forall_mem_cons, Graph.colored_of_recolor hg] at hheld
    refine ⟨out, rfl, ?_⟩
    rw [hlast]
    exact ⟨hheld.1, hheld.2.1, hheld.2.2.1, hheld.2.2.2.1⟩

theorem play_exportGraph {out : String} {precision : Int} (hroom : d.Admits (plainPath out))
    (hwhole : ∀ f ∈ reportFiles g precision, f.2.fault = none) (said : String) :
    ((exportGraph (some out) precision g).play said d).result = .ok () := by
  obtain ⟨saidMade, made, hmade, hkeeps⟩ := hroom
  have hplaces : ∀ f ∈ reportFiles g precision, made.Keeps (inFolder (plainPath out) f.1) :=
    fun f hf => hkeeps f.1 (List.mem_map_of_mem hf)
  obtain ⟨files, hfiles⟩ := play_writeReports hplaces hwhole saidMade
  rw [(sameOutcome_said (exportGraph (some out) precision g) said "" d).result, exportGraph_some,
    play_bind_ok hmade, play_bind_ok hfiles, play_line]

/-- The checkpoint command leaves a file from which an export does what it does from the model that
the file was made of, whatever the precision. Where it succeeds, it has written the four reports of
the graph; it does succeed if the folder admits them and the precision can be asked for. -/
theorem export_through_checkpoint (settings : Settings)
    (hparse : Model.parseFile bytes settings.defaultArity = .ok (m, ws))
    (hd : ∀ v ∈ m.vars.values, 0 ≤ draws v.id v.arity ∧ draws v.id v.arity < v.arity)
    (hg : Graph.ofModel m settings.beliefInit draws = .ok g)
    (hs : m.Storable Archive.fileCountBound) (he : g.edgeCount < 2 ^ 64) :
    (Checkpoint.save m g).fault = none ∧
    Checkpoint.load (Checkpoint.save m g).bytes = .ok (m, g) ∧
    (∀ (d : Disk) (source : Source) (input output said : String), source.input = some input →
      d.Reads input bytes → d.Keeps output →
      d.locate input (pathSteps input) ≠ d.locate output (pathSteps output) →
      ∃ said' files, let saved := { d with files }
        (perform (.checkpoint source (some output)) settings draws).play said d =
          ⟨said', saved, .ok ()⟩ ∧
        saved.Reads output (Checkpoint.save m g).bytes ∧ saved.Reads input bytes) ∧
    ∀ (d : Disk) (source : Source) (input saved : String) (outDir : Option String)
      (p : Option (Option Int)) (precision : Int) (settings' : Settings) (draws' : Draws)
      (said said' : String), source.input = some input → d.Reads input bytes →
      d.Reads saved (Checkpoint.save m g).bytes → settings'.precision = precision →
      let through := (perform (.report { source with checkpoint := some saved } outDir p) settings'
        draws').play said d
      let direct := (perform (.report { source with checkpoint := none } outDir p)
        { settings with precision } draws).play said' d
      SameOutcome through direct ∧
      (direct.result = .ok () → ∃ out, outDir = some out ∧
        through.disk.Reported (plainPath out) g precision ∧
        direct.disk.Reported (plainPath out) g precision) ∧
      (settings.beliefInit ≠ .negInfinity → 0 ≤ precision → precision ≤ Report.maxPrecision →
        ∀ out, outDir = some out → d.Admits (plainPath out) →
          through.result = .ok () ∧ direct.result = .ok ()) := by
  have hbuilt := Model.built_of_parseFile hparse
  obtain ⟨hfault, hload⟩ := Checkpoint.load_save_fresh hbuilt hs hd hg he
  obtain ⟨-, hco⟩ := Graph.cooccurrence_of_ofModel hbuilt.registered hd hg
  have hcolored := Graph.colored_ofModel hg
  refine ⟨hfault, hload, ?_, ?_⟩
  · intro d source input output said hi hr hk hapart
    obtain ⟨d', hwrite, hwritten, hothers⟩ := Disk.reads_write hk (Checkpoint.save m g).bytes
    obtain ⟨-, files, rfl⟩ := Disk.of_write hwrite
    have hobtained := play_obtain_model hi hr hparse hg said
    exact ⟨_, files, play_checkpoint hk.plain hobtained hfault hwrite, hwritten,
      hothers input bytes hapart hr⟩
  · intro d source input saved outDir p precision settings' draws' said said' hi hr hsaved hp
      through direct
    have hthrough : through = (exportGraph outDir precision g).play _ d :=
      hp ▸ play_report (play_obtain_checkpoint hsaved hload said)
    have hdirect : direct = (exportGraph outDir precision g).play _ d :=
      play_report (play_obtain_model hi hr hparse hg said')
    have hsame : SameOutcome through direct := by
      rw [hthrough, hdirect]
      exact sameOutcome_said _ _ _ d
    refine ⟨hsame, fun hok => ?_, fun hinit h0 hmax out hout hroom => ?_⟩
    · rw [hsame.disk, hdirect]
      obtain ⟨out, hout, hreported⟩ := reported_of_exportGraph hcolored (hdirect ▸ hok)
      exact ⟨out, hout, hreported, hreported⟩
    · subst hout
      have hok := play_exportGraph hroom (fault_reportFiles hco hbuilt.registered hs
        hcolored hinit h0 hmax)
      exact ⟨hthrough ▸ hok _, hdirect ▸ hok _⟩

/-- The file of `pairModel`. -/
def pairFile : List UInt8 :=
  Text.Utf8.encode "variables:\nx\né\t3\nfactors:\né/x// 0 0 0 0 0 0\n"

/-- A disk with that file and a folder for reports. -/
def pairDisk : Disk := Disk.ofFiles [("m", pairFile), ("r/old", [])]

theorem export_through_checkpoint_pair : ∃ g said d,
    (perform (.checkpoint { input := some "m" } (some "c")) {} (Draws.ofList [1, 2])).play ""
      pairDisk = ⟨said, d, .ok ()⟩ ∧
    Checkpoint.load (Checkpoint.save Checkpoint.pairModel g).bytes =
      .ok (Checkpoint.pairModel, g) ∧
    let through := (perform (.report { input := some "m", checkpoint := some "c" } (some "r") none)
      {} (Draws.ofList [])).play "" d
    let direct := (perform (.report { input := some "m" } (some "r") none) {}
      (Draws.ofList [1, 2])).play "" d
    SameOutcome through direct ∧ through.result = .ok () ∧
    through.disk.Reads "r/beliefs.tsv" (Text.Utf8.encode (Report.beliefs g 16).text) ∧
    through.disk.Reads "r/samples.tsv" (Text.Utf8.encode "1\n2\n") ∧
    through.disk.Reads "r/colors.tsv" (Text.Utf8.encode "0\n1\n") ∧
    through.disk.Reads "r/tree_state.tsv" (Text.Utf8.encode "0\t0\t-1\n1\t0\t-1\n") := by
  have hparses : (Model.parseFile pairFile 2).toOption.any (·.1 = Checkpoint.pairModel) := by
    decide +kernel
  obtain ⟨⟨m, ws⟩, hparse, hm⟩ := exists_ok_of_any hparses
  cases of_decide_eq_true hm
  have hbuilds : (Graph.ofModel Checkpoint.pairModel .lowest (Draws.ofList [1, 2])).toOption.any
      fun g => g.edgeCount < 2 ^ 64 ∧ (Report.samples g).text = "1\n2\n" ∧
        (Report.colors g).text = "0\n1\n" ∧
        (Report.treeStates g).text = "0\t0\t-1\n1\t0\t-1\n" := by
    decide +kernel
  obtain ⟨g, hg, htexts⟩ := exists_ok_of_any hbuilds
  obtain ⟨he, hsamples, hcolors, htrees⟩ := of_decide_eq_true htexts
  have hs : Checkpoint.pairModel.Storable Archive.fileCountBound :=
    ⟨by decide, by decide, by decide, by decide, by decide⟩
  have hr : pairDisk.Reads "m" pairFile := ⟨by decide, by decide +kernel⟩
  obtain ⟨-, hload, hsave, hexport⟩ := export_through_checkpoint {} hparse (by decide) hg hs he
  obtain ⟨said, files, hplay, hsaved, hinput⟩ :=
    hsave pairDisk { input := some "m" } "m" "c" "" rfl hr (by decide +kernel) (by decide +kernel)
  have hfolder : pairDisk.locate (plainPath "r") (pathSteps (plainPath "r")) =
      .ok ["tmp", "", "r"] := by decide +kernel
  have hthere : pairDisk.isFolder ["tmp", "", "r"] := by decide +kernel
  have hkeeps : ∀ name ∈ ["beliefs.tsv", "samples.tsv", "colors.tsv", "tree_state.tsv"],
      pairDisk.Keeps (inFolder "r" name) := by decide +kernel
  have hroom : Disk.Admits { pairDisk with files } (plainPath "r") :=
    Disk.admits_of_isFolder (by decide) (by decide) (Disk.locate_ok files hfolder) hthere
      fun name hname => (hkeeps name hname).with_files files
  obtain ⟨hsame, hreported, hsucceeds⟩ := hexport { pairDisk with files } { input := some "m" } "m"
    "c" (some "r") none 16 {} (Draws.ofList []) "" "" rfl hinput hsaved rfl
  obtain ⟨hthrough, hdirect⟩ := hsucceeds (by decide) (by decide) (by decide) "r" rfl hroom
  obtain ⟨out, hout, hheld, -⟩ := hreported hdirect
  cases hout
  exact ⟨g, said, _, hplay, hload, hsame, hthrough, hheld.beliefs.reads,
    hsamples ▸ hheld.samples.reads, hcolors ▸ hheld.colors.reads, htrees ▸ hheld.treeStates.reads⟩

end FactorForest.Command
