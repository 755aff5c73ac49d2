import FactorForest.Checkpoint
import FactorForest.Command.Options
import FactorForest.Command.Script
import FactorForest.Graph.Clique
import FactorForest.Model.Text
import FactorForest.Report
import FactorForest.Settings

set_option autoImplicit false

namespace FactorForest.Command

inductive Ending
  | code (n : Nat)
  | exit (status : Nat)
deriving DecidableEq, Repr

def versionText : String := "pgibbs 1.0.0"

def usageText : String :=
  "usage: pgibbs [--version] [--log-level LEVEL] \x7binspect,checkpoint,export\x7d ..."

def given? (path : Option String) : Option String := path.filter (· ≠ "")

def obtain (source : Source) (checkpoint : Option String) (settings : Settings) (draws : Draws) :
    Script (Model × Graph) := do
  match given? checkpoint with
  | some path =>
    Script.line ("Loading checkpoint from: " ++ path)
    let bytes ← Script.readFile path
    Script.ofExcept (Checkpoint.load bytes)
  | none =>
    match given? source.input with
    | none => Script.ofExcept (.error .noSource)
    | some path =>
      Script.line ("Loading model from: " ++ path)
      let bytes ← Script.readFile path
      let (m, _) ← Script.ofExcept (Model.parseFile bytes settings.defaultArity)
      let g ← Script.ofExcept (Graph.ofModel m settings.beliefInit draws)
      pure (m, g)

def bracketed (ns : List Nat) : String := "[" ++ ", ".intercalate (ns.map toString) ++ "]"

def vertexLine (m : Model) (g : Graph) (p : Vertex × Nat) : String :=
  let name := (m.names[p.2]?).getD s!"v{p.2}"
  s!"  {p.2} " ++ name ++ s!": arity {p.1.self.arity}, {p.1.factorIds.length} factors, " ++
    "neighbours " ++ bracketed (g.targets p.2)

def summary (m : Model) (g : Graph) (verbose : Bool) : List String :=
  let weighted := (m.weights.filter Option.isSome).size
  let vertices := g.vertices.toList
  let (lo, hi) := g.updateRange
  ["", "Model:", s!"  Variables: {m.vars.size}", s!"  Factors: {m.factors.size}"] ++
    (if weighted = 0 then [] else [s!"  Weighted factors: {weighted}"]) ++
    ["", "Clique graph:", s!"  Vertices: {g.vertices.size}", s!"  Directed edges: {g.edgeCount}",
      s!"  Colours: {g.colors.toList.eraseDups.length}", s!"  Updates: min {lo}, max {hi}",
      "", "Tree state:"] ++
    Phase.all.map (fun p => s!"  {p.name}: {(vertices.filter fun x => x.phase = p).length}") ++
    (if verbose then ["", "Vertices:"] ++ vertices.zipIdx.map (vertexLine m g) else [])

def sayAll : List String → Script Unit
  | [] => pure ()
  | l :: ls => do
    Script.line l
    sayAll ls

/-- Writes a report as far as it came; its fault comes after. -/
def writeReport (path : String) (r : Report) : Script Unit := do
  Script.writeFile path (Text.Utf8.encode r.text)
  match r.fault with
  | some e => Script.ofExcept (.error e)
  | none => pure ()

/-- The reports by the names of their files, in the order in which they are written. -/
def reportFiles (g : Graph) (precision : Int) : List (String × Report) :=
  [("beliefs.tsv", Report.beliefs g precision), ("samples.tsv", Report.samples g),
    ("colors.tsv", Report.colors g.colored), ("tree_state.tsv", Report.treeStates g)]

def writeReports (folder : String) : List (String × Report) → Script Unit
  | [] => pure ()
  | f :: fs => do
    writeReport (inFolder folder f.1) f.2
    writeReports folder fs

def pathGiven : Option String → Script String
  | none => Script.ofExcept (.error .noPath)
  | some path => pure path

def perform (c : Action) (settings : Settings) (draws : Draws) : Script Unit := do
  match c with
  | .inspect source verbose =>
    let (m, g) ← obtain source source.checkpoint settings draws
    sayAll (summary m g.colored verbose)
  | .checkpoint source output =>
    let (m, g) ← obtain source none settings draws
    let path ← pathGiven output
    let w := Checkpoint.save m g
    Script.writeFile path w.bytes
    match w.fault with
    | some e => Script.ofExcept (.error e)
    | none => Script.line ("\nCheckpoint saved to: " ++ path)
  | .report source outDir _ =>
    let (_, g) ← obtain source source.checkpoint settings draws
    let folder := plainPath (← pathGiven outDir)
    Script.folder folder
    writeReports folder (reportFiles g settings.precision)
    Script.line ("\nReports written to: " ++ folder)

def Action.source : Action → Source
  | .inspect s _ | .checkpoint s _ | .report s _ _ => s

def Action.precision? : Action → Option (Option Int)
  | .report _ _ p => p
  | _ => none

def capitals (c : Char) : List Char :=
  if c = 'ſ' then ['S']
  else if c = 'ı' then ['I']
  else if c = 'ﬅ' ∨ c = 'ﬆ' then ['S', 'T']
  else [c.toUpper]

def lineForm : String := "%(levelname)s:%(name)s:%(message)s"

/-- Refuses a log level that cannot be set. Any name will do, except two that stand for something
else: the form of a line, which is no level's name, and the table of the styles of such forms. -/
def checkLevel : Option (Option String) → Except Fault Unit
  | none => .ok ()
  | some none => .error .namelessLevel
  | some (some name) =>
    let name := String.ofList (name.toList.flatMap capitals)
    if name = "BASIC_FORMAT" then .error (.noLevel lineForm)
    else if name = "_STYLES" then .error .strangeLevel
    else .ok ()

/-- The settings of a command. Numbers out of range are refused before the log level is. -/
def settingsOf (level : Option (Option String)) (c : Action) : Except Fault Settings := do
  let s ← Settings.override { seed := c.source.seed } c.source.defaultArity c.precision?
  checkLevel level
  pure { s with logLevel := some (level.join.getD "WARNING") }

/-- Bad values and refusals of the system are said and give code one; any other fault escapes. -/
def reported (r : Except Fault Unit) : Script Ending :=
  match r with
  | .ok () => pure (.code 0)
  | .error e =>
    if e.isValueFault || e.kind = .system then do
      Script.line ("Error: " ++ e.message)
      pure (.code 1)
    else Script.ofExcept (.error e)

def run (args : List String) (draws : Draws) : Script Ending :=
  match Request.ofArgs args with
  | .misuse => pure (.exit 2)
  | .version => do
    Script.line versionText
    pure (.exit 0)
  | .help => do
    Script.line usageText
    pure (.exit 0)
  | .nothing level => do
    Script.ofExcept (checkLevel level)
    Script.line usageText
    pure (.code 0)
  | .run level c => do
    let settings ← Script.ofExcept (settingsOf level c)
    let r ← (perform c settings draws).caught
    reported r

end FactorForest.Command
