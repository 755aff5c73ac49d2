import FactorForest.Number.Literal

set_option autoImplicit false

namespace FactorForest.Command

open Text

inductive Key
  | help
  | version
  | logLevel
  | input
  | defaultArity
  | seed
  | checkpoint
  | verbose
  | output
  | outDir
  | precision
  | coverage
deriving DecidableEq, Repr

namespace Key

def takesValue : Key → Bool
  | .help | .version | .verbose | .coverage => false
  | _ => true

def takesInteger : Key → Bool
  | .defaultArity | .seed | .precision => true
  | _ => false

end Key

abbrev Spellings := List (String × Key)

def mainOptions : Spellings :=
  [("-h", .help), ("--help", .help), ("--version", .version), ("-V", .version),
    ("--log-level", .logLevel)]

def sourceOptions : Spellings :=
  [("-h", .help), ("--help", .help), ("--input", .input), ("-i", .input),
    ("--default-arity", .defaultArity), ("--seed", .seed)]

def inspectOptions : Spellings :=
  sourceOptions ++ [("--checkpoint", .checkpoint), ("-c", .checkpoint), ("--verbose", .verbose),
    ("-v", .verbose)]

def checkpointOptions : Spellings := sourceOptions ++ [("--output", .output), ("-o", .output)]

def exportOptions : Spellings :=
  sourceOptions ++ [("--checkpoint", .checkpoint), ("-c", .checkpoint), ("--out-dir", .outDir),
    ("-o", .outDir), ("--precision", .precision)]

def infoOptions : Spellings := [("-h", .help), ("--help", .help)]

def testOptions : Spellings :=
  infoOptions ++ [("--verbose", .verbose), ("-v", .verbose), ("--coverage", .coverage)]

inductive Token
  | plain
  | dashes
  /-- An option, whether its spelling has one dash, and the text it carries, which stands after an
  equals sign or directly after a short spelling. -/
  | option (key : Key) (short : Bool) (text : Option (List Char))
  | unknown
  | ambiguous
deriving DecidableEq, Repr

/-- A minus sign and digits, with or without a point before the last of them. A line feed may
follow. -/
def isNegativeNumber (cs : List Char) : Bool :=
  match if cs.getLast? = some '\n' then cs.dropLast else cs with
  | '-' :: body =>
    let isDigit (c : Char) : Bool := (digitValue? c).isSome
    let part := (body.dropWhile isDigit).tail
    (body ≠ [] && body.all isDigit) ||
      ((body.dropWhile isDigit).head? == some '.' && part ≠ [] && part.all isDigit)
  | _ => false

def spelled? (opts : Spellings) (cs : List Char) : Option Key :=
  opts.lookup (String.ofList cs)

/-- What an argument of `--name`, `--name=value` or `-nvalue` form is short for. -/
def abbreviated (opts : Spellings) (cs : List Char) : List Token :=
  match cs with
  | '-' :: '-' :: _ =>
    let (name, value) :=
      match cutAt ['='] cs with
      | some (n, v) => (n, some v)
      | none => (cs, none)
    (opts.filter fun o => name.isPrefixOf o.1.toList).map fun o => .option o.2 false value
  | '-' :: c :: rest =>
    match spelled? opts ['-', c] with
    | some key => [.option key true (some rest)]
    | none => []
  | _ => []

def classify (opts : Spellings) (arg : String) : Token :=
  let cs := arg.toList
  if cs.head? ≠ some '-' then .plain
  else if cs = ['-', '-'] then .dashes
  else
    let short := cs.drop 1 |>.head? |> (· ≠ some '-')
    match spelled? opts cs with
    | some key => .option key short none
    | none =>
      if cs = ['-'] then .plain
      else
        let whole :=
          match cutAt ['='] cs with
          | some (n, v) => (spelled? opts n).map fun key => Token.option key short (some v)
          | none => none
        match whole with
        | some t => t
        | none =>
          match abbreviated opts cs with
          | [t] => t
          | _ :: _ :: _ => .ambiguous
          | [] => if isNegativeNumber cs || cs.contains ' ' then .plain else .unknown

/-- An option that was given, with its value. A flag has none, and neither has an option whose value
is two dashes alone. -/
structure Given where
  key : Key
  value : Option String := none
deriving DecidableEq, Repr

def Given.ofText (key : Key) (text : String) : Given :=
  ⟨key, if text = "--" then none else some text⟩

inductive Taken
  | given (options : List Given) (used : Nat)
  | refused
deriving DecidableEq, Repr

def takeBare (next : Option String) (done : List Given) (key : Key) : Taken :=
  if key.takesValue then
    match next with
    | some v => .given (done ++ [.ofText key v]) 1
    | none => .refused
  else .given (done ++ [⟨key, none⟩]) 0

/-- Takes the short options that are joined to the flags taken already. What follows the letter of
an option with a value is the value. -/
def takeJoined (opts : Spellings) (next : Option String) (done : List Given) :
    List Char → Taken
  | [] => .refused
  | c :: cs =>
    match spelled? opts ['-', c] with
    | none => .refused
    | some key =>
      if cs = [] then takeBare next done key
      else if key.takesValue then .given (done ++ [.ofText key (String.ofList cs)]) 0
      else takeJoined opts next (done ++ [⟨key, none⟩]) cs

def takeOption (opts : Spellings) (next : Option String) (key : Key) (short : Bool)
    (text : Option (List Char)) : Taken :=
  match text with
  | none => takeBare next [] key
  | some cs =>
    if key.takesValue then .given [.ofText key (String.ofList cs)] 0
    else if short then takeJoined opts next [⟨key, none⟩] cs
    else .refused

structure Source where
  input : Option String := none
  checkpoint : Option String := none
  defaultArity : Option (Option Int) := none
  seed : Option Int := none
deriving DecidableEq, Repr

inductive Action
  | inspect (source : Source) (verbose : Bool)
  | checkpoint (source : Source) (output : Option String)
  | report (source : Source) (outDir : Option String) (precision : Option (Option Int))
deriving DecidableEq, Repr

inductive Request
  | misuse
  | version
  | help
  | nothing (logLevel : Option (Option String))
  | run (logLevel : Option (Option String)) (action : Action)
deriving DecidableEq, Repr

inductive Stop
  | misuse
  | version
  | help
deriving DecidableEq, Repr

/-- Enters options in turn. Asking for help or the version ends the reading, and so does a value
that has to be an integer and is none. -/
def enter (known : List Given) : List Given → Except Stop (List Given)
  | [] => .ok known
  | g :: gs =>
    match g.key with
    | .help => .error .help
    | .version => .error .version
    | _ =>
      if g.key.takesInteger && g.value.any (fun v => (Literal.int? v.toList).isNone) then
        .error .misuse
      else enter (known ++ [g]) gs

/-- The options of a list of arguments up to the first plain argument, if `untilPlain`, and the
arguments from there on. Also whether something was met that nobody knows. -/
def readOptions (opts : Spellings) (untilPlain : Bool) (known : List Given) (stray : Bool)
    (args : List String) : Except Stop (List Given × Bool × List String) :=
  match args with
  | [] => .ok (known, stray, [])
  | arg :: rest =>
    match classify opts arg with
    | .ambiguous => .error .misuse
    | .dashes => .ok (known, true, [])
    | .unknown => readOptions opts untilPlain known true rest
    | .plain =>
      if untilPlain then .ok (known, stray, arg :: rest)
      else readOptions opts untilPlain known true rest
    | .option key short text =>
      let next :=
        match rest with
        | v :: _ => if classify opts v = .plain then some v else none
        | [] => none
      match takeOption opts next key short text with
      | .refused => .error .misuse
      | .given gs used =>
        match enter known gs with
        | .error s => .error s
        | .ok known' => readOptions opts untilPlain known' stray (rest.drop used)
termination_by args.length
decreasing_by all_goals simp only [List.length_cons, List.length_drop]; omega

def optionsFrom (opts : Spellings) (untilPlain : Bool) (args : List String) :
    Except Stop (List Given × Bool × List String) :=
  if (args.takeWhile (· ≠ "--")).any fun a => classify opts a = .ambiguous then .error .misuse
  else readOptions opts untilPlain [] false args

def last? (gs : List Given) (key : Key) : Option Given := gs.reverse.find? (·.key = key)

def lastText? (gs : List Given) (key : Key) : Option (Option String) :=
  (last? gs key).map (·.value)

def lastInt? (gs : List Given) (key : Key) : Option (Option Int) :=
  (lastText? gs key).map fun v => v.bind fun text => Literal.int? text.toList

def sourceOf (gs : List Given) : Source where
  input := (lastText? gs .input).join
  checkpoint := (lastText? gs .checkpoint).join
  defaultArity := lastInt? gs .defaultArity
  seed := (lastInt? gs .seed).join

def commandOf (name : String) (gs : List Given) : Option Action :=
  let source := sourceOf gs
  if name = "inspect" then some (.inspect source (last? gs .verbose).isSome)
  else if name = "checkpoint" then (lastText? gs .output).map (.checkpoint source)
  else (lastText? gs .outDir).map fun dir => .report source dir (lastInt? gs .precision)

def optionsOf (name : String) : Option Spellings :=
  [("inspect", inspectOptions), ("checkpoint", checkpointOptions),
    ("export", exportOptions), ("test", testOptions), ("info", infoOptions)].lookup name

def idleCommands : List String := ["test", "info"]

def Request.ofCommand? (level : Option (Option String)) (name : String) (gs : List Given) :
    Option Request :=
  if idleCommands.contains name then some (.nothing level)
  else (commandOf name gs).map (.run level)

def Stop.request : Stop → Request
  | .misuse => .misuse
  | .version => .version
  | .help => .help

def Request.ofArgs (args : List String) : Request :=
  match optionsFrom mainOptions true args with
  | .error s => s.request
  | .ok (given, stray, []) => if stray then .misuse else .nothing (lastText? given .logLevel)
  | .ok (given, stray, name :: rest) =>
    match optionsOf name with
    | none => .misuse
    | some opts =>
      match optionsFrom opts false rest with
      | .error s => s.request
      | .ok (gs, stray', _) =>
        match Request.ofCommand? (lastText? given .logLevel) name gs with
        | none => .misuse
        | some r => if stray || stray' then .misuse else r

end FactorForest.Command
