import FactorForest.Model.Basic
import FactorForest.Number.Literal
import FactorForest.Text.Utf8

/-!
Models as text. A file declares its variables, one a line with an optional arity, and then lists
factors: names joined by slashes, two slashes, the cells of the table, and after three slashes an
optional weight. Cells are listed with the first named variable varying fastest, whatever the
order of the ids.
-/

set_option autoImplicit false

namespace FactorForest.Model

open Text

structure Warning where
  line : Nat
  extra : Nat
deriving DecidableEq, Repr

def Warning.message (w : Warning) : String :=
  s!"line {w.line}: ignoring {w.extra} trailing table values"

abbrev Declared := List (String × Variable)

def readDeclaration (line : List Char) (defaultArity : Int) : Except LineFault (String × Int) :=
  match cutAtLast '\t' line with
  | none => .ok (String.ofList (trim line), defaultArity)
  | some (front, back) =>
    let name := String.ofList (trim front)
    let text := trim back
    match Literal.int? text with
    | none => .error (.badArity (String.ofList text) name)
    | some arity => if arity < 1 then .error (.smallArity name arity) else .ok (name, arity)

def atLine {α : Type} (n : Nat) (r : Except LineFault α) : Except Fault α :=
  match r with
  | .ok a => .ok a
  | .error e => .error (.line n e)

/-- Reads the declarations from line `n` on up to the header of the factors. With them comes the
number of the line after that header and the lines from there on. -/
def readDeclarations (defaultArity : Int) (n : Nat) (known : Declared) :
    List (List Char) → Except Fault (Declared × Nat × List (List Char))
  | [] => .error (.line (n - 1) .noFactorsHeader)
  | l :: rest => do
    let line := trim l
    if line = "factors:".toList then return (known, n + 1, rest)
    if line = [] then throw (.line n .emptyDeclaration)
    let (name, arity) ← atLine n (readDeclaration line defaultArity)
    if (known.lookup name).isSome then throw (.line n (.declaredTwice name))
    let v ← Variable.ofInts known.length arity
    readDeclarations defaultArity (n + 1) (known ++ [(name, v)]) rest

def readNames (known : Declared) (seen : List Variable) :
    List (List Char) → Except LineFault (List Variable)
  | [] => .ok seen
  | raw :: rest =>
    let name := String.ofList (trim raw)
    match known.lookup name with
    | none => .error (.unknownVariable name)
    | some v =>
      if v ∈ seen then .error (.repeatedVariable name) else readNames known (seen ++ [v]) rest

def listedIndex (value : Nat → Nat) : List Variable → Nat
  | [] => 0
  | v :: vs => value v.id + v.arity * listedIndex value vs

def valueAt (a : Assignment) (id : Nat) : Nat :=
  match a.get id with
  | .ok x => x
  | .error _ => 0

/-- The table of a scope whose cells were listed in the order of `listed`. -/
def placeCells (s : Scope) (listed : List Variable) (cells : Array Double) : Factor :=
  ⟨s, Array.ofFn fun i : Fin s.size =>
      cells.getD (listedIndex (valueAt (Assignment.decode s i)) listed) .zero,
    by simp⟩

def readCells : List (List Char) → Except LineFault (List Double)
  | [] => .ok []
  | w :: ws =>
    match Literal.double? w with
    | none => .error (.badValue (String.ofList w))
    | some x => (readCells ws).map (x :: ·)

def readWeight (body : List Char) : Except LineFault (List Char × Option Double) :=
  match cutAt ['/', '/', '/'] body with
  | none => .ok (body, none)
  | some (cells, back) =>
    let text := trim back
    match Literal.double? text with
    | none => .error (.badWeight (String.ofList text))
    | some w => .ok (cells, some w)

/-- A factor line: the factor, its weight, and how many listed cells its table has no place for. -/
def readFactor (known : Declared) (n : Nat) (line : List Char) :
    Except Fault (Factor × Option Double × Nat) := do
  let some (front, body) := cutAt ['/', '/'] line | throw (.line n .noSeparator)
  let listed ← atLine n (readNames known [] (pieces '/' front))
  let (text, weight) ← atLine n (readWeight body)
  let cells ← atLine n (readCells (words text))
  let scope ← Scope.ofList listed
  if cells.length < scope.size then
    throw (.told (.line n (.missingValues listed.length scope.size cells.length)))
  pure (placeCells scope listed cells.toArray, weight, cells.length - scope.size)

/-- What comes of reading: the warnings up to where it ended, and the model or why there is none. -/
structure Reading where
  warnings : List Warning
  result : Except Fault Model

def Reading.outcome (r : Reading) : Except Fault (Model × List Warning) :=
  r.result.map fun m => (m, r.warnings)

def readFactors (known : Declared) (n : Nat) (m : Model) (ws : List Warning) :
    List (List Char) → Reading
  | [] => ⟨ws, .ok m⟩
  | l :: rest =>
    let line := trim l
    if line = [] then readFactors known (n + 1) m ws rest
    else
      match readFactor known n line with
      | .error e => ⟨ws, .error e⟩
      | .ok (f, weight, extra) =>
        -- the warning of a line is out before its factor is added
        let ws' := if extra = 0 then ws else ws ++ [⟨n, extra⟩]
        match m.addFactor f weight with
        | (m', .ok _) => readFactors known (n + 1) m' ws' rest
        | (_, .error e) => ⟨ws', .error e⟩

theorem outcome_readFactors_cons {known : Declared} {n : Nat} {m : Model} {ws : List Warning}
    {l : List Char} {rest : List (List Char)} :
    (readFactors known n m ws (l :: rest)).outcome =
      if trim l = [] then (readFactors known (n + 1) m ws rest).outcome
      else (do
        let (f, weight, extra) ← readFactor known n (trim l)
        match m.addFactor f weight with
        | (m', .ok _) =>
          (readFactors known (n + 1) m' (if extra = 0 then ws else ws ++ [⟨n, extra⟩]) rest).outcome
        | (_, .error e) => throw e) := by
  rw [readFactors]
  by_cases hl : trim l = []
  · simp only [hl, if_true]
  · simp only [hl, if_false]
    cases readFactor known n (trim l) with
    | error e => rfl
    | ok r =>
      obtain ⟨f, weight, extra⟩ := r
      simp only [bind, Except.bind]
      cases m.addFactor f weight with
      | mk m' r => cases r <;> rfl

def readText (text : List Char) (defaultArity : Int) : Reading :=
  match lines text with
  | [] => ⟨[], .error (.line 1 .noVariablesHeader)⟩
  | first :: rest =>
    if trim first ≠ "variables:".toList then ⟨[], .error (.line 1 .noVariablesHeader)⟩
    else
      match readDeclarations defaultArity 2 [] rest with
      | .error e => ⟨[], .error e⟩
      | .ok (known, n, factorLines) => readFactors known n { names := known.map (·.1) } [] factorLines

def readBytes (bytes : List UInt8) (defaultArity : Int) : Reading :=
  match Utf8.decode bytes with
  | .error e => ⟨[], .error (.undecodable e)⟩
  | .ok cs => readText (foldReturns cs) defaultArity

def parse (text : List Char) (defaultArity : Int) : Except Fault (Model × List Warning) :=
  (readText text defaultArity).outcome

theorem parse_eq (text : List Char) (defaultArity : Int) : parse text defaultArity =
    match lines text with
    | [] => .error (.line 1 .noVariablesHeader)
    | first :: rest =>
      if trim first ≠ "variables:".toList then .error (.line 1 .noVariablesHeader)
      else (do
        let (known, n, factorLines) ← readDeclarations defaultArity 2 [] rest
        (readFactors known n { names := known.map (·.1) } [] factorLines).outcome) := by
  rw [parse, readText]
  cases lines text with
  | nil => rfl
  | cons first rest =>
    dsimp only
    split
    · rfl
    · cases readDeclarations defaultArity 2 [] rest <;> rfl

def parseFile (bytes : List UInt8) (defaultArity : Int) :
    Except Fault (Model × List Warning) :=
  (readBytes bytes defaultArity).outcome

end FactorForest.Model
