import FactorForest.Factor.Basic
import FactorForest.IdMap

set_option autoImplicit false

namespace FactorForest

structure Model where
  vars : IdMap Variable := {}
  factors : Array Factor := #[]
  weights : Array (Option Double) := #[]
  /-- The ids of the factors that touch a variable, by variable id. -/
  index : IdMap (List Nat) := {}
  names : List String := []
deriving DecidableEq

namespace Model

instance : Inhabited Model := ⟨{}⟩

def enter (m : Model) (fid : Nat) (v : Variable) : Model :=
  { m with
    vars := m.vars.insert v.id v
    index := m.index.insert v.id ((m.index.find? v.id).getD [] ++ [fid]) }

def register (m : Model) (fid : Nat) : List Variable → Model × Except Fault Nat
  | [] => (m, .ok fid)
  | v :: vs =>
    match m.vars.find? v.id with
    | some known =>
      if known.arity = v.arity then register (m.enter fid v) fid vs
      else (m, .error (.told (.registeredArity v.id known.arity fid v.arity)))
    | none => register (m.enter fid v) fid vs

/-- Appends a factor and registers its variables. The factor and the variables registered before
a refusal stay. -/
def addFactor (m : Model) (f : Factor) (w : Option Double) : Model × Except Fault Nat :=
  register { m with factors := m.factors.push f, weights := m.weights.push w } m.factors.size
    f.scope.vars

def variableOf (m : Model) (id : Int) : Except Fault Variable :=
  match if 0 ≤ id then m.vars.find? id.toNat else none with
  | some v => .ok v
  | none => .error (.bareKey id)

def factorIds (m : Model) (id : Int) : Except Fault (List Nat) :=
  match if 0 ≤ id then m.index.find? id.toNat else none with
  | some ids => .ok ids
  | none => .error (.told (.unregistered id))

def weight (m : Model) (fid : Int) : Except Fault (Option Double) :=
  match resolveIndex m.weights.size fid .noEntryAt with
  | .error e => .error e
  | .ok n =>
    match m.weights[n]? with
    | none => .error .noEntryAt
    | some w => .ok w

def name (m : Model) (id : Int) : Except Fault String :=
  match if 0 ≤ id then m.names[id.toNat]? else none with
  | some s => .ok s
  | none => .error (.told (.unnamed id))

def gap? (n : Nat) : List Nat → Option Nat
  | [] => none
  | id :: ids => if id = n then gap? (n + 1) ids else some n

def validate (m : Model) : Except Fault Unit :=
  match gap? 0 m.vars.keys with
  | some n => .error (.sparseIds ((m.vars.size : Int) - 1) n)
  | none => .ok ()

def addAll (m : Model) : List (Factor × Option Double) → Except Fault Model
  | [] => .ok m
  | (f, w) :: rest =>
    match m.addFactor f w with
    | (m', .ok _) => addAll m' rest
    | (_, .error e) => .error e

/-- Adds the factors, each with the weight at its place; a weight that is missing is refused when
its factor is due. Without a list of weights no factor has one. -/
def rebuild (m : Model) : List Factor → Option (List (Option Double)) → Except Fault Model
  | [], _ => .ok m
  | f :: fs, none =>
    match m.addFactor f none with
    | (m', .ok _) => rebuild m' fs none
    | (_, .error e) => .error e
  | _ :: _, some [] => .error .noEntryAt
  | f :: fs, some (w :: ws) =>
    match m.addFactor f w with
    | (m', .ok _) => rebuild m' fs (some ws)
    | (_, .error e) => .error e

/-- Whether stored index entries, the last of an id counting, say what the index says. -/
def indexMatches (m : Model) (entries : List (Int × List Int)) : Bool :=
  entries.all (0 ≤ ·.1) &&
    IdMap.ofList (entries.map fun e => (e.1.toNat, e.2)) ==
      m.index.mapValues (·.map Int.ofNat)

def ofParts (vars : List Variable) (factors : List Factor)
    (index : List (Int × List Int)) (names : List String)
    (weights : Option (List (Option Double))) : Except Fault Model := do
  let m ← rebuild {} factors weights
  if IdMap.ofList (vars.map fun v => (v.id, v)) ≠ m.vars then throw .variablesDisagree
  if !m.indexMatches index then throw .indexDisagrees
  pure { m with names }

def agreement (m n : Model) : List Bool :=
  [m.vars == n.vars,
    m.factors.size == n.factors.size &&
      (m.factors.toList.zip n.factors.toList).all fun p => p.1.agrees p.2,
    m.index == n.index,
    m.names == n.names,
    m.weights.size == n.weights.size &&
      (m.weights.toList.zip n.weights.toList).all fun p =>
        match p with
        | (some x, some y) => x.numEq y
        | (none, none) => true
        | _ => false]

def describe (m : Model) : String :=
  s!"FactorizedModel(vars={m.vars.size}, factors={m.factors.size})"

end Model
end FactorForest
