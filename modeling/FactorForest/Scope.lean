import FactorForest.Fault

/-!
Scopes: finite sets of variables in ascending id order. The order in which variables are given
does not matter, and it fixes the mixed-radix index of joint values: the variable of the lowest id
is the fastest digit.
-/

set_option autoImplicit false

namespace FactorForest

namespace Variable

def ofInts (id arity : Int) : Except Fault Variable :=
  if id < 0 then .error (.told (.negativeId id))
  else if h : arity < 1 then .error (.told (.emptyArity id arity))
  else .ok ⟨id.toNat, arity.toNat, by omega⟩

def insertById (v : Variable) : List Variable → List Variable
  | [] => [v]
  | w :: ws => if v.id ≤ w.id then v :: w :: ws else w :: insertById v ws

def sortById (vs : List Variable) : List Variable := vs.foldr insertById []

def firstRepeat? : List Variable → Option Nat
  | v :: w :: rest => if v.id = w.id then some v.id else firstRepeat? (w :: rest)
  | _ => none

theorem mem_insertById {v x : Variable} {ws : List Variable} :
    x ∈ insertById v ws ↔ x = v ∨ x ∈ ws := by
  induction ws with
  | nil => simp [insertById]
  | cons w ws ih =>
    rw [insertById]
    split
    · simp
    · simp only [List.mem_cons, ih]
      exact ⟨fun h => h.elim (.inr ∘ .inl) (·.imp_right .inr),
        fun h => h.elim (.inr ∘ .inl) (·.imp_right .inr)⟩

theorem pairwise_insertById {v : Variable} {ws : List Variable}
    (h : ws.Pairwise fun x y => x.id ≤ y.id) :
    (insertById v ws).Pairwise fun x y => x.id ≤ y.id := by
  induction ws with
  | nil => simp [insertById]
  | cons w ws ih =>
    have hw := (List.pairwise_cons.1 h).1
    rw [insertById]
    split
    · rename_i hv
      refine List.pairwise_cons.2 ⟨fun x hx => ?_, h⟩
      rcases List.mem_cons.1 hx with hx | hx
      · exact hx ▸ hv
      · exact Nat.le_trans hv (hw x hx)
    · rename_i hv
      refine List.pairwise_cons.2 ⟨fun x hx => ?_, ih (List.pairwise_cons.1 h).2⟩
      rcases mem_insertById.1 hx with hx | hx
      · subst hx; omega
      · exact hw x hx

theorem pairwise_sortById (vs : List Variable) :
    (sortById vs).Pairwise fun x y => x.id ≤ y.id := by
  induction vs with
  | nil => simp [sortById]
  | cons v vs ih => exact pairwise_insertById ih

theorem pairwise_lt_of_firstRepeat? {vs : List Variable}
    (h : vs.Pairwise fun x y => x.id ≤ y.id) (hr : firstRepeat? vs = none) :
    vs.Pairwise fun x y => x.id < y.id := by
  induction vs with
  | nil => simp
  | cons v ws ih =>
    have hv := List.pairwise_cons.1 h
    cases ws with
    | nil => simp
    | cons w rest =>
      rw [firstRepeat?] at hr
      split at hr
      · exact absurd hr (by simp)
      · rename_i hne
        have hw := hv.1 w List.mem_cons_self
        have hrest := (List.pairwise_cons.1 hv.2).1
        refine List.pairwise_cons.2 ⟨fun x hx => ?_, ih hv.2 hr⟩
        rcases List.mem_cons.1 hx with hx | hx
        · subst hx; omega
        · have := hrest x hx; omega

end Variable

/-- The place that an integer index means in a list of `n` entries; a negative index counts from
the end. An index that means none is refused as `absent`, or as huge if it takes more than 64
bits. -/
def resolveIndex (n : Nat) (i : Int) (absent : Fault) : Except Fault Nat :=
  if 0 ≤ i ∧ i < n then .ok i.toNat
  else if i < 0 ∧ 0 ≤ i + n then .ok (i + n).toNat
  else if -2 ^ 63 ≤ i ∧ i < 2 ^ 63 then .error absent
  else .error .hugeIndex

/-- A set of variables without two of one id, in ascending id order. -/
structure Scope where
  vars : List Variable
  ascending : vars.Pairwise (fun v w => v.id < w.id)
deriving DecidableEq

namespace Scope

instance : Inhabited Scope := ⟨⟨[], .nil⟩⟩

def ofList (vs : List Variable) : Except Fault Scope :=
  match h : Variable.firstRepeat? (Variable.sortById vs) with
  | some id => .error (.told (.duplicateId id))
  | none =>
    .ok ⟨Variable.sortById vs, Variable.pairwise_lt_of_firstRepeat? (Variable.pairwise_sortById vs) h⟩

def single (v : Variable) : Scope := ⟨[v], List.pairwise_singleton _ v⟩

def describe (s : Scope) : Except Fault String :=
  Fault.writeOut (Fault.scopeNumbers s.vars) (scopeLabel s.vars)

def arities (s : Scope) : List Nat := s.vars.map (·.arity)

def stridesFrom (acc : Nat) : List Variable → List Nat
  | [] => []
  | v :: vs => acc :: stridesFrom (acc * v.arity) vs

def strides (s : Scope) : List Nat := stridesFrom 1 s.vars

def volume : List Variable → Nat
  | [] => 1
  | v :: vs => v.arity * volume vs

def size (s : Scope) : Nat := volume s.vars

def find? (s : Scope) (id : Int) : Option Variable :=
  s.vars.find? fun v => (v.id : Int) == id

def contains (s : Scope) (id : Int) : Bool := (s.find? id).isSome

def indexOf (s : Scope) (id : Int) : Except Fault Nat :=
  match s.vars.findIdx? fun v => (v.id : Int) == id with
  | some i => .ok i
  | none => .error (.told (.absentVariable id s.vars))

def variableAt (s : Scope) (i : Int) : Except Fault Variable :=
  match resolveIndex s.vars.length i .noVariableAt with
  | .error e => .error e
  | .ok n =>
    match s.vars[n]? with
    | none => .error .noVariableAt
    | some v => .ok v

def clash? (s t : Scope) : Option Fault :=
  t.vars.findSome? fun v =>
    match s.find? v.id with
    | some w => if w.arity = v.arity then none else some (.arityClash v.id w.arity v.arity)
    | none => none

def union (s t : Scope) : Except Fault Scope :=
  match clash? s t with
  | some f => .error f.told
  | none => ofList (s.vars ++ t.vars.filter fun v => !s.contains v.id)

end Scope
end FactorForest
