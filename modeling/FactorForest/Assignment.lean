import FactorForest.Draws
import FactorForest.Scope

set_option autoImplicit false

namespace FactorForest

/-- One value below the arity for each variable, in order. -/
def Fits : List Variable → List Nat → Prop
  | [], [] => True
  | v :: vs, x :: xs => x < v.arity ∧ Fits vs xs
  | _, _ => False

instance decidableFits : (vs : List Variable) → (xs : List Nat) → Decidable (Fits vs xs)
  | [], [] => isTrue trivial
  | v :: vs, x :: xs =>
    have := decidableFits vs xs
    inferInstanceAs (Decidable (x < v.arity ∧ Fits vs xs))
  | [], _ :: _ => isFalse id
  | _ :: _, [] => isFalse id

structure Assignment where
  scope : Scope
  values : List Nat
  fits : Fits scope.vars values
deriving DecidableEq

namespace Assignment

def outlier? : List Variable → List Int → Option Fault
  | v :: vs, x :: xs =>
    if 0 ≤ x ∧ x < v.arity then outlier? vs xs else some (.valueRange x v.id v.arity)
  | _, _ => none

theorem fits_of_outlier? {vs : List Variable} {xs : List Int} (hl : xs.length = vs.length)
    (h : outlier? vs xs = none) : Fits vs (xs.map Int.toNat) := by
  induction vs generalizing xs with
  | nil =>
    cases xs with
    | nil => exact trivial
    | cons x xs => simp at hl
  | cons v vs ih =>
    cases xs with
    | nil => simp at hl
    | cons x xs =>
      rw [outlier?] at h
      split at h
      · rename_i hx
        exact ⟨by omega, ih (by simpa using hl) h⟩
      · exact absurd h (by simp)

def ofValues (s : Scope) (xs : List Int) : Except Fault Assignment :=
  if hl : xs.length = s.vars.length then
    match h : outlier? s.vars xs with
    | some f => .error f.told
    | none => .ok ⟨s, xs.map Int.toNat, fits_of_outlier? hl h⟩
  else .error (.valueCount xs.length s.vars.length)

def digitsOf : List Variable → Nat → List Nat
  | [], _ => []
  | v :: vs, i => i % v.arity :: digitsOf vs (i / v.arity)

theorem fits_digitsOf (vs : List Variable) (i : Nat) : Fits vs (digitsOf vs i) := by
  induction vs generalizing i with
  | nil => exact trivial
  | cons v vs ih => exact ⟨Nat.mod_lt _ v.arity_pos, ih _⟩

def decode (s : Scope) (i : Nat) : Assignment := ⟨s, digitsOf s.vars i, fits_digitsOf _ _⟩

def ofIndex (s : Scope) (i : Int) : Except Fault Assignment :=
  if 0 ≤ i ∧ i < s.size then .ok (decode s i.toNat)
  else .error (.told (.indexRange i s.size))

def first (s : Scope) : Assignment := decode s 0

def all (s : Scope) : List Assignment := (List.range s.size).map (decode s)

def dot : List Nat → List Nat → Nat
  | x :: xs, y :: ys => x * y + dot xs ys
  | _, _ => 0

def index (a : Assignment) : Nat := dot a.values a.scope.strides

def sample (s : Scope) (draws : Draws) (k : Nat) : Except Fault Assignment :=
  ofValues s (s.arities.mapIdx fun i arity => draws (k + i) arity)

def get (a : Assignment) (id : Int) : Except Fault Nat := do
  let i ← a.scope.indexOf id
  pure (a.values.getD i 0)

def set (a : Assignment) (id x : Int) : Except Fault Assignment := do
  let i ← a.scope.indexOf id
  ofValues a.scope ((a.values.map Int.ofNat).set i x)

def describe (a : Assignment) : Except Fault String :=
  let shown := a.scope.vars.zip a.values
  Fault.writeOut (shown.flatMap fun p => [(p.1.id : Int), (p.2 : Int)])
    ("Assignment(" ++ ", ".intercalate (shown.map fun p => s!"v{p.1.id}={p.2}") ++ ")")

end Assignment
end FactorForest
