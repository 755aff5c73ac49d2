import FactorForest.Proofs.Archive.ReadBack

set_option autoImplicit false

namespace FactorForest

def Variable.Storable (v : Variable) : Prop := v.id < 2 ^ 64 ∧ v.arity < 2 ^ 64

instance (v : Variable) : Decidable v.Storable := inferInstanceAs (Decidable (_ ∧ _))

def Scope.Storable (s : Scope) : Prop := s.vars.length < 2 ^ 64 ∧ ∀ v ∈ s.vars, v.Storable

instance (s : Scope) : Decidable s.Storable := inferInstanceAs (Decidable (_ ∧ _))

/-- The values of an assignment are below its arities, so they need no condition of their own. -/
def Assignment.Storable (a : Assignment) : Prop := a.scope.Storable

instance (a : Assignment) : Decidable a.Storable := inferInstanceAs (Decidable a.scope.Storable)

/-- Under a bound on byte counts, the bytes of the table can be asked for at once. No byte string is
longer than the bound for files, so that one excludes no table that a program can store. -/
def Factor.Storable (bound : Nat) (f : Factor) : Prop :=
  f.scope.Storable ∧ f.table.size * 8 < bound

instance (bound : Nat) (f : Factor) : Decidable (f.Storable bound) :=
  inferInstanceAs (Decidable (_ ∧ _))

namespace Archive

variable {bound : Nat}

theorem readsBack_header : ReadsBack bound header Reader.header formatVersion := by
  refine ⟨rfl, ?_⟩
  intro rest
  change Reader.header.start bound (magic ++ littleEndian 4 formatVersion ++ rest) = _
  rw [List.append_assoc, Reader.header, Reader.start_bind_ok (Reader.start_take_append rfl _)]
  simp only [ne_eq, not_true_eq_false, if_false]
  rw [Reader.start_bind_ok (start_number (by decide) rest)]
  simp [Reader.start_pure]

theorem readsBack_variableField {v : Variable} (h : v.Storable) :
    ReadsBack bound (variableField v) Reader.variableField v :=
  (readsBack_u64 h.1).bind ((readsBack_u64 h.2).last (.checked (Variable.ofInts_natCast v)))

theorem readsBack_scope {s : Scope} (h : s.Storable) : ReadsBack bound (scope s) Reader.scope s :=
  (readsBack_list_id h.1 fun v hv => readsBack_variableField (h.2 v hv)).last
    (.checked (Scope.ofList_vars s))

theorem readsBack_assignment {a : Assignment} (h : a.Storable) :
    ReadsBack bound (assignment a) Reader.assignment a := by
  have hl : a.values.length < 2 ^ 64 := by
    rw [Assignment.length_of_fits a.fits]
    exact h.1
  have hv : ∀ x ∈ a.values, x < 2 ^ 64 := fun x hx => by
    obtain ⟨v, hm, hlt⟩ := Assignment.lt_of_fits a.fits hx
    exact Nat.lt_trans hlt (h.2 v hm).2
  exact (readsBack_scope h).bind
    ((readsBack_u64List hl hv).last (.checked (Assignment.ofValues_values a)))

theorem readsBack_factor {f : Factor} (hb : bound ≤ countBound) (h : f.Storable bound) :
    ReadsBack bound (factor f) Reader.factor f :=
  (readsBack_scope h.1).bind
    ((readsBack_f64Array hb (by simpa using h.2)).last (.checked (Factor.ofTable_table f)))

end Archive
end FactorForest
