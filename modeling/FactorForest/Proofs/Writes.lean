import FactorForest.Proofs.Index

set_option autoImplicit false

namespace FactorForest

/-- Whether a cell is that of an assignment: its linear index, or the assignment itself. -/
def Cell.names (a : Assignment) : Cell → Bool
  | .index i => i = a.index
  | .assignment b => b = a

@[simp]
theorem Cell.names_index {a : Assignment} {i : Int} :
    (Cell.index i).names a ↔ i = a.index := decide_eq_true_iff

@[simp]
theorem Cell.names_assignment {a b : Assignment} : (Cell.assignment b).names a ↔ b = a :=
  decide_eq_true_iff

namespace Factor

/-- The factor after a write, or the factor as it was if the write is refused. -/
def write (f : Factor) (w : Cell × Double) : Factor :=
  match f.set w.1 w.2 with
  | .ok g => g
  | .error _ => f

def writes (f : Factor) (ws : List (Cell × Double)) : Factor := ws.foldl write f

/-- What the last of the writes to an assignment wrote, if there was one. -/
def lastWrite (a : Assignment) (ws : List (Cell × Double)) : Option Double :=
  (ws.reverse.find? fun w => w.1.names a).map (·.2)

/-- The value at an assignment over the scope of the factor. -/
def value (f : Factor) (a : Assignment) : Double := f.table.getD a.index .zero

variable {f : Factor} {a b : Assignment} {c : Cell} {x : Double} {n : Nat} {e : Fault}

theorem index_lt_table (ha : a.scope = f.scope) : a.index < f.table.size := by
  rw [f.size_eq, ← ha]
  exact a.index_lt_size

/-- Either name of an assignment leads to its index, and nothing else does. -/
theorem names_iff_place (ha : a.scope = f.scope) : c.names a ↔ f.place c = .ok a.index := by
  cases c with
  | index i =>
    have hlt := index_lt_table ha
    rw [Cell.names_index]
    constructor
    · rintro rfl
      exact if_pos ⟨Int.natCast_nonneg _, Int.ofNat_lt.2 hlt⟩
    · intro h
      rw [place] at h
      split at h
      · have hi := Except.ok.inj h
        omega
      · exact nomatch h
  | assignment b =>
    rw [Cell.names_assignment]
    constructor
    · rintro rfl
      exact if_pos ha
    · intro h
      rw [place] at h
      split at h
      · rename_i hb
        exact (Assignment.index_bijOn f.scope).injOn hb ha (Except.ok.inj h)
      · exact nomatch h

theorem eq_of_names (ha : a.scope = f.scope) (hb : b.scope = f.scope) (hca : c.names a)
    (hcb : c.names b) : a = b := by
  have hplace := (names_iff_place ha).1 hca
  rw [(names_iff_place hb).1 hcb] at hplace
  exact (Assignment.index_bijOn f.scope).injOn ha hb (Except.ok.inj hplace).symm

theorem place_index_eq_error_iff {i : Int} :
    (∃ e, f.place (.index i) = .error e) ↔ i < 0 ∨ f.scope.size ≤ i := by
  rw [place, f.size_eq]
  by_cases hi : 0 ≤ i ∧ i < f.scope.size
  · simp only [if_pos hi, reduceCtorEq, exists_false, false_iff]
    omega
  · simp only [if_neg hi, Except.error.injEq, exists_eq', true_iff]
    omega

theorem place_assignment_eq_error_iff :
    (∃ e, f.place (.assignment a) = .error e) ↔ a.scope ≠ f.scope := by
  rw [place]
  by_cases ha : a.scope = f.scope <;> simp [ha]

theorem kind_of_place (h : f.place c = .error e) : e.kind = .value := by
  cases c with
  | index i =>
    rw [place] at h
    split at h
    · exact nomatch h
    · rw [← Except.error.inj h]
      exact Fault.kind_told_of_value rfl
  | assignment b =>
    rw [place] at h
    split at h
    · exact nomatch h
    · rw [← Except.error.inj h]
      exact Fault.kind_told_of_value rfl

theorem get_of_place (h : f.place c = .ok n) : f.get c = .ok (f.table.getD n .zero) := by
  rw [get, h]
  rfl

theorem get_of_error (h : f.place c = .error e) : f.get c = .error e := by
  rw [get, h]
  rfl

theorem set_of_place (h : f.place c = .ok n) (x : Double) : ∃ g, f.set c x = .ok g ∧
    g.scope = f.scope ∧ g.table = f.table.setIfInBounds n x := by
  rw [set, h]
  exact ⟨_, rfl, rfl, rfl⟩

theorem set_eq_error_iff : f.set c x = .error e ↔ f.place c = .error e := by
  cases h : f.place c with
  | ok n =>
    obtain ⟨g, hg, -⟩ := set_of_place h x
    rw [hg]
    exact ⟨nofun, nofun⟩
  | error d =>
    have hset : f.set c x = .error d := by
      rw [set, h]
      rfl
    rw [hset, Except.error.injEq, Except.error.injEq]

theorem get_of_names (ha : a.scope = f.scope) (hc : c.names a) : f.get c = .ok (f.value a) :=
  get_of_place ((names_iff_place ha).1 hc)

theorem write_of_error (h : f.place c = .error e) (x : Double) : f.write (c, x) = f := by
  rw [write, set_eq_error_iff.2 h]

theorem write_of_place (h : f.place c = .ok n) (x : Double) :
    (f.write (c, x)).scope = f.scope ∧ (f.write (c, x)).table = f.table.setIfInBounds n x := by
  obtain ⟨g, hg, hkept⟩ := set_of_place h x
  rw [write, hg]
  exact hkept

theorem scope_write (f : Factor) (w : Cell × Double) : (f.write w).scope = f.scope := by
  cases h : f.place w.1 with
  | ok n => exact (write_of_place h w.2).1
  | error e => rw [write_of_error h]

/-- A write changes the value at the assignment of its cell, and no other. -/
theorem value_write (ha : a.scope = f.scope) :
    (f.write (c, x)).value a = if c.names a then x else f.value a := by
  have hlt := index_lt_table ha
  have hnames := names_iff_place (c := c) ha
  cases h : f.place c with
  | error e =>
    rw [write_of_error h, if_neg]
    rw [hnames, h]
    exact nofun
  | ok n =>
    rw [value, (write_of_place h x).2, Array.getD_eq_getD_getElem?, Array.getElem?_setIfInBounds]
    by_cases hn : n = a.index
    · have hc : c.names a := hnames.2 (hn ▸ h)
      rw [if_pos hn, if_pos (hn ▸ hlt), if_pos hc]
      rfl
    · have hc : ¬ c.names a := by
        rw [hnames, h]
        exact fun h => hn (Except.ok.inj h)
      rw [if_neg hn, if_neg hc, value, Array.getD_eq_getD_getElem?]

theorem scope_writes (f : Factor) (ws : List (Cell × Double)) : (f.writes ws).scope = f.scope := by
  induction ws generalizing f with
  | nil => rfl
  | cons w ws ih => exact (ih (f.write w)).trans (f.scope_write w)

theorem writes_concat (f : Factor) (ws : List (Cell × Double)) (w : Cell × Double) :
    f.writes (ws ++ [w]) = (f.writes ws).write w := by
  rw [writes, List.foldl_append]
  rfl

theorem lastWrite_concat (a : Assignment) (ws : List (Cell × Double)) (w : Cell × Double) :
    lastWrite a (ws ++ [w]) = if w.1.names a then some w.2 else lastWrite a ws := by
  rw [lastWrite, lastWrite, List.reverse_append, List.reverse_singleton, List.singleton_append,
    List.find?_cons]
  cases w.1.names a <;> rfl

theorem value_writes (ha : a.scope = f.scope) (ws : List (Cell × Double)) :
    (f.writes ws).value a = (lastWrite a ws).getD (f.value a) := by
  induction ws using List.reverseRecOn with
  | nil => rfl
  | append_singleton ws w ih =>
    rw [writes_concat, value_write (ha.trans (scope_writes f ws).symm), ih, lastWrite_concat]
    split_ifs <;> rfl

/-- After any writes, refused ones among them, what is read at an assignment, by either name, was
written there last, or is the value from before if nothing was. A write at one assignment leaves the
values at all others. An access is refused exactly if the index is out of range or the assignment is
over another scope; it is a bad value then, and nothing changes. -/
theorem reads_last_write (f : Factor) (ws : List (Cell × Double)) :
    (∀ a : Assignment, a.scope = f.scope → ∃ x, f.get (.assignment a) = .ok x ∧
      (f.writes ws).get (.assignment a) = .ok ((lastWrite a ws).getD x) ∧
      (f.writes ws).get (.index a.index) = .ok ((lastWrite a ws).getD x)) ∧
    (∀ a b : Assignment, a.scope = f.scope → b.scope = f.scope → a ≠ b →
      ∀ (c : Cell) (x : Double), c.names a →
        (∃ g, (f.writes ws).set c x = .ok g) ∧
        (f.writes (ws ++ [(c, x)])).get (.assignment b) = (f.writes ws).get (.assignment b)) ∧
    (∀ (i : Int) (x : Double),
      (∃ e, (f.writes ws).set (.index i) x = .error e) ↔ i < 0 ∨ f.scope.size ≤ i) ∧
    (∀ (a : Assignment) (x : Double),
      (∃ e, (f.writes ws).set (.assignment a) x = .error e) ↔ a.scope ≠ f.scope) ∧
    ∀ (c : Cell) (x : Double) (e : Fault), (f.writes ws).set c x = .error e →
      e.kind = .value ∧ (f.writes ws).get c = .error e ∧
        f.writes (ws ++ [(c, x)]) = f.writes ws := by
  have hscope := scope_writes f ws
  refine ⟨fun a ha => ?_, fun a b ha hb hne c x hc => ?_, fun i x => ?_, fun a x => ?_,
    fun c x e h => ?_⟩
  · have ha' := ha.trans hscope.symm
    refine ⟨f.value a, get_of_names ha (Cell.names_assignment.2 rfl), ?_, ?_⟩
    · rw [get_of_names ha' (Cell.names_assignment.2 rfl), value_writes ha]
    · rw [get_of_names ha' (Cell.names_index.2 rfl), value_writes ha]
  · have ha' := ha.trans hscope.symm
    have hb' := hb.trans hscope.symm
    have hb'' := hb.trans (scope_writes f (ws ++ [(c, x)])).symm
    obtain ⟨g, hg, -⟩ := set_of_place ((names_iff_place ha').1 hc) x
    refine ⟨⟨g, hg⟩, ?_⟩
    have hcb : ¬ c.names b := fun hcb => hne (eq_of_names ha hb hc hcb)
    rw [get_of_names hb'' (Cell.names_assignment.2 rfl), writes_concat, value_write hb', if_neg hcb,
      get_of_names hb' (Cell.names_assignment.2 rfl)]
  · simp only [set_eq_error_iff, place_index_eq_error_iff, hscope]
  · simp only [set_eq_error_iff, place_assignment_eq_error_iff, hscope]
  · have hplace := set_eq_error_iff.1 h
    exact ⟨kind_of_place hplace, get_of_error hplace,
      (writes_concat f ws (c, x)).trans (write_of_error hplace x)⟩

end Factor
end FactorForest
