import FactorForest.Proofs.Index

set_option autoImplicit false

namespace FactorForest

open Fault
open Scope (stridesFrom volume)

namespace Scope

variable {s : Scope} {id : Int} {n : Nat} {v : Variable}

theorem indexOf_eq_ok_iff :
    s.indexOf id = .ok n ↔ ∃ v, s.vars[n]? = some v ∧ (v.id : Int) = id := by
  rw [indexOf]
  cases hf : s.vars.findIdx? fun v => (v.id : Int) == id with
  | none =>
    refine ⟨nofun, ?_⟩
    rintro ⟨v, hv, rfl⟩
    have hnot := List.findIdx?_eq_none_iff.1 hf v (List.mem_of_getElem? hv)
    exact absurd hnot (by simp)
  | some i =>
    obtain ⟨hi, hid, -⟩ := List.findIdx?_eq_some_iff_getElem.1 hf
    rw [Except.ok.injEq]
    constructor
    · rintro rfl
      exact ⟨_, List.getElem?_eq_getElem hi, beq_iff_eq.1 hid⟩
    · -- no two variables have one id, so the place that is found first is the only one
      rintro ⟨v, hv, hvid⟩
      have hn := (List.getElem?_eq_some_iff.1 hv).1
      have hids : s.vars[i].id = s.vars[n].id := by
        rw [(List.getElem?_eq_some_iff.1 hv).2, ← Int.ofNat_inj, hvid]
        exact beq_iff_eq.1 hid
      have hsame :=
        List.inj_on_of_nodup_map s.ids_nodup (List.getElem_mem hi) (List.getElem_mem hn) hids
      exact (List.Nodup.getElem_inj_iff s.ids_nodup.of_map).1 hsame

theorem indexOf_getElem? (hv : s.vars[n]? = some v) : s.indexOf v.id = .ok n :=
  indexOf_eq_ok_iff.2 ⟨v, hv, rfl⟩

theorem indexOf_of_absent (h : ∀ v ∈ s.vars, (v.id : Int) ≠ id) :
    s.indexOf id = .error (.told (.absentVariable id s.vars)) := by
  have hnone : s.vars.findIdx? (fun v => (v.id : Int) == id) = none :=
    List.findIdx?_eq_none_iff.2 fun v hv => beq_eq_false_iff_ne.2 (h v hv)
  rw [indexOf, hnone]

def Writable (s : Scope) : Prop := ∀ n ∈ scopeNumbers s.vars, writable n

theorem told_absentVariable_of_writable (h : writable id ∧ s.Writable) :
    told (.absentVariable id s.vars) = .absentVariable id s.vars :=
  told_of_writable (List.forall_mem_cons.2 h)

theorem told_absentVariable_of_not_writable (h : ¬ (writable id ∧ s.Writable)) :
    told (.absentVariable id s.vars) = .hugeNumber := by
  rcases not_and_or.1 h with hid | hs
  · exact told_of_not_writable List.mem_cons_self hid
  · obtain ⟨n, hn, hw⟩ := not_forall₂.1 hs
    exact told_of_not_writable (List.mem_cons_of_mem _ hn) hw

/-- The stride at a place is the product of the arities in front of it. -/
theorem getElem?_stridesFrom {vs : List Variable} (hv : vs[n]? = some v) (acc : Nat) :
    (stridesFrom acc vs)[n]? = some (acc * volume (vs.take n)) := by
  induction vs generalizing n acc with
  | nil => exact nomatch hv
  | cons w vs ih =>
    cases n with
    | zero => simp [stridesFrom, volume]
    | succ n =>
      rw [stridesFrom, List.getElem?_cons_succ, ih hv, List.take_succ_cons, volume, Nat.mul_assoc]

theorem getElem?_strides (hv : s.vars[n]? = some v) :
    s.strides[n]? = some (volume (s.vars.take n)) := by
  rw [strides, getElem?_stridesFrom hv, Nat.one_mul]

end Scope

namespace Assignment

variable {a b c : Assignment} {id : Int} {n : Nat} {v : Variable}

theorem fits_getElem? {vs : List Variable} {xs : List Nat} (h : Fits vs xs) {i : Nat}
    {v : Variable} (hv : vs[i]? = some v) : ∃ x, xs[i]? = some x ∧ x < v.arity := by
  induction vs generalizing xs i with
  | nil => exact nomatch hv
  | cons w vs ih =>
    cases xs with
    | nil => exact h.elim
    | cons x xs =>
      cases i with
      | zero =>
        cases hv
        exact ⟨x, rfl, h.1⟩
      | succ i => exact ih h.2 hv

theorem get_of_indexOf (h : a.scope.indexOf id = .ok n) : a.get id = .ok (a.values.getD n 0) := by
  rw [get, h]
  rfl

theorem get_eq_ok_iff {a : Assignment} {i x : Nat} {v : Variable} (hv : a.scope.vars[i]? = some v) :
    a.get v.id = .ok x ↔ a.values[i]? = some x := by
  obtain ⟨y, hy, -⟩ := fits_getElem? a.fits hv
  rw [get_of_indexOf (Scope.indexOf_getElem? hv), List.getD_eq_getElem?_getD, hy]
  simp

theorem get_mem {a : Assignment} {v : Variable} (hv : v ∈ a.scope.vars) :
    ∃ x, a.get v.id = .ok x ∧ x < v.arity := by
  obtain ⟨i, hi⟩ := List.getElem?_of_mem hv
  obtain ⟨x, hx, hlt⟩ := fits_getElem? a.fits hi
  exact ⟨x, (get_eq_ok_iff hi).2 hx, hlt⟩

theorem fits_set {vs : List Variable} {xs : List Nat} (h : Fits vs xs) (hv : vs[n]? = some v)
    {x : Nat} (hx : x < v.arity) : Fits vs (xs.set n x) := by
  induction vs generalizing xs n with
  | nil => exact nomatch hv
  | cons w vs ih =>
    cases xs with
    | nil => exact h.elim
    | cons y xs =>
      cases n with
      | zero =>
        cases hv
        exact ⟨hx, h.2⟩
      | succ n => exact ⟨h.1, ih h.2 hv⟩

theorem outlier?_set {vs : List Variable} {xs : List Nat} (h : Fits vs xs)
    (hv : vs[n]? = some v) {x : Int} (hx : ¬ (0 ≤ x ∧ x < v.arity)) :
    outlier? vs ((xs.map Int.ofNat).set n x) = some (.valueRange x v.id v.arity) := by
  induction vs generalizing xs n with
  | nil => exact nomatch hv
  | cons w vs ih =>
    cases xs with
    | nil => exact h.elim
    | cons y xs =>
      cases n with
      | zero =>
        cases hv
        rw [List.map_cons, List.set_cons_zero, outlier?, if_neg hx]
      | succ n =>
        have hy : 0 ≤ Int.ofNat y ∧ Int.ofNat y < w.arity :=
          ⟨Int.natCast_nonneg y, Int.ofNat_lt.2 h.1⟩
        rw [List.map_cons, List.set_cons_succ, outlier?, if_pos hy]
        exact ih h.2 hv

theorem ofValues_of_outlier {s : Scope} {xs : List Int} {e : Fault}
    (hl : xs.length = s.vars.length) (h : outlier? s.vars xs = some e) :
    ofValues s xs = .error e.told := by
  rw [ofValues, dif_pos hl]
  split
  · rename_i hf
    rw [Option.some.inj (hf.symm.trans h)]
  · rename_i hf
    exact absurd (hf.symm.trans h) (by simp)

theorem set_of_indexOf (h : a.scope.indexOf id = .ok n) (x : Int) :
    a.set id x = ofValues a.scope ((a.values.map Int.ofNat).set n x) := by
  rw [set, h]
  rfl

theorem set_of_lt (hv : a.scope.vars[n]? = some v) {x : Nat} (hx : x < v.arity) :
    ∃ b, a.set v.id x = .ok b ∧ b.scope = a.scope ∧ b.values = a.values.set n x := by
  have hvalues := ofValues_values ⟨a.scope, a.values.set n x, fits_set a.fits hv hx⟩
  rw [List.map_set] at hvalues
  exact ⟨_, (set_of_indexOf (Scope.indexOf_getElem? hv) x).trans hvalues, rfl, rfl⟩

theorem set_of_not_lt (hv : a.scope.vars[n]? = some v) {x : Int} (hx : x < 0 ∨ v.arity ≤ x) :
    a.set v.id x = .error (.told (.valueRange x v.id v.arity)) := by
  have hlength : ((a.values.map Int.ofNat).set n x).length = a.scope.vars.length := by
    rw [List.length_set, List.length_map, length_of_fits a.fits]
  have hout := outlier?_set a.fits hv (x := x) (by omega)
  exact (set_of_indexOf (Scope.indexOf_getElem? hv) x).trans (ofValues_of_outlier hlength hout)

theorem set_of_absent (h : ∀ v ∈ a.scope.vars, (v.id : Int) ≠ id) (x : Int) :
    a.set id x = .error (.told (.absentVariable id a.scope.vars)) := by
  rw [set, Scope.indexOf_of_absent h]
  rfl

/-- An update succeeds for a variable of the scope and a value below its arity, and puts the value
at the place of the variable. -/
theorem set_eq_ok_iff {x : Int} : a.set id x = .ok b ↔
    ∃ n v, ∃ y : Nat, a.scope.vars[n]? = some v ∧ (v.id : Int) = id ∧ x = y ∧ y < v.arity ∧
      b.scope = a.scope ∧ b.values = a.values.set n y := by
  constructor
  · intro h
    by_cases hid : ∃ v ∈ a.scope.vars, (v.id : Int) = id
    · obtain ⟨v, hmem, rfl⟩ := hid
      obtain ⟨n, hv⟩ := List.getElem?_of_mem hmem
      by_cases hx : x < 0 ∨ v.arity ≤ x
      · exact nomatch (set_of_not_lt hv hx).symm.trans h
      · obtain ⟨y, rfl⟩ := Int.eq_ofNat_of_zero_le (a := x) (by omega)
        have hy : y < v.arity := by omega
        obtain ⟨d, hd, hscope, hvalues⟩ := set_of_lt hv hy
        cases hd.symm.trans h
        exact ⟨n, v, y, hv, rfl, rfl, hy, hscope, hvalues⟩
    · have habsent := set_of_absent (a := a) (fun v hv hvid => hid ⟨v, hv, hvid⟩) x
      exact nomatch habsent.symm.trans h
  · rintro ⟨n, v, y, hv, rfl, rfl, hy, hscope, hvalues⟩
    obtain ⟨d, hd, hdscope, hdvalues⟩ := set_of_lt hv hy
    rw [hd, ext (hdscope.trans hscope.symm) (hdvalues.trans hvalues.symm)]

theorem scope_of_set {x : Int} (h : a.set id x = .ok b) : b.scope = a.scope := by
  obtain ⟨-, -, -, -, -, -, -, hscope, -⟩ := set_eq_ok_iff.1 h
  exact hscope

theorem get_set_of_ne {x j : Int} (h : a.set id x = .ok b) (hj : j ≠ id) : b.get j = a.get j := by
  obtain ⟨n, v, y, hv, hid, -, -, hscope, hvalues⟩ := set_eq_ok_iff.1 h
  cases hm : a.scope.indexOf j with
  | error e =>
    rw [get, get, hscope, hm]
    rfl
  | ok m =>
    have hnm : n ≠ m := by
      rintro rfl
      obtain ⟨w, hw, hwid⟩ := Scope.indexOf_eq_ok_iff.1 hm
      cases hv.symm.trans hw
      exact hj (hwid.symm.trans hid)
    rw [get_of_indexOf hm, get_of_indexOf (hscope ▸ hm), hvalues, List.getD_eq_getElem?_getD,
      List.getElem?_set_ne hnm, List.getD_eq_getElem?_getD]

theorem dot_set {xs ys : List Nat} {old k : Nat} (hx : xs[n]? = some old) (hy : ys[n]? = some k)
    (x : Nat) : dot (xs.set n x) ys + old * k = dot xs ys + x * k := by
  induction xs generalizing ys n with
  | nil => exact nomatch hx
  | cons z xs ih =>
    cases ys with
    | nil => exact nomatch hy
    | cons m ys =>
      cases n with
      | zero =>
        cases hx
        cases hy
        rw [List.set_cons_zero, dot, dot]
        omega
      | succ n =>
        have hrest := ih hx hy
        rw [List.set_cons_succ, dot, dot]
        omega

theorem index_set (hv : a.scope.vars[n]? = some v) {old x : Nat} (hold : a.values[n]? = some old)
    (hscope : b.scope = a.scope) (hvalues : b.values = a.values.set n x) :
    (b.index : Int) = a.index + ((x : Int) - old) * volume (a.scope.vars.take n) := by
  have hsum := congrArg (Nat.cast (R := Int)) (dot_set hold (Scope.getElem?_strides hv) x)
  rw [← hvalues, ← hscope] at hsum
  push_cast at hsum
  rw [index, index, Int.sub_mul, ← hscope]
  omega

theorem set_set {x : Int} (h : a.set id x = .ok b) (y : Int) : b.set id y = a.set id y := by
  obtain ⟨n, v, z, hv, rfl, -, -, hscope, hvalues⟩ := set_eq_ok_iff.1 h
  have hv' : b.scope.vars[n]? = some v := hscope ▸ hv
  by_cases hy : y < 0 ∨ v.arity ≤ y
  · rw [set_of_not_lt hv hy, set_of_not_lt hv' hy]
  · obtain ⟨y, rfl⟩ := Int.eq_ofNat_of_zero_le (a := y) (by omega)
    have hlt : y < v.arity := by omega
    obtain ⟨c, hc, hcscope, hcvalues⟩ := set_of_lt hv hlt
    obtain ⟨d, hd, hdscope, hdvalues⟩ := set_of_lt hv' hlt
    rw [hvalues, List.set_set] at hdvalues
    rw [hc, hd, ext ((hdscope.trans hscope).trans hcscope.symm) (hdvalues.trans hcvalues.symm)]

theorem set_comm {i j x y : Int} (hij : i ≠ j) (hb : a.set i x = .ok b) (hc : a.set j y = .ok c) :
    ∃ d, b.set j y = .ok d ∧ c.set i x = .ok d := by
  obtain ⟨n, v, p, hv, rfl, rfl, hp, hbscope, hbvalues⟩ := set_eq_ok_iff.1 hb
  obtain ⟨m, w, q, hw, rfl, rfl, hq, hcscope, hcvalues⟩ := set_eq_ok_iff.1 hc
  have hnm : n ≠ m := by
    rintro rfl
    cases hv.symm.trans hw
    exact hij rfl
  obtain ⟨d, hd, hdscope, hdvalues⟩ := set_of_lt (a := b) (hbscope ▸ hw) hq
  refine ⟨d, hd, set_eq_ok_iff.2 ⟨n, v, p, hcscope ▸ hv, rfl, rfl, hp, ?_, ?_⟩⟩
  · rw [hdscope, hbscope, hcscope]
  · rw [hdvalues, hbvalues, hcvalues, List.set_comm _ _ hnm]

/-- An update of one of the assignments that were made so far. -/
structure Update where
  source : Nat
  id : Int
  value : Int

/-- The assignments made so far after one more update. Its copy comes last; a refused one adds
nothing. -/
def update (made : List Assignment) (u : Update) : List Assignment :=
  match made[u.source]? with
  | none => made
  | some a =>
    match a.set u.id u.value with
    | .ok b => made ++ [b]
    | .error _ => made

def updates (a : Assignment) (us : List Update) : List Assignment := us.foldl update [a]

theorem update_cases (made : List Assignment) (u : Update) :
    update made u = made ∨
      ∃ a ∈ made, ∃ b, a.set u.id u.value = .ok b ∧ update made u = made ++ [b] := by
  rw [update]
  split
  · exact .inl rfl
  · rename_i a ha
    split
    · rename_i b hb
      exact .inr ⟨a, List.mem_of_getElem? ha, b, hb, rfl⟩
    · exact .inl rfl

theorem updates_concat (a : Assignment) (us : List Update) (u : Update) :
    a.updates (us ++ [u]) = update (a.updates us) u := by
  rw [updates, List.foldl_append]
  rfl

theorem exists_copies (a : Assignment) (us : List Update) :
    ∃ copies, a.updates us = a :: copies ∧ ∀ b ∈ copies, b.scope = a.scope := by
  induction us using List.reverseRecOn with
  | nil => exact ⟨[], rfl, nofun⟩
  | append_singleton us u ih =>
    obtain ⟨copies, hcopies, hscope⟩ := ih
    rw [updates_concat, hcopies]
    rcases update_cases (a :: copies) u with h | ⟨c, hc, b, hb, h⟩
    · exact ⟨copies, h, hscope⟩
    · have hsource : c.scope = a.scope := by
        rcases List.mem_cons.1 hc with rfl | hc
        · rfl
        · exact hscope c hc
      refine ⟨copies ++ [b], h, List.forall_mem_append.2 ⟨hscope, List.forall_mem_singleton.2 ?_⟩⟩
      exact (scope_of_set hb).trans hsource

/-- Updates of single variables. For a variable of the scope and a value below its arity there is a
copy over the same scope that has this value there and differs nowhere else, and its linear index is
moved by the change of the value times the stride of the variable, which is the product of the
arities in front of it. Updates of two variables give the same in either order, and after an update
a second one of the same variable does what it does without the first. A value out of range is
refused as a value. An id that is not in the scope is refused as a key, unless the id or a number of
the scope has too many digits to be told. However many updates are tried, of an assignment or of its
copies, the assignment itself stays as it was. -/
theorem updates_one_variable (a : Assignment) :
    (∀ n v, a.scope.vars[n]? = some v → ∀ x : Nat, x < v.arity → ∃ b old,
      a.set v.id x = .ok b ∧ b.scope = a.scope ∧ b.get v.id = .ok x ∧
      (∀ id : Int, id ≠ v.id → b.get id = a.get id) ∧ a.get v.id = .ok old ∧
      a.scope.strides[n]? = some (volume (a.scope.vars.take n)) ∧
      (b.index : Int) = a.index + ((x : Int) - old) * volume (a.scope.vars.take n)) ∧
    (∀ i j x y b c, i ≠ j → a.set i x = .ok b → a.set j y = .ok c →
      ∃ d, b.set j y = .ok d ∧ c.set i x = .ok d) ∧
    (∀ id x b, a.set id x = .ok b → ∀ y, b.set id y = a.set id y) ∧
    (∀ id, (∀ v ∈ a.scope.vars, (v.id : Int) ≠ id) → ∀ x, ∃ e, a.set id x = .error e ∧
      (writable id ∧ a.scope.Writable → e = .absentVariable id a.scope.vars ∧ e.kind = .key) ∧
      (¬ (writable id ∧ a.scope.Writable) → e = .hugeNumber ∧ e.kind = .value)) ∧
    (∀ v ∈ a.scope.vars, ∀ x : Int, x < 0 ∨ v.arity ≤ x →
      ∃ e, a.set v.id x = .error e ∧ e = .told (.valueRange x v.id v.arity) ∧ e.kind = .value) ∧
    ∀ us, ∃ copies, a.updates us = a :: copies ∧ ∀ b ∈ copies, b.scope = a.scope := by
  refine ⟨fun n v hv x hx => ?_, fun i j x y b c hij hb hc => set_comm hij hb hc,
    fun id x b h y => set_set h y,
    fun id hid x => ⟨_, set_of_absent hid x, fun hw => ?_, fun hw => ?_⟩,
    fun v hmem x hx => ?_, exists_copies a⟩
  · obtain ⟨b, hb, hscope, hvalues⟩ := set_of_lt hv hx
    obtain ⟨old, hold, -⟩ := fits_getElem? a.fits hv
    have hn : n < a.values.length := (List.getElem?_eq_some_iff.1 hold).1
    refine ⟨b, old, hb, hscope, (get_eq_ok_iff (hscope ▸ hv)).2 ?_,
      fun id hid => get_set_of_ne hb hid, (get_eq_ok_iff hv).2 hold, Scope.getElem?_strides hv,
      index_set hv hold hscope hvalues⟩
    rw [hvalues, List.getElem?_set_self hn]
  · rw [Scope.told_absentVariable_of_writable hw]
    exact ⟨rfl, rfl⟩
  · rw [Scope.told_absentVariable_of_not_writable hw]
    exact ⟨rfl, rfl⟩
  · obtain ⟨n, hv⟩ := List.getElem?_of_mem hmem
    exact ⟨_, set_of_not_lt hv hx, rfl, kind_told_of_value rfl⟩

/-- Three variables whose ids have gaps, with the arities 3, 2 and 4. -/
def sparse : Scope := ⟨[.upTo 0 2, .upTo 2 1, .upTo 5 3], by decide⟩

theorem updates_one_variable_sparse : ∃ b, (decode sparse 5).set 5 3 = .ok b ∧
    (b.get 0 = .ok 2 ∧ b.get 2 = .ok 1 ∧ b.get 5 = .ok 3) ∧
    (decode sparse 5).index = 5 ∧ b.index = 5 + 3 * 6 ∧
    (decode sparse 5).set 3 0 = .error (.absentVariable 3 sparse.vars) ∧
    (Fault.absentVariable 3 sparse.vars).kind = .key := by
  obtain ⟨hset, -, -, habsent, -⟩ := updates_one_variable (decode sparse 5)
  obtain ⟨b, old, hb, -, hnew, helse, hold, -, hindex⟩ := hset 2 (.upTo 5 3) rfl 3 (by decide)
  obtain rfl : 0 = old := Except.ok.inj hold
  obtain ⟨e, he, hkey, -⟩ := habsent 3 (by decide) 0
  have hwritable : writable 3 ∧ sparse.Writable := by
    refine ⟨by decide +kernel, ?_⟩
    rw [Scope.Writable]
    decide +kernel
  obtain ⟨rfl, hkind⟩ := hkey hwritable
  refine ⟨b, hb, ⟨(helse 0 (by decide)).trans rfl, (helse 2 (by decide)).trans rfl, hnew⟩, rfl, ?_,
    he, hkind⟩
  exact Int.ofNat_inj.1 (hindex.trans rfl)

/-- An id with one digit too many is not refused as a key. -/
theorem set_of_countless_id : ¬ ∀ (a : Assignment) (id x : Int),
    (∀ v ∈ a.scope.vars, (v.id : Int) ≠ id) → ∃ e, a.set id x = .error e ∧ e.kind = .key := by
  intro h
  let a := first (Scope.single (.upTo 0 1))
  have habsent : ∀ v ∈ a.scope.vars, (v.id : Int) ≠ 10 ^ writtenDigits :=
    List.forall_mem_singleton.2 (Int.ne_of_lt (Int.pow_pos (by decide)))
  obtain ⟨e, he, hkey⟩ := h a (10 ^ writtenDigits) 0 habsent
  have hrun := set_of_absent habsent 0
  rw [Scope.told_absentVariable_of_not_writable fun hw => not_writable_pow hw.1] at hrun
  cases hrun.symm.trans he
  exact absurd hkey (by decide)

end Assignment
end FactorForest
