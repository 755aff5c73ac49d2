import FactorForest.Proofs.IdMap
import FactorForest.Proofs.Model.Cells

set_option autoImplicit false

namespace FactorForest

open Scope (stridesFrom volume)

namespace Assignment

variable {s : Scope} {listed : List Variable} {value : Nat → Nat}

/-- The values of listed variables in turn; those of the first one change fastest. -/
def odometer : List Variable → List (List Nat)
  | [] => [[]]
  | v :: vs => (odometer vs).flatMap fun xs => (List.range v.arity).map fun x => x :: xs

def turned (s : Scope) (listed : List Variable) (xs : List Nat) : Except Fault Assignment :=
  let byId := IdMap.ofList ((listed.map fun v => v.id).zip xs)
  ofValues s (s.vars.map fun v => Int.ofNat ((byId.find? v.id).getD 0))

theorem range_mul (m n : Nat) :
    List.range (m * n) = (List.range n).flatMap fun i => (List.range m).map (m * i + ·) := by
  induction n with
  | zero => rfl
  | succ n ih =>
    rw [Nat.mul_succ, List.range_add, ih, List.range_succ, List.flatMap_append,
      List.flatMap_singleton]

theorem odometer_eq (vs : List Variable) :
    odometer vs = (List.range (volume vs)).map (digitsOf vs) := by
  induction vs with
  | nil => rfl
  | cons v vs ih =>
    rw [odometer, ih, volume, range_mul, List.flatMap_map, List.map_flatMap]
    refine List.flatMap_congr fun i _ => ?_
    rw [List.map_map]
    refine List.map_congr_left fun x hx => ?_
    have hx : x < v.arity := List.mem_range.1 hx
    rw [Function.comp_apply, digitsOf, Nat.mul_add_mod, Nat.mod_eq_of_lt hx,
      Nat.mul_add_div v.arity_pos, Nat.div_eq_of_lt hx, Nat.add_zero]

theorem lt_of_fits_map (h : Fits listed (listed.map fun v => value v.id)) :
    ∀ v ∈ listed, value v.id < v.arity := by
  induction listed with
  | nil => exact fun v hv => nomatch hv
  | cons w vs ih => exact List.forall_mem_cons.2 ⟨h.1, ih h.2⟩

theorem exists_value (hids : (listed.map fun v => v.id).Nodup) {xs : List Nat}
    (hxs : Fits listed xs) : ∃ value : Nat → Nat, xs = listed.map fun v => value v.id := by
  induction listed generalizing xs with
  | nil =>
    cases xs with
    | nil => exact ⟨fun _ => 0, rfl⟩
    | cons x xs => exact hxs.elim
  | cons v vs ih =>
    cases xs with
    | nil => exact hxs.elim
    | cons x xs =>
      obtain ⟨hv, hids⟩ := List.nodup_cons.1 hids
      obtain ⟨value, rfl⟩ := ih hids hxs.2
      refine ⟨Function.update value v.id x, ?_⟩
      rw [List.map_cons, Function.update_self]
      congr 1
      refine List.map_congr_left fun w hw => ?_
      rw [Function.update_of_ne]
      exact fun hid => hv (List.mem_map.2 ⟨w, hw, hid⟩)

def ofFun (s : Scope) (value : Nat → Nat) (h : ∀ v ∈ s.vars, value v.id < v.arity) : Assignment :=
  ⟨s, s.vars.map fun v => value v.id, fits_map h⟩

theorem get_ofFun {h : ∀ v ∈ s.vars, value v.id < v.arity} {v : Variable} (hv : v ∈ s.vars) :
    (ofFun s value h).get v.id = .ok (value v.id) := by
  obtain ⟨i, hi⟩ := List.getElem?_of_mem hv
  refine (get_eq_ok_iff (a := ofFun s value h) hi).2 ?_
  change (s.vars.map fun v => value v.id)[i]? = _
  rw [List.getElem?_map, hi, Option.map_some]

theorem values_eq_map {a : Assignment} (h : ∀ v ∈ a.scope.vars, a.get v.id = .ok (value v.id)) :
    a.values = a.scope.vars.map fun v => value v.id := by
  apply List.ext_getElem?
  intro i
  rw [List.getElem?_map]
  cases hv : a.scope.vars[i]? with
  | none =>
    have hlen := List.getElem?_eq_none_iff.1 hv
    rw [← length_of_fits a.fits] at hlen
    exact List.getElem?_eq_none hlen
  | some v => exact (get_eq_ok_iff hv).1 (h v (List.mem_of_getElem? hv))

theorem find?_byId (hids : (listed.map fun v => v.id).Nodup) {v : Variable} (hv : v ∈ listed) :
    (IdMap.ofList ((listed.map fun v => v.id).zip (listed.map fun v => value v.id))).find? v.id =
      some (value v.id) := by
  have hkeys : ((listed.map fun v => (v.id, value v.id)).reverse.map (·.1)).Nodup := by
    rw [List.map_reverse, List.nodup_reverse, List.map_map]
    exact hids
  rw [List.zip_map', IdMap.find?_ofList, lookup_eq_some_iff_mem hkeys, List.mem_reverse]
  exact List.mem_map.2 ⟨v, hv, rfl⟩

theorem turned_map {a : Assignment} (h : a.scope.vars.Perm listed)
    (hvalue : ∀ v ∈ listed, a.get v.id = .ok (value v.id)) :
    turned a.scope listed (listed.map fun v => value v.id) = .ok a := by
  have hids : (listed.map fun v => v.id).Nodup := (h.map _).nodup_iff.1 a.scope.ids_nodup
  have hvalues := values_eq_map fun v hv => hvalue v (h.mem_iff.1 hv)
  rw [turned, ← ofValues_values a, hvalues, List.map_map]
  congr 1
  refine List.map_congr_left fun v hv => ?_
  rw [find?_byId hids (h.mem_iff.1 hv)]
  rfl

end Assignment

namespace Model

open Assignment

variable {s : Scope} {listed : List Variable}

theorem exists_turned (h : s.vars.Perm listed) {xs : List Nat} (hxs : Fits listed xs) :
    ∃ a, turned s listed xs = .ok a ∧ a.scope = s ∧ (listed.map fun v => valueAt a v.id) = xs := by
  obtain ⟨value, rfl⟩ := exists_value ((h.map _).nodup_iff.1 s.ids_nodup) hxs
  have hlt := lt_of_fits_map hxs
  let a := ofFun s value fun v hv => hlt v (h.mem_iff.1 hv)
  have hget : ∀ v ∈ listed, a.get v.id = .ok (value v.id) :=
    fun v hv => get_ofFun (h.mem_iff.2 hv)
  refine ⟨a, turned_map h hget, rfl, List.map_congr_left fun v hv => ?_⟩
  rw [valueAt, hget v hv]

theorem eq_of_valuesAt (h : s.vars.Perm listed) {a b : Assignment} (ha : a.scope = s)
    (hb : b.scope = s)
    (hab : (listed.map fun v => valueAt a v.id) = listed.map fun v => valueAt b v.id) : a = b := by
  subst hb
  apply Assignment.ext ha
  have hget : ∀ v ∈ a.scope.vars, a.get v.id = .ok (valueAt b v.id) := by
    intro v hv
    rw [← List.map_inj_left.1 hab v (h.mem_iff.1 (ha ▸ hv))]
    exact (get_valueAt hv).1
  rw [values_eq_map hget, values_eq_map fun v hv => (get_valueAt hv).1, ha]

theorem mapM_eq_ok {α β : Type} {f : α → Except Fault β} {g : β → α} {P : β → Prop} {xs : List α}
    (h : ∀ x ∈ xs, ∃ y, f x = .ok y ∧ P y ∧ g y = x) :
    ∃ ys, xs.mapM f = .ok ys ∧ (∀ y ∈ ys, P y) ∧ ys.map g = xs := by
  induction xs with
  | nil => exact ⟨[], rfl, by simp, rfl⟩
  | cons x xs ih =>
    obtain ⟨⟨y, hy, hp, hg⟩, hxs⟩ := List.forall_mem_cons.1 h
    obtain ⟨ys, hys, hps, hgs⟩ := ih hxs
    refine ⟨y :: ys, ?_, List.forall_mem_cons.2 ⟨hp, hps⟩, by rw [List.map_cons, hg, hgs]⟩
    rw [List.mapM_cons, hy, hys]
    rfl

theorem fits_valuesAt {a : Assignment} (h : a.scope.vars.Perm listed) :
    Fits listed (listed.map fun v => valueAt a v.id) :=
  fits_map fun _ hv => (get_valueAt (h.mem_iff.2 hv)).2

theorem getElem?_odometer {a : Assignment} (h : a.scope.vars.Perm listed) :
    (odometer listed)[listedIndex (valueAt a) listed]? =
      some (listed.map fun v => valueAt a v.id) := by
  have hlt := (listedIndex_place h).1
  rw [Scope.size, volume_perm h] at hlt
  rw [odometer_eq, List.getElem?_map, List.getElem?_range hlt, Option.map_some, listedIndex_eq,
    digitsOf_dot (fits_valuesAt h)]

theorem nodup_odometer (vs : List Variable) : (odometer vs).Nodup := by
  rw [odometer_eq]
  refine List.Nodup.map_on (fun i hi j hj hij => ?_) List.nodup_range
  rw [← dot_digitsOf (List.mem_range.1 hi), hij, dot_digitsOf (List.mem_range.1 hj)]

/-- The turns mean the assignments of the scope, each of them once, in the order of the listing. -/
theorem mapM_turned (h : s.vars.Perm listed) :
    ∃ turns, (odometer listed).mapM (turned s listed) = .ok turns ∧ turns.Perm (all s) ∧
      ∀ a : Assignment, a.scope = s → turns[listedIndex (valueAt a) listed]? = some a := by
  have hturned : ∀ xs ∈ odometer listed, ∃ a, turned s listed xs = .ok a ∧ a.scope = s ∧
      (listed.map fun v => valueAt a v.id) = xs := by
    intro xs hxs
    rw [odometer_eq] at hxs
    obtain ⟨i, -, rfl⟩ := List.mem_map.1 hxs
    exact exists_turned h (fits_digitsOf listed i)
  obtain ⟨turns, hturns, hscope, hvalues⟩ := mapM_eq_ok hturned
  have hplace : ∀ a : Assignment, a.scope = s →
      turns[listedIndex (valueAt a) listed]? = some a := by
    rintro a rfl
    have hxs := getElem?_odometer h
    rw [← hvalues, List.getElem?_map, Option.map_eq_some_iff] at hxs
    obtain ⟨b, hb, hvaluesAt⟩ := hxs
    rw [hb, eq_of_valuesAt h (hscope b (List.mem_of_getElem? hb)) rfl hvaluesAt]
  have hnodup : turns.Nodup := List.Nodup.of_map _ (hvalues ▸ nodup_odometer listed)
  have hall : (all s).Nodup := List.Nodup.of_map Assignment.index (index_all s ▸ List.nodup_range)
  refine ⟨turns, hturns, (List.perm_ext_iff_of_nodup hnodup hall).2 fun a => ?_, hplace⟩
  rw [mem_all]
  exact ⟨hscope a, fun ha => List.mem_of_getElem? (hplace a ha)⟩

end Model

namespace Factor

open Assignment

theorem ext_cells {f g : Factor} (hs : f.scope = g.scope)
    (h : ∀ a : Assignment, a.scope = f.scope → f.table[a.index]? = g.table[a.index]?) : f = g := by
  have ht : f.table = g.table := by
    apply Array.ext_getElem?
    intro i
    by_cases hi : i < f.scope.size
    · have ha := h (decode f.scope i) rfl
      rwa [index_decode hi] at ha
    · rw [Array.getElem?_eq_none (f.size_eq ▸ Nat.not_lt.1 hi),
        Array.getElem?_eq_none (g.size_eq ▸ hs ▸ Nat.not_lt.1 hi)]
  cases f
  cases g
  cases hs
  cases ht
  rfl

/-- Cells stored one after the other, each at its assignment. -/
def store (f : Factor) (ws : List (Assignment × Double)) : Except Fault Factor :=
  ws.foldlM (fun f w => f.set (.assignment w.1) w.2) f

theorem set_assignment {f : Factor} {a : Assignment} (ha : a.scope = f.scope) (x : Double) :
    ∃ g, f.set (.assignment a) x = .ok g ∧ g.scope = f.scope ∧
      g.table = f.table.setIfInBounds a.index x := by
  have hplace : f.place (.assignment a) = .ok a.index := if_pos ha
  rw [set, hplace]
  exact ⟨_, rfl, rfl, rfl⟩

theorem store_distinct {f : Factor} {ws : List (Assignment × Double)}
    (hscope : ∀ w ∈ ws, w.1.scope = f.scope) (hnodup : (ws.map fun w => w.1.index).Nodup) :
    ∃ g, f.store ws = .ok g ∧ g.scope = f.scope ∧
      (∀ w ∈ ws, g.table[w.1.index]? = some w.2) ∧
      ∀ i, i ∉ ws.map (fun w => w.1.index) → g.table[i]? = f.table[i]? := by
  induction ws generalizing f with
  | nil => exact ⟨f, rfl, rfl, by simp, by simp⟩
  | cons w ws ih =>
    obtain ⟨hw, hscope⟩ := List.forall_mem_cons.1 hscope
    obtain ⟨hnew, hnodup⟩ := List.nodup_cons.1 hnodup
    obtain ⟨g, hg, hgscope, hgtable⟩ := set_assignment hw w.2
    obtain ⟨g', hg', hscope', hstored, hkept⟩ := ih (hgscope ▸ hscope) hnodup
    have hlt : w.1.index < f.table.size := by
      rw [f.size_eq, ← hw]
      exact w.1.index_lt_size
    refine ⟨g', ?_, hscope'.trans hgscope, List.forall_mem_cons.2 ⟨?_, hstored⟩, ?_⟩
    · rw [store, List.foldlM_cons, hg]
      exact hg'
    · rw [hkept _ hnew, hgtable, Array.getElem?_setIfInBounds_self_of_lt hlt]
    · intro i hi
      obtain ⟨hne, hi⟩ := not_or.1 (mt List.mem_cons.2 hi)
      rw [hkept i hi, hgtable, Array.getElem?_setIfInBounds_ne (Ne.symm hne)]

end Factor

namespace Model

open Assignment

variable {s : Scope} {listed : List Variable}

theorem store_turns (h : s.vars.Perm listed) {cells : List Double} (hsize : s.size ≤ cells.length) :
    ∃ turns, (odometer listed).mapM (turned s listed) = .ok turns ∧ turns.Perm (all s) ∧
      (Factor.zero s).store (turns.zip cells) = .ok (placeCells s listed cells.toArray) := by
  obtain ⟨turns, hturns, hperm, hplace⟩ := mapM_turned h
  have hlen : turns.length = s.size := hperm.length_eq.trans (length_all s)
  have hfst : (turns.zip cells).map Prod.fst = turns := List.map_fst_zip (hlen ▸ hsize)
  have hscope : ∀ w ∈ turns.zip cells, w.1.scope = s := by
    intro w hw
    exact mem_all.1 (hperm.mem_iff.1 (List.of_mem_zip hw).1)
  have hnodup : ((turns.zip cells).map fun w => w.1.index).Nodup := by
    have hindices := index_all s ▸ hperm.map Assignment.index
    rw [← hfst, List.map_map] at hindices
    exact hindices.nodup_iff.2 List.nodup_range
  obtain ⟨g, hg, hgscope, hstored, -⟩ := Factor.store_distinct (f := Factor.zero s) hscope hnodup
  have hcell : g = placeCells s listed cells.toArray := by
    refine Factor.ext_cells hgscope fun a ha => ?_
    obtain rfl : a.scope = s := ha.trans hgscope
    have hlt : listedIndex (valueAt a) listed < cells.length :=
      Nat.lt_of_lt_of_le (listedIndex_place h).1 hsize
    have hmem : (a, cells[listedIndex (valueAt a) listed]) ∈ turns.zip cells := by
      refine List.mem_of_getElem? (i := listedIndex (valueAt a) listed) ?_
      rw [List.getElem?_zip_eq_some]
      exact ⟨hplace a rfl, List.getElem?_eq_getElem hlt⟩
    rw [hstored _ hmem, table_placeCells]
    simp [Array.getD, hlt]
  exact ⟨turns, hturns, hperm, hcell ▸ hg⟩

end Model
end FactorForest
