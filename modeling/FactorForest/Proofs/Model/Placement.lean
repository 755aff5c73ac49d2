import FactorForest.Proofs.Model.Acceptance
import FactorForest.Proofs.Model.Reading
import FactorForest.Proofs.Model.Turns
import Mathlib.Algebra.BigOperators.Fin

/-!
Where an accepted factor line puts its cells. The values of the listed variables, each weighed by the
arities listed before it, give the place of a cell in the line; the same values, weighed by the
strides of the scope, give its place in the table. So the order in which a line lists its variables
does not matter if its cells are listed in that order too.
-/

set_option autoImplicit false

namespace FactorForest.Model

open Text Assignment

/-- What a factor line tells: variables by their known names, no two of one id, then the cells and
perhaps a weight. -/
structure Tells (known : Declared) (line : List Char) (listed : List Variable)
    (cells : List Double) (w : Option Double) : Prop where
  distinct : (listed.map fun v => v.id).Nodup
  parts : ∃ front body text, cutAt ['/', '/'] line = some (front, body) ∧
    List.Forall₂ (fun raw v => known.lookup (String.ofList (trim raw)) = some v)
      (pieces '/' front) listed ∧
    readWeight body = .ok (text, w) ∧
    List.Forall₂ (fun word x => Literal.double? word = some x) (words text) cells

/-- The place of values in a listing: each value is weighed by the arities of the variables listed
before its own. -/
def weigh (listed : List Variable) (value : Nat → Nat) : Nat :=
  ∑ i : Fin listed.length, value listed[i].id * ((listed.take i).map fun v => v.arity).prod

/-- Two listings of the same variables have the same cell for all values of these variables. -/
def SameCells (listed : List Variable) (cells : List Double) (listed' : List Variable)
    (cells' : List Double) : Prop :=
  ∀ value : Nat → Nat, (∀ v ∈ listed, value v.id < v.arity) →
    cells'[weigh listed' value]? = cells[weigh listed value]?

variable {known : Declared} {s : Scope} {listed listed' : List Variable} {cells cells' : List Double}
  {w w' : Option Double}

theorem readCells_eq_ok_iff {ws : List (List Char)} :
    readCells ws = .ok cells ↔
      List.Forall₂ (fun word x => Literal.double? word = some x) ws cells := by
  induction ws generalizing cells with
  | nil =>
    rw [readCells, List.forall₂_nil_left_iff]
    exact ⟨fun h => (Except.ok.inj h).symm, fun h => congrArg Except.ok h.symm⟩
  | cons word ws ih =>
    rw [readCells, List.forall₂_cons_left_iff]
    cases Literal.double? word with
    | none => simp
    | some x =>
      cases hws : readCells ws with
      | error e =>
        simp only [Except.map, reduceCtorEq, false_iff]
        rintro ⟨-, rest, -, hrest, -⟩
        rw [ih.2 hrest] at hws
        cases hws
      | ok xs =>
        simp only [Except.map, Except.ok.injEq]
        constructor
        · rintro rfl
          exact ⟨x, xs, rfl, ih.1 hws, rfl⟩
        · rintro ⟨y, ys, hy, hys, rfl⟩
          cases hy
          rw [ih.2 hys] at hws
          rw [Except.ok.inj hws]

theorem tells_of_readFactor {n extra : Nat} {line : List Char} {f : Factor}
    (h : readFactor known n line = .ok (f, w, extra)) :
    ∃ listed cells, Tells known line listed cells w ∧ f.scope.vars.Perm listed ∧
      cells.length = f.scope.size + extra ∧ f = placeCells f.scope listed cells.toArray := by
  obtain ⟨front, body, listed, text, cells, s, hcut, hlisted, hweight, hcells, hs, hsize, rfl, rfl⟩ :=
    readFactor_ok h
  obtain ⟨new, hnew, hlookups⟩ := readNames_ok hlisted
  obtain rfl : listed = new := hnew
  have hperm : s.vars.Perm listed := Scope.vars_of_ofList hs ▸ Variable.sortById_perm listed
  refine ⟨listed, cells, ⟨?_, front, body, text, hcut, ?_, hweight, readCells_eq_ok_iff.1 hcells⟩,
    hperm, ?_, rfl⟩
  · exact (hperm.map _).nodup_iff.1 s.ids_nodup
  · exact List.forall₂_map_left_iff.1 hlookups
  · change cells.length = s.size + (cells.length - s.size)
    omega

theorem Tells.read {line : List Char} (h : Tells known line listed cells w) (hs : s.vars.Perm listed)
    (hsize : s.size ≤ cells.length) (n : Nat) : ∃ extra,
      readFactor known n line = .ok (placeCells s listed cells.toArray, w, extra) := by
  obtain ⟨front, body, text, hcut, hlookups, hweight, hcells⟩ := h.parts
  have hlisted : readNames known [] (pieces '/' front) = .ok listed :=
    Format.readNames_listed (List.forall₂_map_left_iff.2 hlookups) h.distinct.of_map
  obtain ⟨t, ht, hvars⟩ := Scope.ofList_of_nodup h.distinct
  obtain rfl : t = s := by
    apply Scope.ext
    rw [hvars]
    have hperm := (Variable.sortById_perm listed).trans hs.symm
    exact hperm.eq_of_pairwise (fun _ _ _ _ hlt hgt => absurd hlt (Nat.lt_asymm hgt))
      (Variable.pairwise_lt_sortById h.distinct) s.ascending
  refine ⟨cells.length - t.size, ?_⟩
  rw [readFactor, hcut]
  simp only [hlisted, hweight, readCells_eq_ok_iff.2 hcells, ht, atLine, bind, Except.bind, pure,
    Except.pure]
  rw [if_neg (Nat.not_lt.2 hsize)]

theorem listedIndex_eq_weigh (listed : List Variable) (value : Nat → Nat) :
    listedIndex value listed = weigh listed value := by
  induction listed with
  | nil => rfl
  | cons v vs ih =>
    -- behind the first variable every place counts as often as it has values
    change _ = ∑ i : Fin (vs.length + 1), _
    rw [listedIndex, ih, weigh, Fin.sum_univ_succ, Finset.mul_sum]
    congr 1
    · simp
    · refine Finset.sum_congr rfl fun i _ => ?_
      simp [Nat.mul_left_comm]

theorem weigh_congr {value value' : Nat → Nat} (h : ∀ v ∈ listed, value v.id = value' v.id) :
    weigh listed value = weigh listed value' := by
  rw [← listedIndex_eq_weigh, ← listedIndex_eq_weigh, listedIndex_eq, listedIndex_eq,
    List.map_congr_left h]

theorem volume_eq_prod (vs : List Variable) :
    Scope.volume vs = (vs.map fun v => v.arity).prod := by
  induction vs with
  | nil => rfl
  | cons v vs ih => rw [Scope.volume, ih, List.map_cons, List.prod_cons]

theorem exists_value_at (hs : s.vars.Perm listed) {i : Nat} (hi : i < s.size) :
    ∃ value : Nat → Nat, (∀ v ∈ listed, value v.id < v.arity) ∧ weigh listed value = i := by
  have hids : (listed.map fun v => v.id).Nodup := (hs.map _).nodup_iff.1 s.ids_nodup
  have hfits := fits_digitsOf listed i
  obtain ⟨value, hvalue⟩ := exists_value hids hfits
  rw [hvalue] at hfits
  refine ⟨value, lt_of_fits_map hfits, ?_⟩
  rw [Scope.size, volume_perm hs] at hi
  rw [← listedIndex_eq_weigh, listedIndex_eq, ← hvalue, dot_digitsOf hi]

theorem exists_assignment (hs : s.vars.Perm listed) {value : Nat → Nat}
    (hvalue : ∀ v ∈ listed, value v.id < v.arity) :
    ∃ a : Assignment, a.scope = s ∧ ∀ v ∈ listed, a.get v.id = .ok (value v.id) :=
  ⟨ofFun s value fun v hv => hvalue v (hs.mem_iff.1 hv), rfl,
    fun _ hv => get_ofFun (hs.mem_iff.2 hv)⟩

theorem weigh_valueAt {a : Assignment} {value : Nat → Nat}
    (hvalue : ∀ v ∈ listed, a.get v.id = .ok (value v.id)) :
    weigh listed value = listedIndex (valueAt a) listed := by
  rw [listedIndex_eq_weigh]
  refine weigh_congr fun v hv => ?_
  rw [valueAt, hvalue v hv]

/-- The place of values in a listing holds the cell of the assignment with these values. -/
theorem cell_placeCells (hs : s.vars.Perm listed) (hsize : s.size ≤ cells.length) {a : Assignment}
    (ha : a.scope = s) {value : Nat → Nat} (hvalue : ∀ v ∈ listed, a.get v.id = .ok (value v.id)) :
    ∃ x, cells[weigh listed value]? = some x ∧
      (placeCells s listed cells.toArray).table[a.index]? = some x := by
  subst ha
  have hlt := Nat.lt_of_lt_of_le (listedIndex_place hs).1 hsize
  refine ⟨cells[listedIndex (valueAt a) listed], ?_, ?_⟩
  · rw [weigh_valueAt hvalue, List.getElem?_eq_getElem hlt]
  · rw [table_placeCells]
    simp [Array.getD, hlt]

theorem sameCells_of_placeCells (hs : s.vars.Perm listed) (hs' : s.vars.Perm listed')
    (hsize : s.size ≤ cells.length) (hsize' : s.size ≤ cells'.length)
    (h : placeCells s listed' cells'.toArray = placeCells s listed cells.toArray) :
    SameCells listed cells listed' cells' := by
  intro value hvalue
  obtain ⟨a, ha, hget⟩ := exists_assignment hs hvalue
  have hget' : ∀ v ∈ listed', a.get v.id = .ok (value v.id) :=
    fun v hv => hget v (hs.mem_iff.1 (hs'.mem_iff.2 hv))
  obtain ⟨x, hx, htable⟩ := cell_placeCells hs hsize ha hget
  obtain ⟨x', hx', htable'⟩ := cell_placeCells hs' hsize' ha hget'
  rw [hx, hx', ← htable, ← htable', h]

theorem sameCells_of_take (hs : s.vars.Perm listed)
    (h : cells'.take s.size = cells.take s.size) : SameCells listed cells listed cells' := by
  intro value hvalue
  obtain ⟨a, rfl, hget⟩ := exists_assignment hs hvalue
  have hlt := (listedIndex_place hs).1
  rw [weigh_valueAt hget, ← List.getElem?_take_of_lt hlt, h, List.getElem?_take_of_lt hlt]

theorem SameCells.size_le (h : SameCells listed cells listed' cells') (hs : s.vars.Perm listed)
    (hs' : s.vars.Perm listed') (hsize : s.size ≤ cells.length) : s.size ≤ cells'.length := by
  have hpos : 0 < s.size := volume_pos s.vars
  obtain ⟨value, hvalue, hlast⟩ := exists_value_at hs' (Nat.sub_lt hpos Nat.one_pos)
  have hvalue' : ∀ v ∈ listed, value v.id < v.arity :=
    fun v hv => hvalue v (hs'.mem_iff.1 (hs.mem_iff.2 hv))
  obtain ⟨a, ha, hget⟩ := exists_assignment hs hvalue'
  obtain ⟨x, hx, -⟩ := cell_placeCells hs hsize ha hget
  have hcell := h value hvalue'
  rw [hx, hlast] at hcell
  have hlt := (List.getElem?_eq_some_iff.1 hcell).1
  omega

theorem SameCells.placeCells_eq (h : SameCells listed cells listed' cells')
    (hs : s.vars.Perm listed) (hs' : s.vars.Perm listed') (hsize : s.size ≤ cells.length) :
    placeCells s listed' cells'.toArray = placeCells s listed cells.toArray := by
  refine Factor.ext_cells rfl fun a ha => ?_
  have hget : ∀ v ∈ a.scope.vars, a.get v.id = .ok (valueAt a v.id) ∧ valueAt a v.id < v.arity :=
    fun v hv => get_valueAt hv
  obtain rfl : a.scope = s := ha
  obtain ⟨x, hx, htable⟩ := cell_placeCells hs hsize rfl fun v hv => (hget v (hs.mem_iff.2 hv)).1
  obtain ⟨x', hx', htable'⟩ := cell_placeCells hs' (h.size_le hs hs' hsize) rfl
    fun v hv => (hget v (hs'.mem_iff.2 hv)).1
  rw [htable, htable', ← hx, ← hx', h _ fun v hv => (hget v (hs.mem_iff.2 hv)).2]

theorem map_all (f : Factor) :
    ((all f.scope).map fun a => f.table.getD a.index .zero) = f.table.toList := by
  have hindex := congrArg (List.map fun i => f.table.getD i .zero) (index_all f.scope)
  rw [List.map_map] at hindex
  refine hindex.trans ?_
  rw [← f.size_eq]
  apply List.ext_getElem (by simp)
  intro i hi _
  have hlt : i < f.table.size := by simpa using hi
  simp [Array.getD, hlt]

/-- The cells of a listing up to the size of the scope are those of the table, in the order of the
turns. -/
theorem take_perm_table (hs : s.vars.Perm listed) (hsize : s.size ≤ cells.length) :
    (cells.take s.size).Perm (placeCells s listed cells.toArray).table.toList := by
  let f := placeCells s listed cells.toArray
  obtain ⟨turns, -, hperm, hplace⟩ := mapM_turned hs
  have hlen : turns.length = s.size := hperm.length_eq.trans (length_all s)
  have hcells : cells.take s.size = turns.map fun a => f.table.getD a.index .zero := by
    apply List.ext_getElem?
    intro i
    by_cases hi : i < s.size
    · obtain ⟨value, hvalue, rfl⟩ := exists_value_at hs hi
      obtain ⟨a, ha, hget⟩ := exists_assignment hs hvalue
      obtain ⟨x, hx, htable⟩ := cell_placeCells hs hsize ha hget
      rw [List.getElem?_take_of_lt hi, List.getElem?_map, weigh_valueAt hget, hplace a ha,
        ← weigh_valueAt hget, hx, Option.map_some]
      exact congrArg some (by rw [Array.getD_eq_getD_getElem?, htable, Option.getD_some])
    · rw [List.getElem?_eq_none (by simp; omega), List.getElem?_eq_none (by simp; omega)]
  rw [hcells, ← map_all f]
  exact hperm.map _

theorem exists_listing (f : Factor) (hs : f.scope.vars.Perm listed) :
    ∃ cells : List Double, cells.length = f.scope.size ∧
      placeCells f.scope listed cells.toArray = f := by
  obtain ⟨turns, -, hperm, hplace⟩ := mapM_turned hs
  have hlen : (turns.map fun a => f.table.getD a.index .zero).length = f.scope.size := by
    rw [List.length_map, hperm.length_eq, length_all]
  refine ⟨_, hlen, Factor.ext_cells rfl fun a ha => ?_⟩
  obtain ⟨x, hx, htable⟩ := cell_placeCells hs (Nat.le_of_eq hlen.symm) ha
    fun v hv => (get_valueAt (ha ▸ hs.mem_iff.2 hv)).1
  have hlt : a.index < f.table.size := by
    rw [f.size_eq, ← (show a.scope = f.scope from ha)]
    exact a.index_lt_size
  rw [htable, ← hx, ← listedIndex_eq_weigh, List.getElem?_map, hplace a ha]
  simp [Array.getD, hlt]

theorem weigh_scope (a : Assignment) : weigh a.scope.vars (valueAt a) = a.index := by
  rw [← listedIndex_eq_weigh, listedIndex_eq, ← values_eq_map fun v hv => (get_valueAt hv).1]
  rfl

theorem table_of_ascending (hs : s.vars.Perm listed) (hsize : s.size ≤ cells.length)
    (h : listed.Pairwise fun v u => v.id < u.id) :
    (placeCells s listed cells.toArray).table.toList = cells.take s.size := by
  obtain rfl : s.vars = listed :=
    hs.eq_of_pairwise (fun _ _ _ _ hlt hgt => absurd hlt (Nat.lt_asymm hgt)) s.ascending h
  let f := placeCells s s.vars cells.toArray
  apply List.ext_getElem?
  intro i
  rw [Array.getElem?_toList]
  by_cases hi : i < s.size
  · obtain ⟨x, hx, htable⟩ := cell_placeCells hs hsize (a := decode s i) rfl
      fun v hv => (get_valueAt hv).1
    rw [show s.vars = (decode s i).scope.vars from rfl, weigh_scope, index_decode hi] at hx
    rw [index_decode hi] at htable
    rw [htable, List.getElem?_take_of_lt hi, hx]
  · have hnot : ¬ i < f.table.size := f.size_eq ▸ hi
    rw [Array.getElem?_eq_none (Nat.not_lt.1 hnot), List.getElem?_eq_none (by simp; omega)]

/-- The table of an accepted factor line. Each assignment has the cell at the place of its values in
the listing. The turns of the listing are the assignments, each of them once, and storing the cells
turn by turn gives the factor, so a cell beyond the last turn does not count. A listing by ascending
ids is the table, and all lines that list the same variables, in whatever order, with the same cells
for the same values are accepted as the same factor. -/
theorem readFactor_places {n extra : Nat} {line : List Char} {f : Factor}
    (h : readFactor known n line = .ok (f, w, extra)) :
    ∃ listed cells, Tells known line listed cells w ∧ f.scope.vars.Perm listed ∧
      f.scope.size = (listed.map fun v => v.arity).prod ∧ cells.length = f.scope.size + extra ∧
      (∀ a : Assignment, a.scope = f.scope → ∃ value : Nat → Nat,
        (∀ v ∈ listed, a.get v.id = .ok (value v.id)) ∧
        ∃ x, cells[weigh listed value]? = some x ∧ f.table[a.index]? = some x) ∧
      (∃ turns, (odometer listed).mapM (turned f.scope listed) = .ok turns ∧
        turns.Perm (all f.scope) ∧ (Factor.zero f.scope).store (turns.zip cells) = .ok f) ∧
      ((listed.Pairwise fun v u => v.id < u.id) → f.table.toList = cells.take f.scope.size) ∧
      (∀ n' line' cells' w', Tells known line' listed cells' w' →
        cells'.take f.scope.size = cells.take f.scope.size →
        ∃ extra', readFactor known n' line' = .ok (f, w', extra')) ∧
      ∀ listed', listed'.Perm listed →
        (∃ cells', cells'.Perm (cells.take f.scope.size) ∧ SameCells listed cells listed' cells') ∧
        ∀ n' line' cells' w', Tells known line' listed' cells' w' →
          SameCells listed cells listed' cells' →
          ∃ extra', readFactor known n' line' = .ok (f, w', extra') := by
  obtain ⟨listed, cells, htells, hs, hlength, hf⟩ := tells_of_readFactor h
  have hsize : f.scope.size ≤ cells.length := Nat.le.intro hlength.symm
  have haccepts : ∀ listed', listed'.Perm listed → ∀ n' line' cells' w',
      Tells known line' listed' cells' w' → SameCells listed cells listed' cells' →
      ∃ extra', readFactor known n' line' = .ok (f, w', extra') := by
    intro listed' hperm n' line' cells' w' htells' hcells
    have hs' := hs.trans hperm.symm
    obtain ⟨extra', hread⟩ := htells'.read hs' (hcells.size_le hs hs' hsize) n'
    rw [hcells.placeCells_eq hs hs' hsize, ← hf] at hread
    exact ⟨extra', hread⟩
  refine ⟨listed, cells, htells, hs, (volume_perm hs).trans (volume_eq_prod listed), hlength,
    fun a ha => ?_, ?_, fun hascending => ?_, fun n' line' cells' w' htells' hcells => ?_,
    fun listed' hperm => ⟨?_, haccepts listed' hperm⟩⟩
  · have hget : ∀ v ∈ listed, a.get v.id = .ok (valueAt a v.id) :=
      fun v hv => (get_valueAt (ha ▸ hs.mem_iff.2 hv)).1
    rw [hf]
    exact ⟨valueAt a, hget, cell_placeCells hs hsize ha hget⟩
  · obtain ⟨turns, hturns, hall, hstore⟩ := store_turns hs hsize
    exact ⟨turns, hturns, hall, hf ▸ hstore⟩
  · rw [hf]
    exact table_of_ascending hs hsize hascending
  · exact haccepts listed (.refl listed) n' line' cells' w' htells' (sameCells_of_take hs hcells)
  · have hs' := hs.trans hperm.symm
    obtain ⟨cells', hlen, hcells⟩ := exists_listing f hs'
    have hsize' : f.scope.size ≤ cells'.length := Nat.le_of_eq hlen.symm
    refine ⟨cells', ?_, sameCells_of_placeCells hs hs' hsize hsize' (hcells.trans hf)⟩
    have htake := take_perm_table hs' hsize'
    rw [List.take_of_length_le (Nat.le_of_eq hlen), hcells, hf] at htake
    exact htake.trans (take_perm_table hs hsize).symm

/-- Two variables against the order of their ids, with two cells that are left over. -/
def reversedLine : List Char := " B / A // 0 1 2 3 4 5 6 7 /// 1.5".toList

def knownAB : Declared := [("A", .upTo 0 1), ("B", .upTo 1 2)]

theorem readFactor_places_reversed : ∃ f w, readFactor knownAB 1 reversedLine = .ok (f, w, 2) ∧
    f.table.toList = [0, 3, 1, 4, 2, 5].map (fun n => .ofRatio n 1) ∧
    ∃ listed cells, Tells knownAB reversedLine listed cells w ∧ f.scope.vars.Perm listed ∧
      cells.length = f.scope.size + 2 ∧
      ∀ n line w', Tells knownAB line listed (cells.take f.scope.size) w' →
        ∃ extra, readFactor knownAB n line = .ok (f, w', extra) := by
  have hrun : (readFactor knownAB 1 reversedLine).toOption.any fun r =>
      decide (r.2.2 = 2 ∧
        r.1.table.toList = [0, 3, 1, 4, 2, 5].map fun n => .ofRatio n 1) := by decide +kernel
  obtain ⟨⟨f, w, extra⟩, hf, hr⟩ := exists_ok_of_any hrun
  obtain ⟨rfl, htable⟩ := of_decide_eq_true hr
  obtain ⟨listed, cells, htells, hs, -, hlength, -, -, -, hleftOver, -⟩ := readFactor_places hf
  refine ⟨f, w, hf, htable, listed, cells, htells, hs, hlength, fun n line w' h => ?_⟩
  exact hleftOver n line _ w' h (List.take_take.trans (congrArg (cells.take ·) (Nat.min_self _)))

end FactorForest.Model
