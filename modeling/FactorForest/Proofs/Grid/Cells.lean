import FactorForest.Grid
import FactorForest.Proofs.Model.Format
import Mathlib.Algebra.BigOperators.Group.Finset.Sigma
import Mathlib.Algebra.Group.Action.Defs
import Mathlib.Tactic.Ring

set_option autoImplicit false

namespace FactorForest.Grid

open Format Text

abbrev Cell := Nat × Nat

def rows (m n : Nat) : List Cell :=
  (List.range m).flatMap fun i => (List.range n).map fun j => (i, j)

def idOf (n : Nat) (c : Cell) : Nat := c.1 * n + c.2

/-- The neighbours of a cell to its right and below it. -/
def onward (n : Nat) (c : Cell) : List Cell :=
  (if c.2 + 1 < n then [(c.1, c.2 + 1)] else []) ++ if c.1 + 1 < n then [(c.1 + 1, c.2)] else []

def neighbours (n : Nat) : List (Cell × Cell) :=
  (cells n).flatMap fun c => (onward n c).map fun d => (c, d)

/-- Two cells are next to each other in a row or in a column. -/
def Beside (c d : Cell) : Prop :=
  c.1 = d.1 ∧ (d.2 = c.2 + 1 ∨ c.2 = d.2 + 1) ∨ c.2 = d.2 ∧ (d.1 = c.1 + 1 ∨ c.1 = d.1 + 1)

variable {m n : Nat} {c d : Cell}

theorem cells_eq_rows (n : Nat) : cells n = rows n n := rfl

theorem rows_succ (m n : Nat) : rows (m + 1) n = rows m n ++ (List.range n).map fun j => (m, j) := by
  rw [rows, List.range_succ, List.flatMap_append, List.flatMap_singleton]
  rfl

theorem rows_prefix (m k n : Nat) : rows m n <+: rows (m + k) n := by
  induction k with
  | zero => exact List.prefix_refl _
  | succ k ih =>
    rw [Nat.add_succ, rows_succ]
    exact ih.trans (List.prefix_append _ _)

theorem mem_rows : c ∈ rows m n ↔ c.1 < m ∧ c.2 < n := by
  obtain ⟨i, j⟩ := c
  simp [rows, List.mem_flatMap, List.mem_map, List.mem_range]

theorem map_idOf_rows (m n : Nat) : (rows m n).map (idOf n) = List.range (m * n) := by
  induction m with
  | zero => simp [rows]
  | succ m ih =>
    rw [rows_succ, List.map_append, ih, Nat.succ_mul, List.range_add, List.map_map]
    rfl

theorem length_rows (m n : Nat) : (rows m n).length = m * n := by
  have h := congrArg List.length (map_idOf_rows m n)
  simpa using h

theorem nodup_rows (m n : Nat) : (rows m n).Nodup :=
  List.Nodup.of_map (idOf n) (map_idOf_rows m n ▸ List.nodup_range)

theorem getElem?_rows (h : c ∈ rows m n) : (rows m n)[idOf n c]? = some c := by
  obtain ⟨k, hk, rfl⟩ := List.mem_iff_getElem.1 h
  have hid := List.getElem_of_eq (map_idOf_rows m n) (i := k) (by simpa using hk)
  rw [List.getElem_map, List.getElem_range] at hid
  rw [hid, List.getElem?_eq_getElem hk]

theorem idOf_injOn (hc : c ∈ rows m n) (hd : d ∈ rows m n) (h : idOf n c = idOf n d) : c = d :=
  List.inj_on_of_nodup_map (map_idOf_rows m n ▸ List.nodup_range) hc hd h

theorem mem_onward : d ∈ onward n c ↔
    c.2 + 1 < n ∧ d = (c.1, c.2 + 1) ∨ c.1 + 1 < n ∧ d = (c.1 + 1, c.2) := by
  rw [onward, List.mem_append]
  split_ifs <;> simp_all

theorem mem_neighbours : (c, d) ∈ neighbours n ↔
    c ∈ cells n ∧ d ∈ cells n ∧ (d = (c.1, c.2 + 1) ∨ d = (c.1 + 1, c.2)) := by
  simp only [neighbours, List.mem_flatMap, List.mem_map, Prod.mk.injEq, cells_eq_rows, mem_rows]
  constructor
  · rintro ⟨c, hc, d, hd, rfl, rfl⟩
    rcases mem_onward.1 hd with ⟨h, rfl⟩ | ⟨h, rfl⟩
    · exact ⟨hc, ⟨hc.1, h⟩, .inl rfl⟩
    · exact ⟨hc, ⟨h, hc.2⟩, .inr rfl⟩
  · rintro ⟨hc, hd, h | h⟩
    · exact ⟨c, hc, d, mem_onward.2 (.inl ⟨by rw [h] at hd; exact hd.2, h⟩), rfl, rfl⟩
    · exact ⟨c, hc, d, mem_onward.2 (.inr ⟨by rw [h] at hd; exact hd.1, h⟩), rfl, rfl⟩

theorem beside_iff : Beside c d ↔
    (d = (c.1, c.2 + 1) ∨ d = (c.1 + 1, c.2)) ∨ c = (d.1, d.2 + 1) ∨ c = (d.1 + 1, d.2) := by
  simp only [Beside, Prod.ext_iff]
  omega

theorem beside_iff_mem_neighbours (hc : c ∈ cells n) (hd : d ∈ cells n) :
    Beside c d ↔ (c, d) ∈ neighbours n ∨ (d, c) ∈ neighbours n := by
  simp only [beside_iff, mem_neighbours, hc, hd, true_and]

theorem nodup_neighbours (n : Nat) : (neighbours n).Nodup := by
  refine List.nodup_flatMap.2 ⟨fun c _ => ?_, (nodup_rows n n).imp fun hne => ?_⟩
  · refine List.Nodup.map (fun _ _ h => (Prod.mk.inj h).2) ?_
    rw [onward]
    split_ifs <;> simp
  · rintro p hp hp'
    obtain ⟨d, -, rfl⟩ := List.mem_map.1 hp
    obtain ⟨d', -, h⟩ := List.mem_map.1 hp'
    exact hne (Prod.mk.inj h).1.symm

theorem idOf_lt_of_mem_neighbours (h : (c, d) ∈ neighbours n) : idOf n c < idOf n d := by
  obtain ⟨hc, hd, rfl | rfl⟩ := mem_neighbours.1 h
  · exact Nat.lt_succ_self _
  · have hn : 0 < n := Nat.zero_lt_of_lt (mem_rows.1 hd).2
    simp only [idOf]
    rw [Nat.succ_mul]
    omega

theorem sum_rows (f : Cell → Nat) (m n : Nat) :
    ((rows m n).map f).sum = ∑ i ∈ Finset.range m, ∑ j ∈ Finset.range n, f (i, j) := by
  induction m with
  | zero => rfl
  | succ m ih =>
    rw [rows_succ, List.map_append, List.sum_append, ih, Finset.sum_range_succ, List.map_map]
    rfl

theorem sum_before (m : Nat) : ∑ i ∈ Finset.range (m + 1), (if i < m then 1 else 0) = m := by
  rw [Finset.sum_range_succ, if_neg (Nat.lt_irrefl m), Nat.add_zero,
    Finset.sum_congr rfl fun i hi => if_pos (Finset.mem_range.1 hi)]
  simp

/-- In every row and in every column there is one pair less than there are cells. -/
theorem length_neighbours (n : Nat) : (neighbours n).length = 2 * n * (n - 1) := by
  cases n with
  | zero => rfl
  | succ m =>
    have hcell : ∀ c : Cell, (onward (m + 1) c).length =
        (if c.2 < m then 1 else 0) + if c.1 < m then 1 else 0 := by
      intro c
      simp only [onward, Nat.add_lt_add_iff_right]
      split_ifs <;> rfl
    let first (k : Nat) : Nat := if k < m then 1 else 0
    calc (neighbours (m + 1)).length
      _ = ∑ i ∈ Finset.range (m + 1), ∑ j ∈ Finset.range (m + 1), (first j + first i) := by
        simp only [neighbours, List.length_flatMap, List.length_map, hcell, cells_eq_rows, sum_rows,
          first]
      _ = ∑ i ∈ Finset.range (m + 1), ∑ j ∈ Finset.range (m + 1), first j +
          ∑ j ∈ Finset.range (m + 1), ∑ i ∈ Finset.range (m + 1), first i := by
        simp only [Finset.sum_add_distrib]
        rw [Finset.sum_comm (f := fun i _ => first i)]
      _ = (m + 1) * m + (m + 1) * m := by
        simp only [first, sum_before, Finset.sum_const, Finset.card_range, smul_eq_mul]
      _ = 2 * (m + 1) * (m + 1 - 1) := by
        rw [Nat.add_sub_cancel]
        ring

theorem toList_cellName (i j : Nat) :
    (cellName i j).toList = 'X' :: (Nat.toDigits 10 i ++ Nat.toDigits 10 j) := by
  rw [cellName, String.toList_append, String.toList_append, Nat.toString_eq_ofList_toDigits,
    Nat.toString_eq_ofList_toDigits, String.toList_ofList, String.toList_ofList]
  rfl

theorem toDigits_injective {j k : Nat} (h : Nat.toDigits 10 j = Nat.toDigits 10 k) : j = k := by
  have hnum := congrArg (fun ds => Nat.ofDigitChars 10 ds 0) h
  simpa using hnum

theorem toDigits_ne_zero_cons (j k : Nat) : Nat.toDigits 10 j ≠ '0' :: Nat.toDigits 10 k := by
  intro h
  have hnum := congrArg (fun ds => Nat.ofDigitChars 10 ds 0) h
  have hjk : j = k := by simpa [Nat.ofDigitChars_cons] using hnum
  have hlength := congrArg List.length h
  rw [hjk, List.length_cons] at hlength
  omega

/-- Up to row 10 a name tells its cell. -/
theorem cellName_injective {i i' j j' : Nat} (hi : i ≤ 10) (hi' : i' ≤ 10)
    (h : cellName i j = cellName i' j') : i = i' ∧ j = j' := by
  have hdigits := congrArg String.toList h
  rw [toList_cellName, toList_cellName, List.cons.injEq, eq_self, true_and] at hdigits
  have hten : Nat.toDigits 10 10 = ['1', '0'] := rfl
  rcases hi.lt_or_eq with hi | rfl <;> rcases hi'.lt_or_eq with hi' | rfl
  · rw [Nat.toDigits_of_lt_base hi, Nat.toDigits_of_lt_base hi'] at hdigits
    obtain ⟨hrow, hcolumn⟩ := List.cons.inj hdigits
    have hvalue := congrArg Char.toNat hrow
    rw [Nat.toNat_digitChar_of_lt_ten hi, Nat.toNat_digitChar_of_lt_ten hi'] at hvalue
    exact ⟨by omega, toDigits_injective hcolumn⟩
  · rw [Nat.toDigits_of_lt_base hi, hten] at hdigits
    exact absurd (List.cons.inj hdigits).2 (toDigits_ne_zero_cons j j')
  · rw [Nat.toDigits_of_lt_base hi', hten] at hdigits
    exact absurd (List.cons.inj hdigits).2.symm (toDigits_ne_zero_cons j' j)
  · exact ⟨rfl, toDigits_injective (List.append_cancel_left hdigits)⟩

theorem nodup_names {m : Nat} (hm : m ≤ 11) (n : Nat) :
    ((rows m n).map fun c => cellName c.1 c.2).Nodup := by
  refine List.Nodup.map_on (fun c hc d hd h => ?_) (nodup_rows m n)
  have hc := (mem_rows.1 hc).1
  have hd := (mem_rows.1 hd).1
  obtain ⟨hi, hj⟩ := cellName_injective (by omega) (by omega) h
  exact Prod.ext hi hj

theorem cellName_eleven : cellName 11 0 = cellName 1 10 := by decide

theorem proper_cellName (i j : Nat) : Proper (cellName i j) := by
  have hchar : ∀ c ∈ (cellName i j).toList, 48 ≤ c.toNat ∧ c.toNat ≤ 88 := by
    intro c hc
    rw [toList_cellName, List.mem_cons, List.mem_append] at hc
    rcases hc with rfl | hc | hc
    · decide
    all_goals
      have hdigit := Nat.isDigit_of_mem_toDigits (by decide) (by decide) hc
      rw [Char.isDigit_iff_toNat] at hdigit
      exact ⟨hdigit.1, hdigit.2.trans (by decide)⟩
  have hother : ∀ c ∈ (cellName i j).toList, ∀ d : Char, d.toNat < 48 → c ≠ d := by
    rintro c hc d hd rfl
    have := (hchar c hc).1
    omega
  refine ⟨fun h => ?_, fun c hc => ⟨hother c hc _ (by decide), hother c hc _ (by decide), ?_⟩,
    fun h => ?_, fun h => ?_⟩
  · have hlist := congrArg String.toList h
    rw [toList_cellName] at hlist
    exact nomatch hlist
  · have hrange := hchar c hc
    simp only [isLineBreak, Bool.or_eq_false_iff, Bool.and_eq_false_iff, decide_eq_false_iff_not,
      beq_eq_false_iff_ne]
    omega
  · exact hother _ (List.mem_of_mem_head? h) ' ' (by decide) rfl
  · exact hother _ (List.mem_of_mem_getLast? h) ' ' (by decide) rfl

end FactorForest.Grid
