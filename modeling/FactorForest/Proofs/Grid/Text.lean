import FactorForest.Proofs.Grid.Cells
import FactorForest.Proofs.Model.Acceptance

set_option autoImplicit false

namespace FactorForest.Grid

open Format Text Model

def declaration (c : Cell) : Declaration :=
  ⟨cellName c.1 c.2, 2, proper_cellName c.1 c.2, Nat.two_pos⟩

def declarations (n : Nat) : List Declaration := (cells n).map declaration

def half : Double := .ofRatio 1 2

def description (p : Cell × Cell) : Description :=
  ⟨[cellName p.1.1 p.1.2, cellName p.2.1 p.2.2], [half, half.negate, half.negate, half], none⟩

def descriptions (n : Nat) : List Description := (neighbours n).map description

variable {n : Nat} {defaultArity : Int}

theorem factorLines_eq (n : Nat) :
    ((cells n).flatMap fun c => factorLines n c.1 c.2) = (neighbours n).map fun p =>
      factorLine (cellName p.1.1 p.1.2) (cellName p.2.1 p.2.2) := by
  rw [neighbours, List.map_flatMap]
  congr 1
  funext c
  rw [onward, factorLines]
  split_ifs <;> rfl

theorem spelled_declaration (c : Cell) :
    (declaration c).Spelled defaultArity (cellName c.1 c.2 ++ "\t2").toList := by
  have htwo : Literal.Digits ['2'] 2 := ⟨by decide, [2], by decide, by decide, by decide⟩
  have h := @Declaration.Spelled.sized defaultArity (declaration c) [] [] ['2'] margin_nil
    margin_nil htwo
  rw [List.append_nil] at h
  rw [String.toList_append]
  exact h

theorem numeral_half : Numeral "0.5".toList half := by decide +kernel

theorem numeral_minus_half : Numeral "-0.5".toList half.negate := by decide +kernel

theorem spells_coupling :
    SpellsCells [half, half.negate, half.negate, half] coupling.toList :=
  have hgap : Margin [' '] := by decide
  .more numeral_half hgap (by decide) <| .more numeral_minus_half hgap (by decide) <|
    .more numeral_minus_half hgap (by decide) <| .last numeral_half

theorem spelled_description (p : Cell × Cell) : (description p).Spelled
    (factorLine (cellName p.1.1 p.1.2) (cellName p.2.1 p.2.2)).toList := by
  have hgap : Margin [' '] := by decide
  have hnames := @SpellsNames.more (cellName p.1.1 p.1.2) _ [] [] _ margin_nil margin_nil
    (@SpellsNames.last (cellName p.2.1 p.2.2) [] margin_nil)
  have h := Description.Spelled.bare hnames hgap spells_coupling
  simp only [List.append_nil, List.nil_append] at h
  have hline : (factorLine (cellName p.1.1 p.1.2) (cellName p.2.1 p.2.2)).toList =
      ((cellName p.1.1 p.1.2).toList ++ '/' :: (cellName p.2.1 p.2.2).toList) ++
        '/' :: '/' :: ([' '] ++ coupling.toList) := by
    simp [factorLine]
  rw [hline]
  exact h

theorem factorLines_descriptions (ps : List (Cell × Cell)) :
    FactorLines (ps.map description) ((ps.map fun p =>
      (factorLine (cellName p.1.1 p.1.2) (cellName p.2.1 p.2.2)).toList) ++ [[]]) := by
  induction ps with
  | nil => exact .blank margin_nil .done
  | cons p ps ih => exact .line (spelled_description p) (.self _) ih

theorem intercalate_concat_nil {α : Type} (e : List α) {ls : List (List α)} (h : ls ≠ []) :
    e.intercalate (ls ++ [[]]) = e.intercalate ls ++ e := by
  induction ls with
  | nil => exact absurd rfl h
  | cons l ls ih =>
    cases ls with
    | nil => simp [List.intercalate_cons_cons]
    | cons l' ls =>
      rw [List.cons_append, List.intercalate_cons_of_ne_nil (by simp), ih (by simp),
        List.intercalate_cons_cons, ← List.append_assoc]

theorem renders_text (n : Nat) (defaultArity : Int) :
    Renders defaultArity (declarations n) (descriptions n) (text n).toList := by
  -- the text ends with the end of a line, so that its last line is blank
  have hdeclared : List.Forall₂ (fun d l => ∃ core, d.Spelled defaultArity core ∧ Padded core l)
      (declarations n) ((cells n).map fun c => (cellName c.1 c.2 ++ "\t2").toList) := by
    rw [declarations, List.forall₂_map_left_iff, List.forall₂_map_right_iff, List.forall₂_same]
    exact fun c _ => ⟨_, spelled_declaration c, Padded.self _⟩
  have h := Renders.intro (.inr ⟨'\n', rfl, rfl⟩) (.self _) hdeclared
    (.self _) (factorLines_descriptions (neighbours n))
  have htext : (text n).toList = ['\n'].intercalate
      ("variables:".toList :: (cells n).map (fun c => (cellName c.1 c.2 ++ "\t2").toList) ++
        factorsHeader :: ((neighbours n).map fun p =>
          (factorLine (cellName p.1.1 p.1.2) (cellName p.2.1 p.2.2)).toList) ++ [[]]) := by
    rw [intercalate_concat_nil _ (by simp), text, factorLines_eq, String.toList_append,
      String.toList_intercalate]
    simp only [List.map_append, List.map_cons, List.map_map]
    rfl
  rw [htext, List.append_assoc, List.cons_append (a := factorsHeader)]
  exact h

theorem names_declarations (cs : List Cell) :
    (cs.map declaration).map (·.name) = cs.map fun c => cellName c.1 c.2 := by
  rw [List.map_map]
  rfl

theorem nodup_declarations (h : n ≤ 11) : ((declarations n).map (·.name)).Nodup := by
  rw [declarations, names_declarations]
  exact nodup_names h n

theorem declarations_split (h : 12 ≤ n) : ∃ back, declarations n =
    (rows 11 n).map declaration ++ declaration (11, 0) :: back := by
  obtain ⟨k, rfl⟩ := Nat.exists_eq_add_of_le h
  obtain ⟨back, hback⟩ := rows_prefix 12 k (12 + k)
  have hrow : List.range (12 + k) = 0 :: (List.range (11 + k)).map Nat.succ := by
    rw [← List.range_succ_eq_map]
    congr 1
    omega
  rw [declarations, cells_eq_rows, ← hback, rows_succ, hrow, List.map_cons, List.append_assoc,
    List.cons_append, List.map_append, List.map_cons]
  exact ⟨_, rfl⟩

theorem text_refused (h : 12 ≤ n) (defaultArity : Int) : parse (text n).toList defaultArity =
    .error (.line (11 * n + 2) (.declaredTwice "X110")) := by
  obtain ⟨back, hsplit⟩ := declarations_split h
  have hnames : (((rows 11 n).map declaration).map (·.name)).Nodup := by
    rw [names_declarations]
    exact nodup_names le_rfl n
  have hmem : (declaration (11, 0)).name ∈ ((rows 11 n).map declaration).map (·.name) := by
    rw [names_declarations, List.mem_map]
    exact ⟨(1, 10), mem_rows.2 ⟨by decide, by omega⟩, cellName_eleven.symm⟩
  have hproper : ∀ d ∈ descriptions n, ∀ name ∈ d.names, Proper name := by
    intro d hd name hname
    obtain ⟨p, -, rfl⟩ := List.mem_map.1 hd
    rcases List.mem_pair.1 hname with rfl | rfl <;> exact proper_cellName _ _
  have hrenders := renders_text n defaultArity
  rw [hsplit] at hrenders
  have hparse := hrenders.repeated hnames hmem hproper
  rwa [List.length_map, length_rows] at hparse

end FactorForest.Grid
