import FactorForest.Text.Lines
import Mathlib.Data.List.Basic

set_option autoImplicit false

namespace FactorForest.Text

/-- A return with a line feed, or one character that ends a line. -/
def LineEnd (e : List Char) : Prop := e = ['\r', '\n'] ∨ ∃ c, isLineBreak c ∧ e = [c]

def Unbroken (l : List Char) : Prop := ∀ c ∈ l, isLineBreak c = false

theorem isBlank_of_isLineBreak {c : Char} (h : isLineBreak c) : isBlank c := by
  simp only [isLineBreak, isBlank, Bool.or_eq_true, Bool.and_eq_true, decide_eq_true_eq,
    beq_iff_eq] at h ⊢
  omega

theorem isBlank_of_isMargin {c : Char} (h : isMargin c) : isBlank c := by
  simp only [isMargin, Bool.or_eq_true, beq_iff_eq] at h
  rcases h with ((rfl | rfl) | rfl) | rfl <;> rfl

theorem unbroken_append {xs ys : List Char} : Unbroken (xs ++ ys) ↔ Unbroken xs ∧ Unbroken ys :=
  List.forall_mem_append

theorem unbroken_cons {c : Char} {cs : List Char} :
    Unbroken (c :: cs) ↔ isLineBreak c = false ∧ Unbroken cs :=
  List.forall_mem_cons

theorem linesFrom_cons {c : Char} {rest : List Char}
    (h : ∀ tail, c = '\r' → rest ≠ '\n' :: tail) (line : List Char) :
    linesFrom line (c :: rest) =
      if isLineBreak c then line.reverse :: linesFrom [] rest else linesFrom (c :: line) rest := by
  -- a return that a line feed follows is the only character that is not read alone
  rw [linesFrom]
  exact fun tail hc hrest => h tail hc hrest

theorem linesFrom_append {l : List Char} (hl : Unbroken l) (line rest : List Char) :
    linesFrom line (l ++ rest) = linesFrom (l.reverse ++ line) rest := by
  induction l generalizing line with
  | nil => rfl
  | cons c l ih =>
    obtain ⟨hc, hl⟩ := List.forall_mem_cons.1 hl
    have hreturn : c ≠ '\r' := by
      rintro rfl
      exact absurd hc (by decide)
    rw [List.cons_append, linesFrom_cons fun _ h => absurd h hreturn, hc,
      if_neg Bool.false_ne_true, ih hl, List.reverse_cons, List.append_assoc]
    rfl

theorem linesFrom_lineEnd {e : List Char} (he : LineEnd e) {rest : List Char}
    (hrest : e = ['\r'] → ∀ tail, rest ≠ '\n' :: tail) (line : List Char) :
    linesFrom line (e ++ rest) = line.reverse :: linesFrom [] rest := by
  rcases he with rfl | ⟨c, hc, rfl⟩
  · simp only [List.cons_append, List.nil_append, linesFrom]
  · have h : ∀ tail, c = '\r' → rest ≠ '\n' :: tail := by
      rintro tail rfl
      exact hrest rfl tail
    rw [List.singleton_append, linesFrom_cons h, if_pos hc]

theorem linesFrom_nil (l : List Char) : linesFrom l.reverse [] = if l = [] then [] else [l] := by
  cases h : l.reverse with
  | nil => rw [List.reverse_eq_nil_iff.1 h]; rfl
  | cons c cs =>
    have hl : l ≠ [] := by
      rintro rfl
      exact nomatch h
    rw [linesFrom, if_neg hl, ← h, List.reverse_reverse]

theorem intercalate_return_ne {ls : List (List Char)} (hls : ∀ l ∈ ls, Unbroken l)
    (tail : List Char) : ['\r'].intercalate ls ≠ '\n' :: tail := by
  intro h
  cases ls with
  | nil => exact nomatch h
  | cons l ls =>
    cases l with
    | nil =>
      cases ls with
      | nil => exact nomatch h
      | cons l' ls =>
        rw [List.intercalate_cons_cons] at h
        exact absurd (List.cons.inj h).1 (by decide)
    | cons c l =>
      have hc : c = '\n' := by
        cases ls with
        | nil => exact (List.cons.inj h).1
        | cons l' ls =>
          rw [List.intercalate_cons_cons] at h
          exact (List.cons.inj h).1
      subst hc
      exact absurd (hls _ List.mem_cons_self '\n' List.mem_cons_self) (by decide)

theorem lines_intercalate {e : List Char} (he : LineEnd e) {ls : List (List Char)}
    (hls : ∀ l ∈ ls, Unbroken l) :
    lines (e.intercalate ls) = if ls.getLast? = some [] then ls.dropLast else ls := by
  rw [lines]
  induction ls with
  | nil => rfl
  | cons l ls ih =>
    obtain ⟨hl, hls⟩ := List.forall_mem_cons.1 hls
    cases ls with
    | nil =>
      have hread := linesFrom_append hl [] []
      rw [List.append_nil, List.append_nil, linesFrom_nil] at hread
      rw [List.intercalate_singleton, hread]
      by_cases hnil : l = [] <;> simp [hnil]
    | cons l' ls =>
      have hnext : e = ['\r'] → ∀ tail, e.intercalate (l' :: ls) ≠ '\n' :: tail := by
        rintro rfl
        exact intercalate_return_ne hls
      rw [List.intercalate_cons_cons, List.append_assoc, linesFrom_append hl,
        linesFrom_lineEnd he hnext, List.append_nil, List.reverse_reverse, ih hls]
      rw [List.getLast?_cons_cons, List.dropLast_cons_cons]
      split <;> rfl

theorem linesFrom_feed (line rest : List Char) :
    linesFrom line ('\n' :: rest) = line.reverse :: linesFrom [] rest :=
  linesFrom_lineEnd (.inr ⟨'\n', rfl, rfl⟩) nofun line

theorem linesFrom_foldReturns (line cs : List Char) :
    linesFrom line (foldReturns cs) = linesFrom line cs := by
  -- a return ends a line as the line feed does that it is turned into. The line feed behind a
  -- return must go with it, or it would end a second, empty line
  fun_induction foldReturns cs generalizing line with
  | case1 => rfl
  | case2 rest ih =>
    have hpair : linesFrom line ('\r' :: '\n' :: rest) = line.reverse :: linesFrom [] rest :=
      linesFrom_lineEnd (.inl rfl) nofun line
    rw [linesFrom_feed, ih, hpair]
  | case3 c rest hpair ih =>
    rw [linesFrom_cons hpair]
    by_cases hc : c = '\r'
    · subst hc
      rw [if_pos rfl, linesFrom_feed, ih]
      rfl
    · rw [if_neg hc, linesFrom_cons fun _ h => absurd h hc, ih, ih]

theorem lines_foldReturns (cs : List Char) : lines (foldReturns cs) = lines cs :=
  linesFrom_foldReturns [] cs

theorem words_cons_eq (c : Char) (cs : List Char) :
    words (c :: cs) = if isBlank c then words cs else words.go [c] cs := rfl

theorem words_go_nil (d : Char) (ds : List Char) : words.go (d :: ds) [] = [(d :: ds).reverse] := rfl

theorem words_go_cons (d : Char) (ds : List Char) (c : Char) (cs : List Char) :
    words.go (d :: ds) (c :: cs) =
      if isBlank c then (d :: ds).reverse :: words cs else words.go (c :: d :: ds) cs := rfl

theorem words_padded {pad : List Char} (hpad : ∀ c ∈ pad, isBlank c) (cs : List Char) :
    words (pad ++ cs) = words cs := by
  induction pad with
  | nil => rfl
  | cons c pad ih =>
    obtain ⟨hc, hpad⟩ := List.forall_mem_cons.1 hpad
    rw [List.cons_append, words_cons_eq, if_pos hc, ih hpad]

theorem words_go_append {w : List Char} (hw : ∀ c ∈ w, isBlank c = false) (d : Char)
    (ds rest : List Char) :
    words.go (d :: ds) (w ++ rest) = words.go (w.reverse ++ d :: ds) rest := by
  induction w generalizing d ds with
  | nil => rfl
  | cons c w ih =>
    obtain ⟨hc, hw⟩ := List.forall_mem_cons.1 hw
    rw [List.cons_append, words_go_cons, hc, if_neg Bool.false_ne_true, ih hw, List.reverse_cons,
      List.append_assoc]
    rfl

theorem words_cons {w : List Char} (hne : w ≠ []) (hw : ∀ c ∈ w, isBlank c = false)
    {rest : List Char} (hrest : ∀ c ∈ rest.head?, isBlank c) :
    words (w ++ rest) = w :: words rest := by
  obtain ⟨c, w, rfl⟩ := List.exists_cons_of_ne_nil hne
  obtain ⟨hc, hw⟩ := List.forall_mem_cons.1 hw
  obtain ⟨d, ds, hds⟩ : ∃ d ds, w.reverse ++ [c] = d :: ds :=
    List.exists_cons_of_ne_nil (by simp)
  have hback : (d :: ds).reverse = c :: w := by rw [← hds]; simp
  rw [List.cons_append, words_cons_eq, hc, if_neg Bool.false_ne_true, words_go_append hw, hds]
  cases rest with
  | nil => rw [words_go_nil, hback]; rfl
  | cons e rest => rw [words_go_cons, words_cons_eq, if_pos (hrest e rfl), hback, if_pos (hrest e rfl)]

end FactorForest.Text
