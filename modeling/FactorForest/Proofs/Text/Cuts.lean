import FactorForest.Text.Lines
import Mathlib.Data.List.DropRight
import Mathlib.Data.List.Infix

set_option autoImplicit false

namespace FactorForest.Text

/-- A text is cut where a mark stands first. -/
structure FirstCut (mark cs front back : List Char) : Prop where
  whole : cs = front ++ mark ++ back
  first : ∀ front' back', cs = front' ++ mark ++ back' → front.length ≤ front'.length

structure Separated (sep : Char) (cs : List Char) (ps : List (List Char)) : Prop where
  ne_nil : ps ≠ []
  whole : [sep].intercalate ps = cs
  free : ∀ p ∈ ps, sep ∉ p

variable {p : Char → Bool} {cs : List Char}

theorem trimBy_append {xs ys : List Char} (hx : ∀ c ∈ xs, p c) (hy : ∀ c ∈ ys, p c)
    (cs : List Char) : trimBy p (xs ++ cs ++ ys) = trimBy p cs := by
  have hys : ∀ c ∈ ys.reverse, p c := fun c hc => hy c (List.mem_reverse.1 hc)
  rw [trimBy, trimBy, List.append_assoc, List.dropWhile_append_of_pos hx, List.dropWhile_append]
  split
  · rename_i hcs
    rw [List.isEmpty_iff.1 hcs, List.dropWhile_eq_nil_iff.2 hy]
  · rw [List.reverse_append, List.dropWhile_append_of_pos hys]

theorem dropWhile_of_head? (h : ∀ c ∈ cs.head?, p c = false) : cs.dropWhile p = cs := by
  cases cs with
  | nil => rfl
  | cons c cs => exact List.dropWhile_cons_of_neg (by simp [h c rfl])

theorem trimBy_of_ends (hhead : ∀ c ∈ cs.head?, p c = false)
    (hlast : ∀ c ∈ cs.getLast?, p c = false) : trimBy p cs = cs := by
  rw [trimBy, dropWhile_of_head? hhead, dropWhile_of_head?, List.reverse_reverse]
  intro c hc
  exact hlast c (List.head?_reverse ▸ hc)

theorem mem_dropWhile {c : Char} (hc : c ∈ cs) (hp : p c = false) : c ∈ cs.dropWhile p := by
  have hsplit := List.takeWhile_append_dropWhile (p := p) (l := cs)
  rw [← hsplit] at hc
  rcases List.mem_append.1 hc with h | h
  · rw [List.mem_takeWhile_imp h] at hp
    exact absurd hp (by decide)
  · exact h

theorem mem_trimBy {c : Char} (hc : c ∈ cs) (hp : p c = false) : c ∈ trimBy p cs :=
  List.mem_reverse.2 (mem_dropWhile (List.mem_reverse.2 (mem_dropWhile hc hp)) hp)

theorem head?_trimBy {c : Char} (h : c ∈ (trimBy p cs).head?) : p c = false := by
  have hpre : trimBy p cs <+: cs.dropWhile p := List.rdropWhile_prefix p _
  obtain ⟨rest, hrest⟩ := hpre
  have hmem : (cs.dropWhile p).head? = some c := by
    rw [← hrest, List.head?_append, h]
    rfl
  have hhead := List.head?_dropWhile_not p cs
  rw [hmem] at hhead
  exact hhead

theorem firstCut_of_prefix {mark back : List Char} : FirstCut mark (mark ++ back) [] back :=
  ⟨by simp, fun _ _ _ => Nat.zero_le _⟩

theorem FirstCut.cons {mark front back : List Char} (h : FirstCut mark cs front back) {c : Char}
    (hc : ¬ mark <+: c :: cs) : FirstCut mark (c :: cs) (c :: front) back := by
  refine ⟨by simp [h.whole], ?_⟩
  intro front' back' hcut
  cases front' with
  | nil =>
    rw [List.nil_append] at hcut
    exact absurd ⟨back', hcut.symm⟩ hc
  | cons d front' =>
    have hrest : cs = front' ++ mark ++ back' := by
      simp only [List.cons_append, List.cons.injEq] at hcut
      exact hcut.2
    exact Nat.succ_le_succ (h.first front' back' hrest)

theorem firstCut_of_cutAt {mark front back : List Char} (h : cutAt mark cs = some (front, back)) :
    FirstCut mark cs front back := by
  induction cs generalizing front with
  | nil => exact nomatch h
  | cons c cs ih =>
    rw [cutAt] at h
    split at h
    · rename_i hp
      obtain ⟨rest, hrest⟩ := List.isPrefixOf_iff_prefix.1 hp
      cases h
      rw [← hrest, List.drop_left]
      exact firstCut_of_prefix
    · rename_i hp
      obtain ⟨⟨front', back'⟩, hcut, hpair⟩ := Option.map_eq_some_iff.1 h
      cases hpair
      exact (ih hcut).cons (mt List.isPrefixOf_iff_prefix.2 hp)

theorem cutAt_eq_none_iff {mark : List Char} (hmark : mark ≠ []) :
    cutAt mark cs = none ↔ ¬ mark <:+: cs := by
  induction cs with
  | nil => simp [cutAt, hmark]
  | cons c cs ih =>
    rw [cutAt, List.infix_cons_iff, ← List.isPrefixOf_iff_prefix]
    split
    · rename_i hp
      simp [hp]
    · rename_i hp
      simp [hp, ih]

theorem cutAt_self (mark back : List Char) {c : Char} :
    cutAt (c :: mark) (c :: (mark ++ back)) = some ([], back) := by
  have hp : (c :: mark).isPrefixOf (c :: (mark ++ back)) :=
    List.isPrefixOf_iff_prefix.2 ⟨back, rfl⟩
  rw [cutAt, if_pos hp, ← List.cons_append, List.drop_left]

theorem cutAt_append_of_not_mem {c : Char} {mark xs : List Char} (hc : c ∉ xs) (cs : List Char) :
    cutAt (c :: mark) (xs ++ cs) = (cutAt (c :: mark) cs).map fun q => (xs ++ q.1, q.2) := by
  induction xs with
  | nil => simp
  | cons x xs ih =>
    obtain ⟨hx, hxs⟩ := not_or.1 (mt List.mem_cons.2 hc)
    have hp : (c :: mark).isPrefixOf (x :: (xs ++ cs)) = false := by
      simp [List.isPrefixOf, hx]
    rw [List.cons_append, cutAt, hp, if_neg Bool.false_ne_true, ih hxs, Option.map_map]
    rfl

theorem cutAtLast_of_not_mem {sep : Char} (h : sep ∉ cs) : cutAtLast sep cs = none := by
  rw [cutAtLast, if_neg (by simpa using h)]

theorem cutAtLast_append {sep : Char} {back : List Char} (h : sep ∉ back) (front : List Char) :
    cutAtLast sep (front ++ sep :: back) = some (front, back) := by
  have hall : ∀ c ∈ back.reverse, decide (c ≠ sep) = true := by
    intro c hc
    have hne : c ≠ sep := fun he => h (he ▸ List.mem_reverse.1 hc)
    simpa using hne
  have htail : ((front ++ sep :: back).reverse.takeWhile (· ≠ sep)).reverse = back := by
    rw [List.reverse_append, List.reverse_cons, List.append_assoc,
      List.takeWhile_append_of_pos hall]
    simp
  have hlength : (front ++ sep :: back).length - back.length - 1 = front.length := by
    rw [List.length_append, List.length_cons]
    omega
  rw [cutAtLast, if_pos (by simp), htail]
  dsimp only
  rw [hlength, List.take_left]

theorem exists_last {sep : Char} (h : sep ∈ cs) :
    ∃ front back, cs = front ++ sep :: back ∧ sep ∉ back := by
  obtain ⟨back, front, hcut, hback⟩ := List.eq_append_cons_of_mem (List.mem_reverse.2 h)
  refine ⟨front.reverse, back.reverse, ?_, by simpa using hback⟩
  simpa using congrArg List.reverse hcut

theorem pieces_of_not_mem {sep : Char} (h : sep ∉ cs) : pieces sep cs = [cs] := by
  induction cs with
  | nil => rfl
  | cons c cs ih =>
    obtain ⟨hc, hcs⟩ := not_or.1 (mt List.mem_cons.2 h)
    rw [pieces, if_neg (Ne.symm hc), ih hcs]

theorem pieces_append {sep : Char} {xs : List Char} (h : sep ∉ xs) (cs : List Char) :
    pieces sep (xs ++ sep :: cs) = xs :: pieces sep cs := by
  induction xs with
  | nil => rw [List.nil_append, pieces, if_pos rfl]
  | cons x xs ih =>
    obtain ⟨hx, hxs⟩ := not_or.1 (mt List.mem_cons.2 h)
    rw [List.cons_append, pieces, if_neg (Ne.symm hx), ih hxs]

/-- What a text without the separator is put after makes the last piece longer and no more. -/
theorem exists_pieces_append (sep : Char) (xs : List Char) :
    ∃ front last, ∀ ys, sep ∉ ys → pieces sep (xs ++ ys) = front ++ [last ++ ys] := by
  induction xs with
  | nil => exact ⟨[], [], fun ys hys => pieces_of_not_mem hys⟩
  | cons x xs ih =>
    obtain ⟨front, last, hpieces⟩ := ih
    by_cases hx : x = sep
    · refine ⟨[] :: front, last, fun ys hys => ?_⟩
      rw [List.cons_append, pieces, if_pos hx, hpieces ys hys, List.cons_append]
    · cases front with
      | nil =>
        refine ⟨[], x :: last, fun ys hys => ?_⟩
        rw [List.cons_append, pieces, if_neg hx, hpieces ys hys]
        rfl
      | cons p ps =>
        refine ⟨(x :: p) :: ps, last, fun ys hys => ?_⟩
        rw [List.cons_append, pieces, if_neg hx, hpieces ys hys]
        rfl

theorem separated_pieces (sep : Char) (cs : List Char) : Separated sep cs (pieces sep cs) := by
  induction cs with
  | nil => exact ⟨by simp [pieces], rfl, by simp [pieces]⟩
  | cons c cs ih =>
    rw [pieces]
    split
    · rename_i hc
      obtain ⟨q, qs, hq⟩ := List.exists_cons_of_ne_nil ih.ne_nil
      refine ⟨by simp, ?_, ?_⟩
      · rw [hq, List.intercalate_cons_cons, ← hq, ih.whole, hc]
        rfl
      · exact List.forall_mem_cons.2 ⟨List.not_mem_nil, ih.free⟩
    · rename_i hc
      split
      · rename_i hnil
        exact absurd hnil ih.ne_nil
      · rename_i q qs hq
        have hfree := List.forall_mem_cons.1 (hq ▸ ih.free)
        refine ⟨by simp, ?_, ?_⟩
        · rw [← ih.whole, hq]
          cases qs with
          | nil => rw [List.intercalate_singleton, List.intercalate_singleton]
          | cons r rs => rw [List.intercalate_cons_cons, List.intercalate_cons_cons]; rfl
        · refine List.forall_mem_cons.2 ⟨?_, hfree.2⟩
          intro hmem
          rcases List.mem_cons.1 hmem with h | h
          · exact hc h.symm
          · exact hfree.1 h

end FactorForest.Text
