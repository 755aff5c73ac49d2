import FactorForest.Proofs.Model.Refusals
import FactorForest.Proofs.Model.Text
import FactorForest.Proofs.Text.Cuts

set_option autoImplicit false

namespace FactorForest.Model

open Text

/-- A declaration names a variable and gives its arity behind the last tab, or leaves it at the
default. -/
inductive Declaring (defaultArity : Int) (line : List Char) : String → Int → Prop
  | plain : '\t' ∉ line → Declaring defaultArity line (String.ofList (trim line)) defaultArity
  | sized {front back : List Char} {arity : Int} : line = front ++ '\t' :: back → '\t' ∉ back →
      Literal.int? (trim back) = some arity →
      Declaring defaultArity line (String.ofList (trim front)) arity

def NamesIn (front : List Char) (names : List String) : Prop :=
  ∃ raws, Separated '/' front raws ∧ names = raws.map fun raw => String.ofList (trim raw)

/-- A line lists a factor: it is over the declared variables of the names in front of the first two
slashes, none of which is repeated, and it has a weight exactly if three slashes follow. -/
structure Listing (declared : Declared) (line : List Char) (f : Factor) (w : Option Double)
    (front body : List Char) (names : List String) : Prop where
  cut : FirstCut ['/', '/'] line front body
  names_in : NamesIn front names
  distinct : names.Nodup
  known : ∀ name ∈ names, ∃ v, (name, v) ∈ declared
  vars : ∀ v, v ∈ f.scope.vars ↔ ∃ name ∈ names, (name, v) ∈ declared
  weight : w = none ↔ ¬ ['/', '/', '/'] <:+: body

variable {defaultArity : Int} {known : Declared}

theorem readDeclaration_plain {line : List Char} (h : '\t' ∉ line) (defaultArity : Int) :
    readDeclaration line defaultArity = .ok (String.ofList (trim line), defaultArity) := by
  rw [readDeclaration, cutAtLast_of_not_mem h]

theorem readDeclaration_sized {front back : List Char} {name : String} {arity : Int}
    (h : '\t' ∉ back) : readDeclaration (front ++ '\t' :: back) defaultArity = .ok (name, arity) ↔
      name = String.ofList (trim front) ∧ Literal.int? (trim back) = some arity ∧ 1 ≤ arity := by
  rw [readDeclaration, cutAtLast_append h]
  dsimp only
  cases Literal.int? (trim back) with
  | none => simp
  | some n =>
    by_cases hn : n < 1
    · simp only [if_pos hn, reduceCtorEq, Option.some.injEq, false_iff]
      omega
    · simp only [if_neg hn, Except.ok.injEq, Prod.mk.injEq, Option.some.injEq]
      constructor
      · rintro ⟨rfl, rfl⟩
        exact ⟨rfl, rfl, Int.not_lt.1 hn⟩
      · rintro ⟨rfl, rfl, -⟩
        exact ⟨rfl, rfl⟩

theorem declaring_of_readDeclaration {line : List Char} {name : String} {arity : Int}
    (h : readDeclaration line defaultArity = .ok (name, arity)) :
    Declaring defaultArity line name arity := by
  by_cases htab : '\t' ∈ line
  · obtain ⟨front, back, rfl, hback⟩ := exists_last htab
    obtain ⟨rfl, hn, -⟩ := (readDeclaration_sized hback).1 h
    exact .sized rfl hback hn
  · rw [readDeclaration_plain htab] at h
    cases h
    exact .plain htab

theorem Declaring.name_ne_empty {l : List Char} {name : String} {arity : Int}
    (h : Declaring defaultArity (trim l) name arity) (hl : trim l ≠ []) : name ≠ "" := by
  -- a trimmed line starts with a letter of its name, not with the tab
  obtain ⟨c, cs, hcs⟩ := List.exists_cons_of_ne_nil hl
  have hc : isMargin c = false := @head?_trimBy isMargin l c (by
    change c ∈ (trim l).head?
    rw [hcs]
    rfl)
  have hfilled : ∀ front, c ∈ front → String.ofList (trim front) ≠ "" := by
    intro front hmem hempty
    have hchars := congrArg String.toList hempty
    rw [String.toList_ofList] at hchars
    exact List.ne_nil_of_mem (mem_trimBy hmem hc) hchars
  cases h with
  | plain => exact hfilled _ (hcs ▸ List.mem_cons_self)
  | @sized front back arity hline _ _ =>
    cases front with
    | nil =>
      rw [hcs] at hline
      rw [(List.cons.inj hline).1] at hc
      exact absurd hc (by decide)
    | cons d front =>
      rw [hcs] at hline
      exact hfilled _ ((List.cons.inj hline).1 ▸ List.mem_cons_self)

theorem readNames_nodup {seen listed : List Variable} {raws : List (List Char)}
    (hseen : seen.Nodup) (h : readNames known seen raws = .ok listed) : listed.Nodup := by
  induction raws generalizing seen with
  | nil =>
    cases h
    exact hseen
  | cons raw raws ih =>
    rw [readNames] at h
    split at h
    · cases h
    · rename_i v hv
      split at h
      · cases h
      · rename_i hnew
        apply ih _ h
        rw [List.nodup_append]
        refine ⟨hseen, List.nodup_singleton v, ?_⟩
        intro a ha b hb hab
        exact hnew (List.mem_singleton.1 hb ▸ hab ▸ ha)

theorem exists_looked_up {names : List String} {vs : List Variable}
    (h : List.Forall₂ (fun name v => known.lookup name = some v) names vs) {name : String}
    (hname : name ∈ names) : ∃ v, known.lookup name = some v := by
  induction h with
  | nil => exact nomatch hname
  | @cons first v names vs hfirst _ ih =>
    rcases List.mem_cons.1 hname with rfl | hname
    · exact ⟨v, hfirst⟩
    · exact ih hname

theorem nodup_of_looked_up {names : List String} {vs : List Variable}
    (h : List.Forall₂ (fun name v => known.lookup name = some v) names vs) (hvs : vs.Nodup) :
    names.Nodup := by
  induction h with
  | nil => exact List.nodup_nil
  | @cons name v names vs hname hrest ih =>
    obtain ⟨hv, hvs⟩ := List.nodup_cons.1 hvs
    refine List.nodup_cons.2 ⟨?_, ih hvs⟩
    exact fun hmem => hv ((mem_looked_up hrest).2 ⟨name, hmem, hname⟩)

theorem weight_of_readWeight {body text : List Char} {w : Option Double}
    (h : readWeight body = .ok (text, w)) : w = none ↔ ¬ ['/', '/', '/'] <:+: body := by
  rw [← cutAt_eq_none_iff (by simp)]
  rw [readWeight] at h
  split at h
  · rename_i hcut
    cases h
    simp [hcut]
  · rename_i cells back hcut
    dsimp only at h
    split at h
    · exact nomatch h
    · cases h
      simp [hcut]

theorem Describes.listing (hk : Numbered known) {line : List Char} {e : Factor × Option Double}
    (h : Describes known line e) :
    ∃ front body names, Listing known line e.1 e.2 front body names := by
  obtain ⟨n, extra, hread⟩ := h
  obtain ⟨front, body, listed, text, cells, s, hcut, hlisted, hweight, -⟩ := readFactor_ok hread
  obtain ⟨new, hnew, hlookups⟩ := readNames_ok hlisted
  have hnames : namesOn line = (pieces '/' front).map fun p => String.ofList (trim p) := by
    rw [namesOn, hcut]
  rw [← hnames] at hlookups
  have hdistinct : new.Nodup := by
    have hnodup := readNames_nodup List.nodup_nil hlisted
    rwa [hnew, List.nil_append] at hnodup
  refine ⟨front, body, namesOn line, firstCut_of_cutAt hcut, ?_, nodup_of_looked_up hlookups hdistinct,
    ?_, ?_, weight_of_readWeight hweight⟩
  · exact ⟨pieces '/' front, separated_pieces '/' front, hnames⟩
  · intro name hname
    obtain ⟨v, hv⟩ := exists_looked_up hlookups hname
    exact ⟨v, hk.lookup_eq_some_iff.1 hv⟩
  · intro v
    rw [mem_readFactor hread]
    simp only [hk.lookup_eq_some_iff]

theorem trimmed_of_declarationLine {text l : List Char} (h : l ∈ declarationLines text) :
    ∃ l', l = trim l' := by
  have hmem : l ∈ (lines text).tail.map trim := (List.takeWhile_prefix _).mem h
  obtain ⟨l', -, rfl⟩ := List.mem_map.1 hmem
  exact ⟨l', rfl⟩

theorem Declares.declaring {text : List Char} {declared : Declared}
    (h : Declares defaultArity text declared) :
    List.Forall₂ (fun l e => Declaring defaultArity l e.1 e.2.arity) (declarationLines text)
      declared :=
  h.lines.imp fun _ _ => declaring_of_readDeclaration

theorem Declares.name_ne_empty {text : List Char} {declared : Declared}
    (h : Declares defaultArity text declared) (ht : Headed text) {e : String × Variable}
    (he : e ∈ declared) : e.1 ≠ "" := by
  have hlines := (List.forall₂_and_left _ _).2
    ⟨fun l hl => And.intro (trimmed_of_declarationLine hl) (ht.filled l hl), h.declaring⟩
  have hnames : List.Forall₂ (fun e (_ : List Char) => e.1 ≠ "" ∧ True) declared
      (declarationLines text) := by
    refine hlines.flip.imp ?_
    rintro e l ⟨⟨⟨l', rfl⟩, hfilled⟩, hd⟩
    exact ⟨hd.name_ne_empty hfilled, trivial⟩
  exact ((List.forall₂_and_left _ _).1 hnames).1 e he

/-- An accepted text is told by its lines. Those between the headers declare the names in order,
all of them different and none empty, with the ids in the order of the lines; each line behind
them that is not blank lists one factor with its weight; and the model registers and indexes what
these factors touch. -/
theorem parse_lines {text : List Char} {m : Model} {ws : List Warning}
    (h : parse text defaultArity = .ok (m, ws)) :
    ∃ (declared : Declared) (fs : List (Factor × Option Double)), Headed text ∧
      List.Forall₂ (fun l e => Declaring defaultArity l e.1 e.2.arity) (declarationLines text)
        declared ∧
      declared.map (·.2.id) = List.range declared.length ∧
      m.names = declared.map (·.1) ∧ m.names.Nodup ∧ "" ∉ m.names ∧
      m.factors.size = (factorLines text).length ∧
      m.factors.toList = fs.map (·.1) ∧ m.weights.toList = fs.map (·.2) ∧
      List.Forall₂ (fun l e => ∃ front body names, Listing declared l e.1 e.2 front body names)
        (factorLines text) fs ∧
      m.Registered := by
  obtain ⟨declared, fs, ht, hd, hfs, hm⟩ := parse_addAll h
  obtain ⟨hbuilt, hnames, -⟩ := built_addAll (Built.empty.name _) hm
  obtain rfl := offers_of_addAll hm
  have hfactors := factors_offers { names := declared.map (·.1) } fs
  have hweights := weights_offers { names := declared.map (·.1) } fs
  refine ⟨declared, fs, ht, hd.declaring, hd.numbered.ids, hnames, ?_, ?_, ?_, ?_, ?_, ?_,
    hbuilt.registered⟩
  · rw [hnames]
    exact hd.numbered.distinct
  · rw [hnames]
    intro hempty
    obtain ⟨e, he, hname⟩ := List.mem_map.1 hempty
    exact hd.name_ne_empty ht he hname
  · rw [← Array.length_toList, hfactors, hfs.length_eq]
    simp
  · simpa using hfactors
  · simpa using hweights
  · exact hfs.imp fun l e he => he.listing hd.numbered

/-- Tabs around and within declarations, a header as a name, cells that are left over, and blank
lines. -/
def looseText : List Char :=
  "variables:\n\tA \nB C\t \t3\nvariables:\nfactors:\n\n B C /A// 0 1 2 3 4 5 6 ///2\n \t\nA//1 2".toList

theorem parse_lines_loose : ∃ m ws, parse looseText 2 = .ok (m, ws) ∧
    m.names = ["A", "B C", "variables:"] ∧ m.names.Nodup ∧ m.factors.size = 2 ∧
      m.Registered := by
  have hrun : (parse looseText 2).toOption.any fun r =>
      decide (r.1.names = ["A", "B C", "variables:"]) := by decide +kernel
  obtain ⟨⟨m, ws⟩, hm, hnames⟩ := exists_ok_of_any hrun
  obtain ⟨-, -, -, -, -, -, hdistinct, -, hsize, -, -, -, hregistered⟩ := parse_lines hm
  have hlength : (factorLines looseText).length = 2 := by decide +kernel
  exact ⟨m, ws, hm, of_decide_eq_true hnames, hdistinct, hsize.trans hlength, hregistered⟩

end FactorForest.Model
