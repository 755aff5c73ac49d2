import FactorForest.Proofs.Model.Reading
import FactorForest.Proofs.Number.Literal
import FactorForest.Proofs.Text.Lines

/-!
The format of a model file, line by line. Names, numbers and separators may be set apart by spaces
and tabs; whatever the layout, a line is read as the declaration or the factor that it spells. The
separators begin with one another, so what is shown of every part is which characters it is free of
and with which it opens and closes.
-/

set_option autoImplicit false

namespace FactorForest.Format

open Text Model

def Margin (pad : List Char) : Prop := ∀ c ∈ pad, c = ' ' ∨ c = '\t'

def Solid (w : List Char) : Prop := ∀ c ∈ w, isBlank c = false

def Letters (cs : List Char) : Prop := ∀ c ∈ cs, c ≠ '/' ∧ c ≠ '\t' ∧ isLineBreak c = false

instance (pad : List Char) : Decidable (Margin pad) := List.decidableBAll _ pad

instance (w : List Char) : Decidable (Solid w) := List.decidableBAll _ w

instance (cs : List Char) : Decidable (Letters cs) := List.decidableBAll _ cs

inductive Padded (core : List Char) : List Char → Prop
  | intro {before after : List Char} : Margin before → Margin after →
      Padded core (before ++ core ++ after)

/-- A name that can be declared and listed. -/
structure Proper (name : String) : Prop where
  ne_empty : name ≠ ""
  letters : Letters name.toList
  opens : name.toList.head? ≠ some ' '
  closes : name.toList.getLast? ≠ some ' '

instance (name : String) : Decidable (Proper name) :=
  decidable_of_iff (name ≠ "" ∧ Letters name.toList ∧ name.toList.head? ≠ some ' ' ∧
      name.toList.getLast? ≠ some ' ')
    ⟨fun h => ⟨h.1, h.2.1, h.2.2.1, h.2.2.2⟩, fun h => ⟨h.1, h.2, h.3, h.4⟩⟩

structure Numeral (w : List Char) (x : Double) : Prop where
  reads : Literal.double? w = some x
  solid : Solid w

instance (w : List Char) (x : Double) : Decidable (Numeral w x) :=
  decidable_of_iff (Literal.double? w = some x ∧ Solid w)
    ⟨fun h => ⟨h.1, h.2⟩, fun h => ⟨h.1, h.2⟩⟩

inductive SpellsNames : List String → List Char → Prop
  | last {name : String} {pad : List Char} : Margin pad → SpellsNames [name] (name.toList ++ pad)
  | more {name : String} {names : List String} {pad pad' rest : List Char} :
      Margin pad → Margin pad' → SpellsNames names rest →
      SpellsNames (name :: names) (name.toList ++ pad ++ '/' :: (pad' ++ rest))

inductive SpellsCells : List Double → List Char → Prop
  | last {x : Double} {w : List Char} : Numeral w x → SpellsCells [x] w
  | more {x : Double} {xs : List Double} {w gap rest : List Char} :
      Numeral w x → Margin gap → gap ≠ [] → SpellsCells xs rest →
      SpellsCells (x :: xs) (w ++ gap ++ rest)

structure Declaration where
  name : String
  arity : Nat
  proper : Proper name
  arity_pos : 0 < arity

/-- A declaration gives the arity behind a tab, or leaves it out if it is the default one. -/
inductive Declaration.Spelled (defaultArity : Int) (d : Declaration) : List Char → Prop
  | plain : (d.arity : Int) = defaultArity → d.name ≠ "factors:" →
      Spelled defaultArity d d.name.toList
  | sized {pad pad' ds : List Char} : Margin pad → Margin pad' → Literal.Digits ds d.arity →
      Spelled defaultArity d (d.name.toList ++ pad ++ '\t' :: (pad' ++ ds))

/-- What a factor line says: the names of its variables, its cells, the first variable varying
fastest, and its weight. -/
structure Description where
  names : List String
  cells : List Double
  weight : Option Double

inductive Description.Spelled : Description → List Char → Prop
  | bare {names : List String} {cells : List Double} {front pad text : List Char} :
      SpellsNames names front → Margin pad → SpellsCells cells text →
      Spelled ⟨names, cells, none⟩ (front ++ '/' :: '/' :: (pad ++ text))
  | weighed {names : List String} {cells : List Double} {x : Double}
      {front pad text pad' pad'' w : List Char} :
      SpellsNames names front → Margin pad → SpellsCells cells text → Margin pad' →
      Margin pad'' → Numeral w x →
      Spelled ⟨names, cells, some x⟩
        (front ++ '/' :: '/' :: (pad ++ text ++ pad' ++ '/' :: '/' :: '/' :: (pad'' ++ w)))

section Margins

variable {pad : List Char} (h : Margin pad)
include h

theorem Margin.isMargin {c : Char} (hc : c ∈ pad) : isMargin c := by
  rcases h c hc with rfl | rfl <;> rfl

theorem Margin.isBlank {c : Char} (hc : c ∈ pad) : isBlank c :=
  isBlank_of_isMargin (h.isMargin hc)

theorem Margin.unbroken : Unbroken pad := by
  intro c hc
  rcases h c hc with rfl | rfl <;> rfl

theorem Margin.no_slash : '/' ∉ pad := by
  intro hc
  exact absurd (h.isMargin hc) (by decide)

theorem Margin.append {pad' : List Char} (h' : Margin pad') : Margin (pad ++ pad') :=
  fun c hc => (List.mem_append.1 hc).elim (h c) (h' c)

theorem Margin.trim : trim pad = [] := by
  have htrim := trimBy_append (p := Text.isMargin) (fun c hc => h.isMargin hc)
    (fun c (hc : c ∈ []) => nomatch hc) []
  rwa [List.append_nil, List.append_nil] at htrim

end Margins

section Solids

variable {w : List Char} (h : Solid w)
include h

theorem Solid.unbroken : Unbroken w := by
  intro c hc
  rw [← Bool.not_eq_true]
  intro hbreak
  exact absurd (isBlank_of_isLineBreak hbreak) (by simp [h c hc])

theorem Solid.not_isMargin {c : Char} (hc : c ∈ w) : Text.isMargin c = false := by
  rw [← Bool.not_eq_true]
  intro hm
  exact absurd (isBlank_of_isMargin hm) (by simp [h c hc])

end Solids

theorem margin_nil : Margin [] := fun _ hc => nomatch hc

def Opens (cs : List Char) : Prop := ∃ c, cs.head? = some c ∧ isMargin c = false

def Closes (cs : List Char) : Prop := ∃ c, cs.getLast? = some c ∧ isMargin c = false

theorem Opens.append {cs : List Char} (h : Opens cs) (rest : List Char) : Opens (cs ++ rest) := by
  obtain ⟨c, hc, hm⟩ := h
  exact ⟨c, by rw [List.head?_append, hc]; rfl, hm⟩

theorem Closes.append {cs : List Char} (h : Closes cs) (front : List Char) :
    Closes (front ++ cs) := by
  obtain ⟨c, hc, hm⟩ := h
  exact ⟨c, by rw [List.getLast?_append, hc]; rfl, hm⟩

theorem Opens.ne_nil {cs : List Char} (h : Opens cs) : cs ≠ [] := by
  rintro rfl
  obtain ⟨c, hc, -⟩ := h
  exact nomatch hc

theorem Closes.ne_nil {cs : List Char} (h : Closes cs) : cs ≠ [] := by
  rintro rfl
  obtain ⟨c, hc, -⟩ := h
  exact nomatch hc

theorem Padded.ne_nil {core text : List Char} (h : Padded core text) (hcore : core ≠ []) :
    text ≠ [] := by
  obtain ⟨-, -⟩ := h
  simp [hcore]

/-- What is set apart by spaces and tabs is found again by trimming. -/
theorem trim_padded {core text : List Char} (ho : Opens core) (hc : Closes core)
    (h : Padded core text) : trim text = core := by
  obtain @⟨before, after, hbefore, hafter⟩ := h
  obtain ⟨c, hhead, hc'⟩ := ho
  obtain ⟨d, hlast, hd⟩ := hc
  rw [trim, trimBy_append (fun c hc => hbefore.isMargin hc) fun c hc => hafter.isMargin hc]
  apply trimBy_of_ends
  · intro e he
    cases hhead.symm.trans he
    exact hc'
  · intro e he
    cases hlast.symm.trans he
    exact hd

theorem Margin.padded {pad core : List Char} (h : Margin pad) : Padded core (pad ++ core) := by
  have hpadded := @Padded.intro core pad [] h margin_nil
  rwa [List.append_nil] at hpadded

theorem Padded.self (core : List Char) : Padded core core := margin_nil.padded

theorem Padded.unbroken {core text : List Char} (h : Padded core text) (hcore : Unbroken core) :
    Unbroken text := by
  obtain ⟨hbefore, hafter⟩ := h
  exact unbroken_append.2 ⟨unbroken_append.2 ⟨hbefore.unbroken, hcore⟩, hafter.unbroken⟩

section Solids

variable {w : List Char} (h : Solid w) (hne : w ≠ [])
include h hne

theorem Solid.opens : Opens w := by
  obtain ⟨c, hc⟩ := Option.isSome_iff_exists.1 (List.isSome_head?.2 hne)
  exact ⟨c, hc, h.not_isMargin (List.mem_of_mem_head? hc)⟩

theorem Solid.closes : Closes w := by
  obtain ⟨c, hc⟩ := Option.isSome_iff_exists.1 (List.getLast?_isSome.2 hne)
  exact ⟨c, hc, h.not_isMargin (List.mem_of_mem_getLast? hc)⟩

theorem Solid.trim_padded {text : List Char} (ht : Padded w text) : trim text = w :=
  Format.trim_padded (h.opens hne) (h.closes hne) ht

end Solids

section Names

variable {name : String} (h : Proper name)
include h

theorem Proper.unbroken : Unbroken name.toList := fun c hc => (h.letters c hc).2.2

theorem Proper.no_slash : '/' ∉ name.toList := fun hc => (h.letters '/' hc).1 rfl

theorem Proper.no_tab : '\t' ∉ name.toList := fun hc => (h.letters '\t' hc).2.1 rfl

theorem Proper.not_margin {c : Char} (hc : c ∈ name.toList) (hspace : c ≠ ' ') :
    isMargin c = false := by
  obtain ⟨-, htab, hbreak⟩ := h.letters c hc
  have hreturn : c ≠ '\r' := by
    rintro rfl
    exact absurd hbreak (by decide)
  have hfeed : c ≠ '\n' := by
    rintro rfl
    exact absurd hbreak (by decide)
  simp [isMargin, hspace, htab, hreturn, hfeed]

theorem Proper.opens_name : Opens name.toList := by
  cases hn : name.toList with
  | nil => exact absurd (String.toList_eq_nil_iff.1 hn) h.ne_empty
  | cons c cs =>
    refine ⟨c, rfl, h.not_margin (hn ▸ List.mem_cons_self) ?_⟩
    rintro rfl
    exact h.opens (by rw [hn]; rfl)

theorem Proper.closes_name : Closes name.toList := by
  obtain ⟨c, hc⟩ := Option.isSome_iff_exists.1 (List.getLast?_isSome.2 h.opens_name.ne_nil)
  refine ⟨c, hc, h.not_margin (List.mem_of_mem_getLast? hc) ?_⟩
  rintro rfl
  exact h.closes hc

theorem Proper.trim_name {text : List Char} (ht : Padded name.toList text) :
    trim text = name.toList :=
  trim_padded h.opens_name h.closes_name ht

theorem Proper.piece {lead pad : List Char} (hlead : Margin lead) (hpad : Margin pad) :
    '/' ∉ lead ++ (name.toList ++ pad) ∧
      String.ofList (trim (lead ++ (name.toList ++ pad))) = name := by
  constructor
  · simp [hlead.no_slash, h.no_slash, hpad.no_slash]
  · rw [← List.append_assoc, h.trim_name (.intro hlead hpad), String.ofList_toList]

end Names

section SpellsNames

variable {names : List String} {text : List Char}

theorem SpellsNames.exists_first (h : SpellsNames names text) :
    ∃ name ∈ names, ∃ rest, text = name.toList ++ rest := by
  cases h with
  | last _ => exact ⟨_, List.mem_cons_self, _, rfl⟩
  | more _ _ _ => exact ⟨_, List.mem_cons_self, _, List.append_assoc _ _ _⟩

theorem SpellsNames.opens (h : SpellsNames names text) (hp : ∀ name ∈ names, Proper name) :
    Opens text := by
  obtain ⟨name, hname, rest, rfl⟩ := h.exists_first
  exact (hp name hname).opens_name.append rest

theorem SpellsNames.unbroken (h : SpellsNames names text) (hp : ∀ name ∈ names, Proper name) :
    Unbroken text := by
  have hslash : isLineBreak '/' = false := rfl
  induction h with
  | last hpad => exact unbroken_append.2 ⟨(hp _ List.mem_cons_self).unbroken, hpad.unbroken⟩
  | more hpad hpad' _ ih =>
    obtain ⟨hname, hrest⟩ := List.forall_mem_cons.1 hp
    simp [unbroken_append, unbroken_cons, hslash, hname.unbroken, hpad.unbroken, hpad'.unbroken,
      ih hrest]

theorem SpellsNames.starts (h : SpellsNames names text) (hp : ∀ name ∈ names, Proper name)
    {pad : List Char} (hpad : Margin pad) : ∃ c cs, pad ++ text = c :: cs ∧ c ≠ '/' := by
  cases pad with
  | nil =>
    obtain ⟨name, hname, rest, rfl⟩ := h.exists_first
    have hproper := hp name hname
    obtain ⟨c, cs, hcs⟩ := List.exists_cons_of_ne_nil hproper.opens_name.ne_nil
    refine ⟨c, cs ++ rest, by rw [hcs]; rfl, ?_⟩
    rintro rfl
    exact hproper.no_slash (hcs ▸ List.mem_cons_self)
  | cons c pad =>
    refine ⟨c, pad ++ text, rfl, ?_⟩
    rintro rfl
    exact hpad.no_slash List.mem_cons_self

theorem SpellsNames.cut (h : SpellsNames names text) (hp : ∀ name ∈ names, Proper name)
    (back : List Char) :
    cutAt ['/', '/'] (text ++ '/' :: '/' :: back) = some (text, back) := by
  induction h with
  | @last name pad hpad =>
    have hfree : '/' ∉ name.toList ++ pad := ((hp name List.mem_cons_self).piece margin_nil hpad).1
    rw [cutAt_append_of_not_mem hfree]
    change Option.map _ (cutAt ['/', '/'] ('/' :: (['/'] ++ back))) = _
    rw [cutAt_self, Option.map_some, List.append_nil]
  | @more name names pad pad' rest hpad hpad' hrest ih =>
    obtain ⟨hname, hnames⟩ := List.forall_mem_cons.1 hp
    have hfree : '/' ∉ name.toList ++ pad := (hname.piece margin_nil hpad).1
    have hnext : ['/', '/'].isPrefixOf ('/' :: (pad' ++ (rest ++ '/' :: '/' :: back))) = false := by
      obtain ⟨c, cs, hcs, hc⟩ := hrest.starts hnames hpad'
      rw [← List.append_assoc, hcs]
      simp [List.isPrefixOf, Ne.symm hc]
    rw [List.append_assoc, cutAt_append_of_not_mem hfree, List.cons_append, List.append_assoc,
      cutAt, hnext, if_neg Bool.false_ne_true, cutAt_append_of_not_mem hpad'.no_slash, ih hnames]
    rfl

theorem SpellsNames.pieces (h : SpellsNames names text) (hp : ∀ name ∈ names, Proper name)
    {lead : List Char} (hlead : Margin lead) :
    (pieces '/' (lead ++ text)).map (fun raw => String.ofList (trim raw)) = names := by
  induction h generalizing lead with
  | @last name pad hpad =>
    obtain ⟨hfree, hname⟩ := (hp name List.mem_cons_self).piece hlead hpad
    rw [pieces_of_not_mem hfree, List.map_singleton, hname]
  | @more name names pad pad' rest hpad hpad' _ ih =>
    obtain ⟨hproper, hnames⟩ := List.forall_mem_cons.1 hp
    obtain ⟨hfree, hname⟩ := hproper.piece hlead hpad
    rw [← List.append_assoc, pieces_append hfree, List.map_cons, hname, ih hnames hpad']

end SpellsNames

theorem Numeral.ne_nil {w : List Char} {x : Double} (h : Numeral w x) : w ≠ [] :=
  Literal.ne_nil_of_double? h.reads

theorem Numeral.no_slash {w : List Char} {x : Double} (h : Numeral w x) : '/' ∉ w :=
  Literal.slash_not_mem_of_double? h.reads

section SpellsCells

variable {xs : List Double} {text : List Char} (h : SpellsCells xs text)
include h

theorem SpellsCells.closes : Closes text := by
  induction h with
  | last hw => exact hw.solid.closes hw.ne_nil
  | more _ _ _ _ ih => exact ih.append _

theorem SpellsCells.no_slash : '/' ∉ text := by
  induction h with
  | last hw => exact hw.no_slash
  | more hw hgap _ _ ih => simp [hw.no_slash, hgap.no_slash, ih]

theorem SpellsCells.unbroken : Unbroken text := by
  induction h with
  | last hw => exact hw.solid.unbroken
  | more hw hgap _ _ ih =>
    exact unbroken_append.2 ⟨unbroken_append.2 ⟨hw.solid.unbroken, hgap.unbroken⟩, ih⟩

theorem SpellsCells.read {pad pad' : List Char} (hpad : Margin pad) (hpad' : Margin pad') :
    readCells (words (pad ++ text ++ pad')) = .ok xs := by
  rw [List.append_assoc, words_padded fun c hc => hpad.isBlank hc]
  induction h with
  | @last x w hw =>
    have hend : ∀ c ∈ pad'.head?, isBlank c := fun c hc =>
      hpad'.isBlank (List.mem_of_mem_head? hc)
    have hnone : words pad' = [] := by
      have hpadded := words_padded (fun c hc => hpad'.isBlank hc) []
      rwa [List.append_nil] at hpadded
    rw [words_cons hw.ne_nil hw.solid hend, hnone, readCells, hw.reads]
    rfl
  | @more x xs w gap rest hw hgap hne _ ih =>
    -- the gap is not empty, so that the word ends where it begins
    obtain ⟨c, cs, rfl⟩ := List.exists_cons_of_ne_nil hne
    have hend : ∀ d ∈ (c :: cs ++ (rest ++ pad')).head?, isBlank d := by
      intro d hd
      cases hd
      exact hgap.isBlank List.mem_cons_self
    rw [List.append_assoc, List.append_assoc, words_cons hw.ne_nil hw.solid hend,
      words_padded fun d hd => hgap.isBlank hd, readCells, hw.reads]
    simp only [ih]
    rfl

end SpellsCells

theorem solid_digits {ds : List Char} {n : Nat} (h : Literal.Digits ds n) : Solid ds :=
  fun _ hc => h.not_blank hc

theorem exists_last_tab {pad' : List Char} (h : Margin pad') :
    ∃ front back, '\t' :: pad' = front ++ '\t' :: back ∧ '\t' ∉ back ∧ Margin front ∧ Margin back := by
  -- tabs may stand around the one that the arity is behind, but all before the digits
  obtain ⟨front, back, hcut, hback⟩ := exists_last (List.mem_cons_self (a := '\t') (l := pad'))
  have hall : Margin ('\t' :: pad') := List.forall_mem_cons.2 ⟨.inr rfl, h⟩
  rw [hcut] at hall
  refine ⟨front, back, hcut, hback, fun c hc => hall c (List.mem_append_left _ hc), fun c hc => ?_⟩
  exact hall c (List.mem_append_right _ (List.mem_cons_of_mem _ hc))

section Declarations

variable {defaultArity : Int} {d : Declaration} {core : List Char} (h : d.Spelled defaultArity core)
include h

theorem Declaration.Spelled.opens : Opens core := by
  cases h with
  | plain _ _ => exact d.proper.opens_name
  | sized _ _ _ =>
    rw [List.append_assoc]
    exact d.proper.opens_name.append _

theorem Declaration.Spelled.closes : Closes core := by
  cases h with
  | plain _ _ => exact d.proper.closes_name
  | sized _ _ hds =>
    have hdigits := solid_digits hds
    exact (((hdigits.closes hds.ne_nil).append _).append ['\t']).append _

theorem Declaration.Spelled.unbroken : Unbroken core := by
  cases h with
  | plain _ _ => exact d.proper.unbroken
  | sized hpad hpad' hds =>
    have hdigits := solid_digits hds
    have htab : isLineBreak '\t' = false := rfl
    simp [unbroken_append, unbroken_cons, htab, d.proper.unbroken, hpad.unbroken, hpad'.unbroken,
      hdigits.unbroken]

theorem Declaration.Spelled.ne_header : core ≠ factorsHeader := by
  intro hcore
  cases h with
  | plain _ hname => exact hname (String.toList_injective hcore)
  | sized _ _ _ =>
    have htab : '\t' ∈ factorsHeader := hcore ▸ List.mem_append_right _ List.mem_cons_self
    exact absurd htab (by decide)

theorem Declaration.Spelled.read :
    readDeclaration core defaultArity = .ok (d.name, (d.arity : Int)) := by
  cases h with
  | plain harity _ =>
    have htrim : trim d.name.toList = d.name.toList := d.proper.trim_name margin_nil.padded
    rw [readDeclaration_plain d.proper.no_tab, htrim, String.ofList_toList, harity]
  | @sized pad pad' ds hpad hpad' hds =>
    -- the last tab may be one of those in front of the digits
    obtain ⟨front, back, hcut, htab, hfront, hback⟩ := exists_last_tab hpad'
    have hwhole : d.name.toList ++ pad ++ '\t' :: (pad' ++ ds) =
        (d.name.toList ++ (pad ++ front)) ++ '\t' :: (back ++ ds) := by
      rw [← List.cons_append, hcut]
      simp
    have hdigits := solid_digits hds
    have hfree : '\t' ∉ back ++ ds := by
      intro hc
      rcases List.mem_append.1 hc with hc | hc
      · exact htab hc
      · exact absurd (hdigits '\t' hc) (by decide)
    have hname : trim (d.name.toList ++ (pad ++ front)) = d.name.toList :=
      d.proper.trim_name (.intro margin_nil (hpad.append hfront))
    rw [hwhole, readDeclaration_sized hfree, hname, hdigits.trim_padded hds.ne_nil hback.padded,
      String.ofList_toList]
    refine ⟨rfl, Literal.int?_digits hds, ?_⟩
    have hpos := d.arity_pos
    omega

end Declarations

section Descriptions

variable {d : Description} {core : List Char} (h : d.Spelled core)
  (hp : ∀ name ∈ d.names, Proper name)
include h

theorem Description.Spelled.closes : Closes core := by
  cases h with
  | bare _ _ hcells => exact ((hcells.closes.append _).append ['/', '/']).append _
  | @weighed names cells x front pad text pad' pad'' w _ _ _ _ _ hw =>
    have hweight : Closes (pad'' ++ w) := (hw.solid.closes hw.ne_nil).append pad''
    exact (((hweight.append ['/', '/', '/']).append _).append ['/', '/']).append _

include hp

theorem Description.Spelled.opens : Opens core := by
  cases h with
  | bare hnames _ _ => exact (hnames.opens hp).append _
  | weighed hnames _ _ _ _ _ => exact (hnames.opens hp).append _

theorem Description.Spelled.unbroken : Unbroken core := by
  have hslash : isLineBreak '/' = false := rfl
  cases h with
  | bare hnames hpad hcells =>
    simp [unbroken_append, unbroken_cons, hslash, hnames.unbroken hp, hpad.unbroken,
      hcells.unbroken]
  | weighed hnames hpad hcells hpad' hpad'' hw =>
    simp [unbroken_append, unbroken_cons, hslash, hnames.unbroken hp, hpad.unbroken,
      hcells.unbroken, hpad'.unbroken, hpad''.unbroken, hw.solid.unbroken]

theorem Description.Spelled.parts : ∃ front body text,
    cutAt ['/', '/'] core = some (front, body) ∧
    (pieces '/' front).map (fun raw => String.ofList (trim raw)) = d.names ∧
    readWeight body = .ok (text, d.weight) ∧ readCells (words text) = .ok d.cells := by
  cases h with
  | @bare names cells front pad text hnames hpad hcells =>
    have hfree : '/' ∉ pad ++ text := by simp [hpad.no_slash, hcells.no_slash]
    have hnone : cutAt ['/', '/', '/'] (pad ++ text) = none := by
      rw [← List.append_nil (pad ++ text), cutAt_append_of_not_mem hfree]
      rfl
    refine ⟨front, pad ++ text, pad ++ text, hnames.cut hp _, hnames.pieces hp margin_nil, ?_, ?_⟩
    · rw [readWeight, hnone]
    · have hread := hcells.read hpad margin_nil
      rwa [List.append_nil] at hread
  | @weighed names cells x front pad text pad' pad'' w hnames hpad hcells hpad' hpad'' hw =>
    have hfree : '/' ∉ pad ++ text ++ pad' := by
      simp [hpad.no_slash, hcells.no_slash, hpad'.no_slash]
    have hself : cutAt ['/', '/', '/'] ('/' :: '/' :: '/' :: (pad'' ++ w)) = some ([], pad'' ++ w) :=
      cutAt_self ['/', '/'] (pad'' ++ w)
    refine ⟨front, _, pad ++ text ++ pad', hnames.cut hp _, hnames.pieces hp margin_nil, ?_,
      hcells.read hpad hpad'⟩
    rw [readWeight, cutAt_append_of_not_mem hfree, hself, Option.map_some, List.append_nil]
    simp only [hw.solid.trim_padded hw.ne_nil hpad''.padded, hw.reads]

end Descriptions

end FactorForest.Format
