import FactorForest.Model.Text
import FactorForest.Proofs.Fault
import FactorForest.Proofs.Model.Registration

set_option autoImplicit false

namespace FactorForest

namespace Model

open Text

def factorsHeader : List Char := "factors:".toList

/-- The lines between the headers, trimmed. -/
def declarationLines (text : List Char) : List (List Char) :=
  ((lines text).tail.map trim).takeWhile (· ≠ factorsHeader)

/-- The lines after the header of the factors, trimmed, but for blank ones. -/
def factorLines (text : List Char) : List (List Char) :=
  (((lines text).tail.map trim).dropWhile (· ≠ factorsHeader)).tail.filter (· ≠ [])

def namesOn (line : List Char) : List String :=
  match cutAt ['/', '/'] line with
  | none => []
  | some (front, _) => (pieces '/' front).map fun p => String.ofList (trim p)

def Uses (text : List Char) (name : String) : Prop := ∃ l ∈ factorLines text, name ∈ namesOn l

instance (text : List Char) (name : String) : Decidable (Uses text name) :=
  inferInstanceAs (Decidable (∃ l ∈ factorLines text, name ∈ namesOn l))

structure Numbered (known : Declared) : Prop where
  ids : known.map (·.2.id) = List.range known.length
  distinct : (known.map (·.1)).Nodup

theorem numbered_nil : Numbered [] := ⟨rfl, List.nodup_nil⟩

theorem lookup_eq_none_iff {known : Declared} {name : String} :
    known.lookup name = none ↔ name ∉ known.map (·.1) := by
  rw [List.lookup_eq_none_iff]
  constructor
  · rintro h hmem
    obtain ⟨e, he, rfl⟩ := List.mem_map.1 hmem
    exact absurd rfl (bne_iff_ne.1 (h e he))
  · rintro h e he
    refine bne_iff_ne.2 ?_
    rintro rfl
    exact h (List.mem_map_of_mem he)

theorem Numbered.add {known : Declared} (hk : Numbered known) {name : String} {v : Variable}
    (hn : known.lookup name = none) (hv : v.id = known.length) :
    Numbered (known ++ [(name, v)]) := by
  refine ⟨?_, ?_⟩
  · simp [hk.ids, hv, List.range_succ]
  · have hnew := lookup_eq_none_iff.1 hn
    rw [List.map_append, List.map_singleton, List.nodup_append]
    refine ⟨hk.distinct, List.nodup_singleton _, ?_⟩
    intro a ha b hb hab
    have hb : b = name := List.mem_singleton.1 hb
    exact hnew (hab.trans hb ▸ ha)

theorem Numbered.lookup_eq_some_iff {known : Declared} (hk : Numbered known) {name : String}
    {v : Variable} : known.lookup name = some v ↔ (name, v) ∈ known := by
  have hmem : ∀ w, known.lookup name = some w → (name, w) ∈ known := by
    intro w hw
    obtain ⟨front, back, rfl, -⟩ := List.lookup_eq_some_iff.1 hw
    exact List.mem_append_right front List.mem_cons_self
  refine ⟨hmem v, fun h => ?_⟩
  cases hf : known.lookup name with
  | none => exact absurd rfl (bne_iff_ne.1 (List.lookup_eq_none_iff.1 hf _ h))
  | some w =>
    exact congrArg (fun e => some e.2) (List.inj_on_of_nodup_map hk.distinct (hmem w hf) h rfl)

theorem Numbered.eq_of_id {known : Declared} (hk : Numbered known) {e e' : String × Variable}
    (he : e ∈ known) (he' : e' ∈ known) (hid : e.2.id = e'.2.id) : e = e' := by
  have hids : (known.map (·.2.id)).Nodup := hk.ids ▸ List.nodup_range
  exact List.inj_on_of_nodup_map hids he he' hid

/-- The declared variables of a text: one for each declaration, with its name and arity. -/
structure Declares (defaultArity : Int) (text : List Char) (declared : Declared) : Prop where
  numbered : Numbered declared
  lines : List.Forall₂ (fun l e => readDeclaration l defaultArity = .ok (e.1, (e.2.arity : Int)))
    (declarationLines text) declared

/-- A text has both headers, and between them stand no blank lines. -/
structure Headed (text : List Char) : Prop where
  first : (lines text).head?.map trim = some "variables:".toList
  second : factorsHeader ∈ (lines text).tail.map trim
  filled : ∀ l ∈ declarationLines text, l ≠ []

theorem atLine_eq_ok_iff {α : Type} {n : Nat} {r : Except LineFault α} {a : α} :
    atLine n r = .ok a ↔ r = .ok a := by
  cases r <;> simp [atLine]

variable {defaultArity : Int} {known : Declared}

theorem readDeclarations_cons {n : Nat} {l : List Char} {ls : List (List Char)}
    {r : Declared × Nat × List (List Char)}
    (h : readDeclarations defaultArity n known (l :: ls) = .ok r) :
    trim l = factorsHeader ∧ r = (known, n + 1, ls) ∨
      trim l ≠ factorsHeader ∧ trim l ≠ [] ∧ ∃ name v,
        readDeclaration (trim l) defaultArity = .ok (name, (v.arity : Int)) ∧
        known.lookup name = none ∧ v.id = known.length ∧
        readDeclarations defaultArity (n + 1) (known ++ [(name, v)]) ls = .ok r := by
  rw [readDeclarations] at h
  split at h
  · rename_i hl
    exact .inl ⟨hl, (pure_eq_ok_iff.1 h)⟩
  · rename_i hl
    obtain ⟨hblank, h⟩ := guarded_eq_ok_iff.1 h
    obtain ⟨⟨name, arity⟩, hd, h⟩ := bind_eq_ok_iff.1 h
    obtain ⟨hnew, h⟩ := guarded_eq_ok_iff.1 h
    obtain ⟨v, hv, hrest⟩ := bind_eq_ok_iff.1 h
    obtain ⟨hid, harity⟩ := Variable.of_ofInts hv
    have hlookup : known.lookup name = none := Option.not_isSome_iff_eq_none.1 hnew
    exact .inr ⟨hl, hblank, name, v, harity ▸ atLine_eq_ok_iff.1 hd, hlookup, Int.ofNat_inj.1 hid, hrest⟩

theorem readDeclarations_ok {n n' : Nat} {ls rest : List (List Char)} {known' : Declared}
    (hk : Numbered known)
    (h : readDeclarations defaultArity n known ls = .ok (known', n', rest)) :
    Numbered known' ∧ factorsHeader ∈ ls.map trim ∧
      (∀ l ∈ (ls.map trim).takeWhile (· ≠ factorsHeader), l ≠ []) ∧
      rest.map trim = ((ls.map trim).dropWhile (· ≠ factorsHeader)).tail ∧
      ∃ new, known' = known ++ new ∧
        List.Forall₂ (fun l e => readDeclaration l defaultArity = .ok (e.1, (e.2.arity : Int)))
          ((ls.map trim).takeWhile (· ≠ factorsHeader)) new := by
  -- the declarations so far stay numbered, since a new one takes their number as its id
  induction ls generalizing known n with
  | nil => exact nomatch h
  | cons l ls ih =>
    rcases readDeclarations_cons h with ⟨hl, hr⟩ | ⟨hl, hfilled, name, v, hd, hn, hv, hrest⟩
    · cases hr
      exact ⟨hk, by simp [hl], by simp [hl], by simp [hl], [], by simp, by simp [hl]⟩
    · obtain ⟨hk', hheader, hfilled', hrest', new, rfl, hnew⟩ := ih (hk.add hn hv) hrest
      have htake : ((l :: ls).map trim).takeWhile (· ≠ factorsHeader) =
          trim l :: (ls.map trim).takeWhile (· ≠ factorsHeader) := by
        rw [List.map_cons, List.takeWhile_cons_of_pos (by simpa using hl)]
      rw [htake]
      refine ⟨hk', List.mem_cons_of_mem _ hheader, ?_, ?_, (name, v) :: new, by simp, ?_⟩
      · exact List.forall_mem_cons.2 ⟨hfilled, hfilled'⟩
      · simpa [hl] using hrest'
      · exact .cons hd hnew

theorem readNames_ok {seen listed : List Variable} {raws : List (List Char)}
    (h : readNames known seen raws = .ok listed) : ∃ new, listed = seen ++ new ∧
      List.Forall₂ (fun name v => known.lookup name = some v)
        (raws.map fun raw => String.ofList (trim raw)) new := by
  induction raws generalizing seen with
  | nil =>
    cases h
    exact ⟨[], by simp, .nil⟩
  | cons raw raws ih =>
    rw [readNames] at h
    split at h
    · exact nomatch h
    · rename_i v hv
      split at h
      · exact nomatch h
      · obtain ⟨new, rfl, hnew⟩ := ih h
        exact ⟨v :: new, by simp, .cons hv hnew⟩

theorem mem_looked_up {names : List String} {vs : List Variable}
    (h : List.Forall₂ (fun name v => known.lookup name = some v) names vs) {v : Variable} :
    v ∈ vs ↔ ∃ name ∈ names, known.lookup name = some v := by
  induction h with
  | nil => simp
  | cons hname _ ih => simp [ih, hname, eq_comm]

theorem readFactor_ok {n extra : Nat} {line : List Char} {f : Factor} {w : Option Double}
    (h : readFactor known n line = .ok (f, w, extra)) :
    ∃ front body listed text cells s, cutAt ['/', '/'] line = some (front, body) ∧
      readNames known [] (pieces '/' front) = .ok listed ∧ readWeight body = .ok (text, w) ∧
      readCells (words text) = .ok cells ∧ Scope.ofList listed = .ok s ∧ s.size ≤ cells.length ∧
      f = placeCells s listed cells.toArray ∧ extra = cells.length - s.size := by
  rw [readFactor] at h
  split at h
  · rename_i front body hcut
    obtain ⟨listed, hlisted, h⟩ := bind_eq_ok_iff.1 h
    obtain ⟨⟨text, weight⟩, hweight, h⟩ := bind_eq_ok_iff.1 h
    obtain ⟨cells, hcells, h⟩ := bind_eq_ok_iff.1 h
    obtain ⟨s, hs, h⟩ := bind_eq_ok_iff.1 h
    obtain ⟨hsize, h⟩ := guarded_eq_ok_iff.1 h
    cases h
    exact ⟨front, body, listed, text, cells, s, hcut, atLine_eq_ok_iff.1 hlisted,
      atLine_eq_ok_iff.1 hweight, atLine_eq_ok_iff.1 hcells, hs, Nat.not_lt.1 hsize, rfl, rfl⟩
  · exact nomatch h

theorem mem_readFactor {n extra : Nat} {line : List Char} {f : Factor} {w : Option Double}
    (h : readFactor known n line = .ok (f, w, extra)) {v : Variable} :
    v ∈ f.scope.vars ↔ ∃ name ∈ namesOn line, known.lookup name = some v := by
  obtain ⟨front, body, listed, text, cells, s, hcut, hlisted, -, -, hs, -, rfl, -⟩ := readFactor_ok h
  obtain ⟨new, hnew, hlookups⟩ := readNames_ok hlisted
  have hvars : v ∈ s.vars ↔ v ∈ new := by
    rw [Scope.vars_of_ofList hs, (Variable.sortById_perm _).mem_iff, hnew, List.nil_append]
  have hnames : namesOn line = (pieces '/' front).map fun p => String.ofList (trim p) := by
    rw [namesOn, hcut]
  -- the table is placed over the scope as it is
  change v ∈ s.vars ↔ _
  rw [hvars, hnames, mem_looked_up hlookups]

/-- The factor and the weight that a line lists, the names being those of known variables. -/
def Describes (known : Declared) (line : List Char) (e : Factor × Option Double) : Prop :=
  ∃ n extra, readFactor known n line = .ok (e.1, e.2, extra)

theorem readFactors_ok {n : Nat} {m m' : Model} {ws ws' : List Warning} {ls : List (List Char)}
    (h : (readFactors known n m ws ls).outcome = .ok (m', ws')) :
    ∃ fs, List.Forall₂ (Describes known) ((ls.map trim).filter (· ≠ [])) fs ∧
      m.addAll fs = .ok m' := by
  induction ls generalizing n m ws with
  | nil =>
    cases h
    exact ⟨[], .nil, rfl⟩
  | cons l ls ih =>
    rw [outcome_readFactors_cons] at h
    split at h
    · rename_i hl
      obtain ⟨fs, hfs, hm⟩ := ih h
      exact ⟨fs, by simpa [hl] using hfs, hm⟩
    · rename_i hl
      obtain ⟨⟨f, w, extra⟩, hf, hadd⟩ := bind_eq_ok_iff.1 h
      dsimp only at hadd
      split at hadd
      · rename_i m₁ fid hm₁
        obtain ⟨fs, hfs, hm⟩ := ih hadd
        refine ⟨(f, w) :: fs, ?_, ?_⟩
        · rw [List.map_cons, List.filter_cons_of_pos (by simpa using hl)]
          exact .cons ⟨n, extra, hf⟩ hfs
        · rw [addAll, hm₁]
          exact hm
      · exact nomatch hadd

theorem built_addAll {m m' : Model} {fs : List (Factor × Option Double)} (hm : m.Built)
    (h : m.addAll fs = .ok m') :
    m'.Built ∧ m'.names = m.names ∧ m'.factors.toList = m.factors.toList ++ fs.map (·.1) := by
  induction fs generalizing m with
  | nil =>
    cases h
    exact ⟨hm, rfl, by simp⟩
  | cons e fs ih =>
    rw [addAll] at h
    split at h
    · rename_i m₁ fid hm₁
      obtain ⟨hb, hn, hf⟩ := ih (hm.add hm₁) h
      obtain ⟨-, rfl, -⟩ := addFactor_eq_ok_iff.1 hm₁
      refine ⟨hb, hn.trans (enterAll_names _ _ _), ?_⟩
      rw [hf, extend_factors, Array.toList_push]
      simp
    · exact nomatch h

theorem parse_addAll {text : List Char} {m : Model} {ws : List Warning}
    (h : parse text defaultArity = .ok (m, ws)) :
    ∃ declared fs, Headed text ∧ Declares defaultArity text declared ∧
      List.Forall₂ (Describes declared) (factorLines text) fs ∧
      addAll { names := declared.map (·.1) } fs = .ok m := by
  rw [parse_eq] at h
  split at h
  · exact nomatch h
  · rename_i first rest hlines
    split at h
    · exact nomatch h
    · rename_i hfirst
      obtain ⟨⟨declared, n, ls⟩, hd, h⟩ := bind_eq_ok_iff.1 h
      obtain ⟨hnum, hheader, hfilled, hls, new, hnew, hdeclared⟩ :=
        readDeclarations_ok numbered_nil hd
      obtain ⟨fs, hfs, hm⟩ := readFactors_ok h
      refine ⟨declared, fs, ⟨?_, ?_, ?_⟩, ⟨hnum, ?_⟩, ?_, hm⟩
      · rw [hlines, List.head?_cons, Option.map_some, not_not.1 hfirst]
      · rw [hlines]
        exact hheader
      · rw [declarationLines, hlines]
        exact hfilled
      · rw [declarationLines, hlines, hnew, List.nil_append]
        exact hdeclared
      · rw [factorLines, hlines, List.tail_cons, ← hls]
        exact hfs

/-- A text that is accepted declares the names of the model, and its factor lines are the factors. -/
theorem parse_ok {text : List Char} {m : Model} {ws : List Warning}
    (h : parse text defaultArity = .ok (m, ws)) :
    ∃ declared, Declares defaultArity text declared ∧ m.Built ∧ m.names = declared.map (·.1) ∧
      List.Forall₂ (fun l f => ∃ w, Describes declared l (f, w)) (factorLines text)
        m.factors.toList := by
  obtain ⟨declared, fs, -, hd, hfs, hm⟩ := parse_addAll h
  obtain ⟨hbuilt, hnames, hfactors⟩ := built_addAll (Built.empty.name _) hm
  refine ⟨declared, hd, hbuilt, hnames, ?_⟩
  rw [hfactors]
  exact List.forall₂_map_right_iff.2 (hfs.imp fun l e he => ⟨e.2, he⟩)

theorem built_of_parseFile {bytes : List UInt8} {m : Model} {ws : List Warning}
    (h : parseFile bytes defaultArity = .ok (m, ws)) : m.Built := by
  rw [parseFile, readBytes] at h
  cases hdecode : Text.Utf8.decode bytes with
  | error e =>
    rw [hdecode] at h
    exact nomatch h
  | ok cs =>
    rw [hdecode] at h
    exact (parse_ok h).choose_spec.2.1

end Model
end FactorForest
