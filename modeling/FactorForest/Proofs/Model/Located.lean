import FactorForest.Proofs.Model.Acceptance
import FactorForest.Proofs.Model.Reading

/-!
Where a text is refused. Whatever the text is, reading it gives a model or tells the line that it
could not go on with, and that line is one of the text or the first: what the checks of a line let
pass is a variable, a scope and a factor that the model takes. The one thing that no line is told
with is a number of joint values that has too many digits to be told.
-/

set_option autoImplicit false

namespace FactorForest.Model

open Text Fault

/-- A line lists known variables that have together too many joint values to write their number. -/
def Countless (known : Declared) (line : List Char) : Prop :=
  ∃ listed, List.Forall₂ (fun name v => (name, v) ∈ known) (namesOn line) listed ∧
    10 ^ writtenDigits ≤ Scope.volume listed

/-- A failure tells a line from `first` to `last`, or else that there is a number with too many
digits, as `huge` says. -/
def Located {α : Type} (first last : Nat) (huge : Prop) (r : Except Fault α) : Prop :=
  ∀ e, r = .error e →
    (∃ n cause, e = .line n cause ∧ first ≤ n ∧ n ≤ last) ∨ e = .hugeNumber ∧ huge

variable {α β : Type} {first last : Nat} {huge : Prop} {r : Except Fault α} {defaultArity : Int}
  {known : Declared}

theorem located_ok {a : α} : Located first last huge (.ok a : Except Fault α) :=
  fun _ h => nomatch h

theorem located_line {n : Nat} {cause : LineFault} (hf : first ≤ n) (hl : n ≤ last) :
    Located first last huge (.error (.line n cause) : Except Fault α) := by
  rintro e ⟨⟩
  exact .inl ⟨n, cause, rfl, hf, hl⟩

theorem located_atLine {n : Nat} (hf : first ≤ n) (hl : n ≤ last) (x : Except LineFault α) :
    Located first last huge (atLine n x) := by
  cases x with
  | ok a => exact located_ok
  | error cause => exact located_line hf hl

theorem Located.mono {first' last' : Nat} {huge' : Prop} (h : Located first last huge r)
    (hf : first' ≤ first) (hl : last ≤ last') (hh : huge → huge') :
    Located first' last' huge' r := by
  intro e he
  rcases h e he with ⟨n, cause, rfl, hn, hn'⟩ | ⟨rfl, hhuge⟩
  · exact .inl ⟨n, cause, rfl, hf.trans hn, hn'.trans hl⟩
  · exact .inr ⟨rfl, hh hhuge⟩

theorem Located.bind {next : α → Except Fault β} (h : Located first last huge r)
    (hnext : ∀ a, r = .ok a → Located first last huge (next a)) :
    Located first last huge (r >>= next) := by
  cases r with
  | ok a => exact hnext a rfl
  | error e => exact fun d hd => h d (by cases hd; rfl)

theorem Located.guarded {c : Prop} [Decidable c] {e : Fault} {next : Unit → Except Fault β}
    (hc : c → Located first last huge (.error e : Except Fault β))
    (hnext : ¬ c → Located first last huge (next ())) :
    Located first last huge (if c then (throw e : Except Fault Unit) >>= next else next ()) := by
  by_cases h : c
  · rw [if_pos h]
    exact hc h
  · rw [if_neg h]
    exact hnext h

theorem one_le_of_readDeclaration (hd : 1 ≤ defaultArity) {line : List Char} {name : String}
    {arity : Int} (h : readDeclaration line defaultArity = .ok (name, arity)) : 1 ≤ arity := by
  by_cases htab : '\t' ∈ line
  · obtain ⟨front, back, rfl, hback⟩ := exists_last htab
    exact ((readDeclaration_sized hback).1 h).2.2
  · rw [readDeclaration_plain htab] at h
    cases h
    exact hd

theorem exists_ofInts (id : Nat) {arity : Int} (h : 1 ≤ arity) :
    ∃ v, Variable.ofInts id arity = .ok v :=
  ⟨⟨id, arity.toNat, by omega⟩, by simp [Variable.ofInts, Int.not_lt.2 h]⟩

theorem number_of_readDeclarations {n n' : Nat} {ls rest : List (List Char)} {known' : Declared}
    (h : readDeclarations defaultArity n known ls = .ok (known', n', rest)) :
    n < n' ∧ n' + rest.length = n + ls.length := by
  induction ls generalizing known n with
  | nil => exact nomatch h
  | cons l ls ih =>
    rcases readDeclarations_cons h with ⟨-, hr⟩ | ⟨-, -, name, v, -, -, -, hrest⟩
    · cases hr
      refine ⟨Nat.lt_succ_self n, ?_⟩
      rw [List.length_cons]
      omega
    · obtain ⟨hlt, hlength⟩ := ih hrest
      refine ⟨by omega, ?_⟩
      rw [List.length_cons]
      omega

theorem located_readDeclarations (hd : 1 ≤ defaultArity) (n : Nat) (known : Declared)
    (ls : List (List Char)) : Located (n - 1) (n - 1 + ls.length) False
      (readDeclarations defaultArity n known ls) := by
  -- a declaration that is read makes a variable, since its arity is positive
  induction ls generalizing n known with
  | nil => exact located_line le_rfl le_rfl
  | cons l ls ih =>
    rw [readDeclarations]
    split
    · exact located_ok
    refine .guarded (fun _ => located_line (by omega) (by rw [List.length_cons]; omega)) fun _ => ?_
    refine (located_atLine (by omega) (by rw [List.length_cons]; omega) _).bind fun d hread => ?_
    obtain ⟨name, arity⟩ := d
    refine .guarded (fun _ => located_line (by omega) (by rw [List.length_cons]; omega)) fun _ => ?_
    obtain ⟨v, hv⟩ := exists_ofInts known.length
      (one_le_of_readDeclaration hd (atLine_eq_ok_iff.1 hread))
    refine Located.bind (hv ▸ located_ok) fun w _ => ?_
    exact (ih (n + 1) _).mono (by omega) (by rw [List.length_cons]; omega) id

theorem exists_scope (hk : Numbered known) {raws : List (List Char)} {listed : List Variable}
    (h : readNames known [] raws = .ok listed) :
    ∃ s, Scope.ofList listed = .ok s ∧ s.size = Scope.volume listed ∧
      List.Forall₂ (fun name v => (name, v) ∈ known)
        (raws.map fun raw => String.ofList (trim raw)) listed := by
  -- names that are read once each have variables of different ids, so these make a scope
  obtain ⟨new, rfl, hlookups⟩ := readNames_ok h
  have hdistinct := readNames_nodup List.nodup_nil h
  have hknown := hlookups.imp fun _ _ h => hk.lookup_eq_some_iff.1 h
  obtain ⟨s, hs, hvars⟩ := Scope.ofList_of_nodup
    (Format.ids_nodup_of_known hk hknown (nodup_of_looked_up hlookups hdistinct))
  refine ⟨s, hs, ?_, hknown⟩
  rw [Scope.size, hvars, Assignment.volume_perm (Variable.sortById_perm _)]

theorem located_missing {n count needed found : Nat} (h : 10 ^ writtenDigits ≤ needed → huge) :
    Located n n huge
      (.error (told (.line n (.missingValues count needed found))) : Except Fault α) := by
  have hmem {k : Int} : k ∈ (Fault.line n (.missingValues count needed found)).numbers ↔
      k = needed := List.mem_singleton
  by_cases hn : needed < 10 ^ writtenDigits
  · rw [told_of_writable fun k hk => hmem.1 hk ▸ writable_natCast.2 hn]
    exact located_line le_rfl le_rfl
  · rw [told_of_not_writable (hmem.2 rfl) (mt writable_natCast.1 hn)]
    rintro e ⟨⟩
    exact .inr ⟨rfl, h (Nat.not_lt.1 hn)⟩

theorem located_readFactor (hk : Numbered known) (n : Nat) (line : List Char) :
    Located n n (Countless known line) (readFactor known n line) := by
  rw [readFactor]
  split
  · rename_i front body hcut
    refine (located_atLine le_rfl le_rfl _).bind fun listed hlisted => ?_
    obtain ⟨s, hs, hsize, hknown⟩ := exists_scope hk (atLine_eq_ok_iff.1 hlisted)
    refine (located_atLine le_rfl le_rfl _).bind fun w _ => ?_
    refine (located_atLine le_rfl le_rfl _).bind fun cells _ => ?_
    refine Located.bind (hs ▸ located_ok) fun t ht => ?_
    obtain rfl : s = t := Except.ok.inj (hs.symm.trans ht)
    refine .guarded (fun _ => located_missing fun hn => ⟨listed, ?_, hsize ▸ hn⟩) fun _ => located_ok
    rw [namesOn, hcut]
    exact hknown
  · exact located_line le_rfl le_rfl

theorem located_readFactors (hk : Numbered known) (n : Nat) {m : Model}
    (hm : Format.Within known m) (ws : List Warning) (ls : List (List Char)) :
    Located n (n - 1 + ls.length) (∃ l ∈ (ls.map trim).filter (· ≠ []), Countless known l)
      (readFactors known n m ws ls).outcome := by
  -- a factor that is read is taken, since its variables are the declared ones
  induction ls generalizing n m ws with
  | nil => exact located_ok
  | cons l ls ih =>
    rw [outcome_readFactors_cons]
    split
    · rename_i hl
      refine (ih (n + 1) hm ws).mono (by omega) (by rw [List.length_cons]; omega) fun h => ?_
      simpa [hl] using h
    · rename_i hl
      refine ((located_readFactor hk n (trim l)).mono le_rfl (by rw [List.length_cons]; omega)
        fun h => ?_).bind fun r hread => ?_
      · exact ⟨trim l, by simp [hl], h⟩
      · obtain ⟨f, w, extra⟩ := r
        have hvars : ∀ v ∈ f.scope.vars, ∃ name, (name, v) ∈ known := by
          intro v hv
          obtain ⟨name, -, hname⟩ := (mem_readFactor hread).1 hv
          exact ⟨name, hk.lookup_eq_some_iff.1 hname⟩
        have hadd : m.addFactor f w = (m.extend f w, .ok m.factors.size) := by
          refine addFactor_eq_ok_iff.2 ⟨fun v hv => ?_, rfl, rfl⟩
          obtain ⟨name, hname⟩ := hvars v hv
          exact hm.accepts hk hname
        simp only [hadd]
        refine (ih (n + 1) (hm.extend hvars w) _).mono (by omega) (by rw [List.length_cons]; omega) ?_
        rintro ⟨l', hl', h⟩
        exact ⟨l', by simp_all, h⟩

def CountlessIn (defaultArity : Int) (text : List Char) : Prop :=
  ∃ declared, Declares defaultArity text declared ∧ ∃ l ∈ factorLines text, Countless declared l

theorem located_parse (hd : 1 ≤ defaultArity) (text : List Char) :
    Located 1 (max 1 (lines text).length) (CountlessIn defaultArity text)
      (parse text defaultArity) := by
  rw [parse_eq]
  split
  · exact located_line le_rfl (le_max_left _ _)
  · rename_i first rest hlines
    have hlength : max 1 (lines text).length = rest.length + 1 := by
      rw [hlines, List.length_cons]
      omega
    rw [hlength]
    split
    · exact located_line le_rfl (by omega)
    · refine ((located_readDeclarations hd 2 [] rest).mono (by omega) (by omega) False.elim).bind
        fun r hread => ?_
      obtain ⟨declared, n, ls⟩ := r
      obtain ⟨hnum, -, -, hls, new, hnew, hdeclared⟩ := readDeclarations_ok numbered_nil hread
      obtain ⟨hlt, hnumber⟩ := number_of_readDeclarations hread
      have hstart := Format.within_start declared (declared.map (·.1))
      refine (located_readFactors hnum n hstart [] ls).mono (by omega) (by omega) ?_
      rintro ⟨l, hl, hcountless⟩
      refine ⟨declared, ⟨hnum, ?_⟩, l, ?_, hcountless⟩
      · rw [declarationLines, hlines, hnew, List.nil_append]
        exact hdeclared
      · rw [factorLines, hlines, List.tail_cons, ← hls]
        exact hl

/-- Every text is accepted, or refused at one of its lines or at the first. Only of a factor over
declared variables that have too many joint values together it may be told instead that their number
cannot be written. -/
theorem parse_located (hd : 1 ≤ defaultArity) (text : List Char) :
    (∃ m ws, parse text defaultArity = .ok (m, ws)) ∨
    (∃ n cause, parse text defaultArity = .error (.line n cause) ∧
      1 ≤ n ∧ n ≤ max 1 (lines text).length) ∨
    parse text defaultArity = .error .hugeNumber ∧ CountlessIn defaultArity text := by
  cases hp : parse text defaultArity with
  | ok r => exact .inl ⟨r.1, r.2, rfl⟩
  | error e =>
    rcases located_parse hd text e hp with ⟨n, cause, rfl, hn⟩ | ⟨rfl, hhuge⟩
    · exact .inr (.inl ⟨n, cause, rfl, hn⟩)
    · exact .inr (.inr ⟨rfl, hhuge⟩)

/-- A factor of two cells with one. -/
def shortText : List Char := "variables:\nA\nfactors:\n\nA// 1\n".toList

theorem parse_located_short : ∃ n cause, parse shortText 2 = .error (.line n cause) ∧
    1 ≤ n ∧ n ≤ max 1 (lines shortText).length := by
  have hrun : parse shortText 2 = .error (.line 5 (.missingValues 1 2 1)) := by decide +kernel
  rcases parse_located (by decide : (1 : Int) ≤ 2) shortText with ⟨m, ws, h⟩ | h | ⟨h, -⟩
  · exact absurd (h.symm.trans hrun) (by simp)
  · exact h
  · exact absurd (h.symm.trans hrun) (by simp)

/-- Two variables whose joint values have a number of 4301 digits, and a cell for one of them. -/
def countlessText : List Char :=
  let arity := '1' :: List.replicate 2150 '0'
  "variables:\nA\t".toList ++ arity ++ "\nB\t".toList ++ arity ++ "\nfactors:\nA/B// 0\n".toList

/-- The exception does occur: cells are missing, but how many were needed is not written out, and so
no line is told. -/
theorem parse_countlessText : ¬ ∀ (text : List Char) (defaultArity : Int), 1 ≤ defaultArity →
    (∃ m ws, parse text defaultArity = .ok (m, ws)) ∨
      ∃ e n, parse text defaultArity = .error e ∧ e.kind = .modelText n ∧
        1 ≤ n ∧ n ≤ max 1 (lines text).length := by
  intro h
  have hrun : parse countlessText 2 = .error .hugeNumber := by decide +kernel
  rcases h countlessText 2 (by decide) with ⟨m, ws, hok⟩ | ⟨e, n, he, hk, -⟩
  · rw [hrun] at hok
    exact nomatch hok
  · rw [hrun] at he
    cases he
    exact nomatch hk

end FactorForest.Model
