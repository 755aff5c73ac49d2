import FactorForest.Proofs.Model.Cells
import FactorForest.Proofs.Model.Format

set_option autoImplicit false

namespace FactorForest.Format

open Text Model

def declared (ds : List Declaration) : Declared :=
  ds.mapIdx fun i d => (d.name, ⟨i, d.arity, d.arity_pos⟩)

/-- A description lists known variables, each of them once, and has a cell for every joint value. -/
structure Lists (known : Declared) (d : Description) (listed : List Variable) : Prop where
  named : List.Forall₂ (fun name v => (name, v) ∈ known) d.names listed
  distinct : d.names.Nodup
  filled : d.cells.length = Scope.volume listed

/-- A factor is over the listed variables, and the cell at the index of an assignment is the one
listed at the place whose digits are the values of these variables. -/
structure Conveys (d : Description) (listed : List Variable) (f : Factor) : Prop where
  vars : f.scope.vars.Perm listed
  cells : ∀ a : Assignment, a.scope = f.scope → ∃ k x,
    List.Forall₂ (fun v y => a.get v.id = .ok y) listed (Assignment.digitsOf listed k) ∧
      d.cells[k]? = some x ∧ f.table[a.index]? = some x

inductive FactorLines : List Description → List (List Char) → Prop
  | done : FactorLines [] []
  | blank {pad : List Char} {fs : List Description} {ls : List (List Char)} :
      Margin pad → FactorLines fs ls → FactorLines fs (pad :: ls)
  | line {d : Description} {core l : List Char} {fs : List Description} {ls : List (List Char)} :
      d.Spelled core → Padded core l → FactorLines fs ls → FactorLines (d :: fs) (l :: ls)

/-- A whole text: declarations and descriptions, each behind its header. The last line may be
blank, so that the text ends with the end of a line. -/
inductive Renders (defaultArity : Int) (ds : List Declaration) (fs : List Description) :
    List Char → Prop
  | intro {e first second : List Char} {ls ls' : List (List Char)} :
      LineEnd e → Padded "variables:".toList first →
      List.Forall₂ (fun d l => ∃ core, d.Spelled defaultArity core ∧ Padded core l) ds ls →
      Padded factorsHeader second → FactorLines fs ls' →
      Renders defaultArity ds fs (e.intercalate (first :: ls ++ second :: ls'))

variable {defaultArity : Int} {known : Declared} {ds : List Declaration} {d : Description}
  {fs : List Description} {listed : List Variable}

theorem declared_concat (ds : List Declaration) (d : Declaration) :
    declared (ds ++ [d]) = declared ds ++ [(d.name, ⟨ds.length, d.arity, d.arity_pos⟩)] :=
  List.mapIdx_concat

theorem length_declared (ds : List Declaration) : (declared ds).length = ds.length :=
  List.length_mapIdx

theorem names_declared (ds : List Declaration) : (declared ds).map (·.1) = ds.map (·.name) := by
  induction ds using List.reverseRecOn with
  | nil => rfl
  | append_singleton ds d ih =>
    rw [declared_concat, List.map_append, List.map_append, ih]
    rfl

theorem lookup_declared {front : List Declaration} {d : Declaration}
    (h : ((front ++ [d]).map (·.name)).Nodup) : (declared front).lookup d.name = none := by
  rw [List.map_append, List.map_singleton, List.nodup_append] at h
  rw [lookup_eq_none_iff, names_declared]
  exact fun hmem => h.2.2 _ hmem _ List.mem_cons_self rfl

theorem numbered_declared (h : (ds.map (·.name)).Nodup) : Numbered (declared ds) := by
  induction ds using List.reverseRecOn with
  | nil => exact numbered_nil
  | append_singleton ds d ih =>
    have hfront : (ds.map (·.name)).Nodup := by
      rw [List.map_append] at h
      exact h.of_append_left
    rw [declared_concat]
    exact (ih hfront).add (lookup_declared h) (length_declared ds).symm

theorem proper_of_declared {name : String} {v : Variable} (h : (name, v) ∈ declared ds) :
    Proper name := by
  have hname : name ∈ ds.map (·.name) := names_declared ds ▸ List.mem_map_of_mem h
  obtain ⟨d, -, rfl⟩ := List.mem_map.1 hname
  exact d.proper

theorem readDeclarations_front {front : List Declaration} {ls : List (List Char)}
    (hls : List.Forall₂ (fun d l => ∃ core, d.Spelled defaultArity core ∧ Padded core l) ds ls)
    (hds : ((front ++ ds).map (·.name)).Nodup) (n : Nat) (rest : List (List Char)) :
    readDeclarations defaultArity n (declared front) (ls ++ rest) =
      readDeclarations defaultArity (n + ds.length) (declared (front ++ ds)) rest := by
  -- the declarations so far are those in front, so that their number is the next id
  induction hls generalizing front n with
  | nil => rw [List.nil_append, List.append_nil, List.length_nil, Nat.add_zero]
  | @cons d l ds ls hd _ ih =>
    obtain ⟨core, hcore, hl⟩ := hd
    have hnext : front ++ d :: ds = (front ++ [d]) ++ ds := by simp
    rw [hnext] at hds ⊢
    have hnew : (declared front).lookup d.name = none := by
      rw [List.map_append] at hds
      exact lookup_declared hds.of_append_left
    have hv : Variable.ofInts (declared front).length d.arity =
        .ok ⟨front.length, d.arity, d.arity_pos⟩ := by
      rw [length_declared]
      exact Variable.ofInts_natCast ⟨front.length, d.arity, d.arity_pos⟩
    have hread := ih hds (n + 1)
    rw [declared_concat] at hread
    rw [List.cons_append, readDeclarations, trim_padded hcore.opens hcore.closes hl]
    simp only [hcore.read, atLine, hnew, hv, bind, Except.bind, pure, Except.pure]
    have hheader : core ≠ "factors:".toList := hcore.ne_header
    rw [if_neg hheader, if_neg hcore.opens.ne_nil, if_neg (by simp), hread, List.length_cons,
      Nat.add_assoc, Nat.add_comm 1]

theorem readDeclarations_spelled {second : List Char} (hsecond : trim second = factorsHeader)
    {front : List Declaration} {ls : List (List Char)}
    (hls : List.Forall₂ (fun d l => ∃ core, d.Spelled defaultArity core ∧ Padded core l) ds ls)
    (hds : ((front ++ ds).map (·.name)).Nodup) (n : Nat) (rest : List (List Char)) :
    ∃ n', readDeclarations defaultArity n (declared front) (ls ++ second :: rest) =
      .ok (declared (front ++ ds), n', rest) := by
  refine ⟨n + ds.length + 1, ?_⟩
  rw [readDeclarations_front hls hds, readDeclarations, hsecond]
  rfl

theorem readDeclarations_repeated {front : List Declaration} {d : Declaration} {core l : List Char}
    (hcore : d.Spelled defaultArity core) (hl : Padded core l)
    (hfront : (front.map (·.name)).Nodup) (hd : d.name ∈ front.map (·.name)) (n : Nat)
    (rest : List (List Char)) :
    readDeclarations defaultArity n (declared front) (l :: rest) =
      .error (.line n (.declaredTwice d.name)) := by
  obtain ⟨v, hv⟩ : ∃ v, (declared front).lookup d.name = some v := by
    rw [← names_declared, List.mem_map] at hd
    obtain ⟨⟨name, v⟩, he, rfl⟩ := hd
    exact ⟨v, (numbered_declared hfront).lookup_eq_some_iff.2 he⟩
  have hheader : core ≠ "factors:".toList := hcore.ne_header
  rw [readDeclarations, trim_padded hcore.opens hcore.closes hl]
  simp only [hcore.read, atLine, hv, bind, Except.bind, pure, Except.pure]
  rw [if_neg hheader, if_neg hcore.opens.ne_nil]
  rfl

theorem Lists.lookups (hk : Numbered known) (h : Lists known d listed) :
    List.Forall₂ (fun name v => known.lookup name = some v) d.names listed :=
  h.named.imp fun _ _ hv => hk.lookup_eq_some_iff.2 hv

theorem Lists.unique (hk : Numbered known) {listed' : List Variable} (h : Lists known d listed)
    (h' : Lists known d listed') : listed = listed' := by
  have hmap : ∀ {vs}, Lists known d vs → d.names.map (List.lookup · known) = vs.map some := by
    intro vs hvs
    rw [← List.forall₂_eq_eq_eq, List.forall₂_map_left_iff, List.forall₂_map_right_iff]
    exact hvs.lookups hk
  exact List.map_injective_iff.2 (Option.some_injective _) ((hmap h).symm.trans (hmap h'))

theorem ids_nodup_of_known (hk : Numbered known) {names : List String}
    (h : List.Forall₂ (fun name v => (name, v) ∈ known) names listed) (hnames : names.Nodup) :
    (listed.map (·.id)).Nodup := by
  induction h with
  | nil => exact List.nodup_nil
  | @cons name v names vs hv hvs ih =>
    obtain ⟨hname, hnames⟩ := List.nodup_cons.1 hnames
    refine List.nodup_cons.2 ⟨?_, ih hnames⟩
    intro hmem
    obtain ⟨w, hw, hid⟩ := List.mem_map.1 hmem
    have hlookups := hvs.imp fun _ _ hv => hk.lookup_eq_some_iff.2 hv
    obtain ⟨name', hname', hw⟩ := (mem_looked_up hlookups).1 hw
    cases hk.eq_of_id (hk.lookup_eq_some_iff.1 hw) hv hid
    exact hname hname'

theorem readNames_listed {seen : List Variable} {raws : List (List Char)}
    (h : List.Forall₂ (fun name v => known.lookup name = some v)
      (raws.map fun raw => String.ofList (trim raw)) listed)
    (hseen : (seen ++ listed).Nodup) : readNames known seen raws = .ok (seen ++ listed) := by
  induction raws generalizing seen listed with
  | nil =>
    cases h
    rw [readNames, List.append_nil]
  | cons raw raws ih =>
    rw [List.map_cons, List.forall₂_cons_left_iff] at h
    obtain ⟨v, vs, hv, hvs, rfl⟩ := h
    have hnext : seen ++ v :: vs = (seen ++ [v]) ++ vs := by simp
    have hnew : v ∉ seen := by
      intro hmem
      exact (List.nodup_append.1 hseen).2.2 v hmem v List.mem_cons_self rfl
    rw [readNames, hv]
    simp only [if_neg hnew]
    rw [hnext] at hseen ⊢
    exact ih hvs hseen

theorem conveys_placeCells {s : Scope} (h : Lists known d listed) (hs : s.vars.Perm listed) :
    Conveys d listed (placeCells s listed d.cells.toArray) := by
  refine ⟨hs, fun a ha => ?_⟩
  have hscope : a.scope = s := ha
  subst hscope
  obtain ⟨hlt, hdigits⟩ := listedIndex_place hs
  have hcell : listedIndex (valueAt a) listed < d.cells.length := by
    rw [h.filled, ← Assignment.volume_perm hs]
    exact hlt
  refine ⟨_, d.cells[listedIndex (valueAt a) listed], hdigits, List.getElem?_eq_getElem hcell, ?_⟩
  refine (table_placeCells a listed _).trans (congrArg some ?_)
  simp [Array.getD, hcell]

theorem Lists.read (hk : Numbered known) (h : Lists known d listed) {core : List Char}
    (hcore : d.Spelled core) (hp : ∀ name ∈ d.names, Proper name) :
    ∃ f, Conveys d listed f ∧ ∀ n, readFactor known n core = .ok (f, d.weight, 0) := by
  obtain ⟨front, body, text, hcut, hnames, hweight, hcells⟩ := hcore.parts hp
  have hids := ids_nodup_of_known hk h.named h.distinct
  obtain ⟨s, hs, hvars⟩ := Scope.ofList_of_nodup hids
  have hperm : s.vars.Perm listed := hvars ▸ Variable.sortById_perm listed
  have hsize : d.cells.length = s.size := by rw [Scope.size, Assignment.volume_perm hperm, h.filled]
  have hlisted : readNames known [] (pieces '/' front) = .ok listed := by
    refine readNames_listed ?_ (hids.of_map _)
    rw [hnames]
    exact h.lookups hk
  refine ⟨_, conveys_placeCells h hperm, fun n => ?_⟩
  rw [readFactor, hcut]
  simp only [hlisted, hweight, hcells, hs, atLine, bind, Except.bind, pure, Except.pure]
  rw [if_neg (by omega), hsize, Nat.sub_self]

/-- Everything that a model has registered so far is known. -/
def Within (known : Declared) (m : Model) : Prop :=
  ∀ (id : Nat) v, m.vars.find? id = some v → v.id = id ∧ ∃ name, (name, v) ∈ known

theorem within_start (known : Declared) (names : List String) : Within known { names } :=
  fun _ _ hv => nomatch hv

theorem Within.accepts (hk : Numbered known) {m : Model} (hm : Within known m) {name : String}
    {v : Variable} (hv : (name, v) ∈ known) : m.Accepts v := by
  intro w hw
  obtain ⟨hid, name', hw⟩ := hm v.id w hw
  cases hk.eq_of_id hw hv hid
  rfl

theorem Within.extend {m : Model} (hm : Within known m) {f : Factor}
    (hf : ∀ v ∈ f.scope.vars, ∃ name, (name, v) ∈ known) (w : Option Double) :
    Within known (m.extend f w) := by
  intro id v hv
  rw [find?_vars_extend, Option.or_eq_some_iff] at hv
  rcases hv with hv | ⟨-, hv⟩
  · obtain ⟨hmem, hid⟩ := Scope.find?_eq_some_iff.1 hv
    exact ⟨hid, hf v hmem⟩
  · exact hm id v hv

theorem exists_addAll (hk : Numbered known) {es : List (Factor × Option Double)}
    (hes : ∀ e ∈ es, ∀ v ∈ e.1.scope.vars, ∃ name, (name, v) ∈ known) {m : Model}
    (hm : Within known m) : ∃ m', m.addAll es = .ok m' := by
  induction es generalizing m with
  | nil => exact ⟨m, rfl⟩
  | cons e es ih =>
    obtain ⟨he, hes⟩ := List.forall_mem_cons.1 hes
    have haccepts : ∀ v ∈ e.1.scope.vars, m.Accepts v := by
      intro v hv
      obtain ⟨name, hname⟩ := he v hv
      exact hm.accepts hk hname
    obtain ⟨m', hm'⟩ := ih hes (hm.extend he e.2)
    refine ⟨m', ?_⟩
    rw [addAll, addFactor_eq_ok_iff.2 ⟨haccepts, rfl, rfl⟩]
    exact hm'

theorem Lists.proper (h : Lists (declared ds) d listed) (hds : (ds.map (·.name)).Nodup) :
    ∀ name ∈ d.names, Proper name := by
  intro name hname
  have hk := numbered_declared hds
  obtain ⟨v, hv⟩ := exists_looked_up (h.lookups hk) hname
  exact proper_of_declared (hk.lookup_eq_some_iff.1 hv)

theorem Conveys.exists_name (hk : Numbered known) {f : Factor} (h : Conveys d listed f)
    (hl : Lists known d listed) {v : Variable} (hv : v ∈ f.scope.vars) :
    ∃ name, (name, v) ∈ known := by
  obtain ⟨name, -, hname⟩ := (mem_looked_up (hl.lookups hk)).1 (h.vars.mem_iff.1 hv)
  exact ⟨name, hk.lookup_eq_some_iff.1 hname⟩

theorem FactorLines.read (hk : Numbered known)
    (hfs : ∀ d ∈ fs, (∀ name ∈ d.names, Proper name) ∧ ∃ listed, Lists known d listed)
    {ls : List (List Char)} (h : FactorLines fs ls) : ∃ es : List (Factor × Option Double),
      List.Forall₂ (fun d e => ∃ listed, Lists known d listed ∧ Conveys d listed e.1 ∧
        e.2 = d.weight) fs es ∧
      (∀ e ∈ es, ∀ v ∈ e.1.scope.vars, ∃ name, (name, v) ∈ known) ∧
      ∀ n m, (readFactors known n m [] ls).outcome = (m.addAll es).map fun m => (m, []) := by
  induction h with
  | done => exact ⟨[], .nil, List.forall_mem_nil _, fun n m => rfl⟩
  | blank hpad _ ih =>
    obtain ⟨es, hes, hvars, hread⟩ := ih hfs
    refine ⟨es, hes, hvars, fun n m => ?_⟩
    rw [outcome_readFactors_cons, hpad.trim]
    exact hread (n + 1) m
  | @line d core l fs ls hcore hl _ ih =>
    obtain ⟨⟨hp, listed, hlists⟩, hfs⟩ := List.forall_mem_cons.1 hfs
    obtain ⟨es, hes, hvars, hread⟩ := ih hfs
    obtain ⟨f, hf, hline⟩ := hlists.read hk hcore hp
    refine ⟨(f, d.weight) :: es, .cons ⟨listed, hlists, hf, rfl⟩ hes, ?_, fun n m => ?_⟩
    · exact List.forall_mem_cons.2 ⟨fun v hv => hf.exists_name hk hlists hv, hvars⟩
    have htrim : trim l = core := trim_padded (hcore.opens hp) hcore.closes hl
    rw [outcome_readFactors_cons, htrim]
    simp only [if_neg (hcore.opens hp).ne_nil, hline, bind, Except.bind, if_pos]
    rw [addAll]
    cases hadd : m.addFactor f d.weight with
    | mk m' r =>
      cases r with
      | error e => rfl
      | ok fid => exact hread (n + 1) m'

theorem FactorLines.unbroken
    (hp : ∀ d ∈ fs, ∀ name ∈ d.names, Proper name) {ls : List (List Char)}
    (h : FactorLines fs ls) : ∀ l ∈ ls, Unbroken l := by
  induction h with
  | done => exact fun l hl => nomatch hl
  | blank hpad _ ih => exact List.forall_mem_cons.2 ⟨hpad.unbroken, ih hp⟩
  | line hcore hl _ ih =>
    obtain ⟨hd, hfs⟩ := List.forall_mem_cons.1 hp
    exact List.forall_mem_cons.2 ⟨hl.unbroken (hcore.unbroken hd), ih hfs⟩

theorem FactorLines.of_concat_nil {ls : List (List Char)} (h : FactorLines fs (ls ++ [[]])) :
    FactorLines fs ls := by
  induction ls generalizing fs with
  | nil =>
    cases h with
    | blank _ h => exact h
    | @line d core l fs ls hcore hl _ =>
      have hne : ([] : List Char) ≠ [] := hl.ne_nil hcore.closes.ne_nil
      exact absurd rfl hne
  | cons l ls ih =>
    cases h with
    | blank hpad h => exact .blank hpad (ih h)
    | line hcore hl h => exact .line hcore hl (ih h)

theorem unbroken_of_spelled {ls : List (List Char)}
    (h : List.Forall₂ (fun d l => ∃ core, d.Spelled defaultArity core ∧ Padded core l) ds ls) :
    ∀ l ∈ ls, Unbroken l := by
  induction h with
  | nil => exact fun l hl => nomatch hl
  | cons hd _ ih =>
    obtain ⟨core, hcore, hl⟩ := hd
    exact List.forall_mem_cons.2 ⟨hl.unbroken hcore.unbroken, ih⟩

theorem solid_variables : Solid "variables:".toList := by decide

theorem solid_factors : Solid factorsHeader := by decide

theorem Renders.lines (hp : ∀ d ∈ fs, ∀ name ∈ d.names, Proper name) {text : List Char}
    (h : Renders defaultArity ds fs text) :
    ∃ first second ls ls', lines text = first :: (ls ++ second :: ls') ∧
      Padded "variables:".toList first ∧
      List.Forall₂ (fun d l => ∃ core, d.Spelled defaultArity core ∧ Padded core l) ds ls ∧
      Padded factorsHeader second ∧ FactorLines fs ls' := by
  -- a last line that is empty is no line of the text, and so no line of a factor
  obtain @⟨e, first, second, ls, ls', he, hfirst, hls, hsecond, hls'⟩ := h
  have hunbroken : ∀ l ∈ first :: ls ++ second :: ls', Unbroken l := by
    have hheader := hfirst.unbroken solid_variables.unbroken
    have hheader' := hsecond.unbroken solid_factors.unbroken
    intro l hl
    simp only [List.cons_append, List.mem_cons, List.mem_append] at hl
    rcases hl with rfl | hl | rfl | hl
    · exact hheader
    · exact unbroken_of_spelled hls l hl
    · exact hheader'
    · exact hls'.unbroken hp l hl
  have hread := lines_intercalate he hunbroken
  by_cases hlast : (first :: ls ++ second :: ls').getLast? = some []
  · have hne : second ≠ [] := hsecond.ne_nil (by decide)
    obtain rfl | ⟨ls'', l, rfl⟩ := List.eq_nil_or_concat' ls'
    · rw [List.getLast?_concat] at hlast
      exact absurd (Option.some.inj hlast) hne
    · have hwhole : first :: ls ++ second :: (ls'' ++ [l]) =
          (first :: (ls ++ second :: ls'')) ++ [l] := by simp
      rw [hwhole, List.getLast?_concat] at hlast
      obtain rfl := Option.some.inj hlast
      rw [hwhole, List.getLast?_concat, if_pos rfl, List.dropLast_concat] at hread
      rw [hwhole]
      exact ⟨first, second, ls, ls'', hread, hfirst, hls, hsecond, hls'.of_concat_nil⟩
  · rw [if_neg hlast] at hread
    exact ⟨first, second, ls, ls', hread, hfirst, hls, hsecond, hls'⟩

/-- A text in the format is read, without a warning, as the names that it declares and, one after
the other, the factors that it describes. -/
theorem Renders.read (hds : (ds.map (·.name)).Nodup)
    (hfs : ∀ d ∈ fs, ∃ listed, Lists (declared ds) d listed) {text : List Char}
    (h : Renders defaultArity ds fs text) : ∃ (es : List (Factor × Option Double)) (m : Model),
      List.Forall₂ (fun d e => ∃ listed, Lists (declared ds) d listed ∧ Conveys d listed e.1 ∧
        e.2 = d.weight) fs es ∧
      addAll { names := ds.map (·.name) } es = .ok m ∧ parse text defaultArity = .ok (m, []) := by
  have hk := numbered_declared hds
  have hp : ∀ d ∈ fs, ∀ name ∈ d.names, Proper name := by
    intro d hd
    obtain ⟨listed, hlists⟩ := hfs d hd
    exact hlists.proper hds
  obtain ⟨first, second, ls, ls', hlines, hfirst, hls, hsecond, hls'⟩ := h.lines hp
  have hfirst := solid_variables.trim_padded (by decide) hfirst
  have hsecond := solid_factors.trim_padded (by decide) hsecond
  have hnone : (([] ++ ds).map Declaration.name).Nodup := hds
  obtain ⟨n', hdeclared⟩ : ∃ n', readDeclarations defaultArity 2 [] (ls ++ second :: ls') =
      .ok (declared ds, n', ls') :=
    readDeclarations_spelled hsecond hls hnone 2 ls'
  obtain ⟨es, hes, hvars, hread⟩ := hls'.read hk fun d hd => ⟨hp d hd, hfs d hd⟩
  obtain ⟨m, hm⟩ := exists_addAll hk hvars (within_start _ (ds.map (·.name)))
  refine ⟨es, m, hes, hm, ?_⟩
  rw [parse_eq, hlines]
  simp only [hfirst, ne_eq, not_true_eq_false, if_false, hdeclared, bind, Except.bind,
    names_declared]
  rw [hread, hm]
  rfl

theorem Renders.repeated {front back : List Declaration} {d : Declaration}
    (hfront : (front.map (·.name)).Nodup) (hd : d.name ∈ front.map (·.name))
    (hp : ∀ d ∈ fs, ∀ name ∈ d.names, Proper name) {text : List Char}
    (h : Renders defaultArity (front ++ d :: back) fs text) :
    parse text defaultArity = .error (.line (front.length + 2) (.declaredTwice d.name)) := by
  obtain ⟨first, second, ls, ls', hlines, hfirst, hls, -, -⟩ := h.lines hp
  have hfirst := solid_variables.trim_padded (by decide) hfirst
  have hbefore := List.forall₂_take front.length hls
  have hafter := List.forall₂_drop front.length hls
  rw [List.take_left] at hbefore
  rw [List.drop_left, List.forall₂_cons_left_iff] at hafter
  obtain ⟨l, after, ⟨core, hcore, hl⟩, -, hafter⟩ := hafter
  have hnone : (([] ++ front).map Declaration.name).Nodup := hfront
  have hdeclared : readDeclarations defaultArity 2 []
      (ls.take front.length ++ l :: (after ++ second :: ls')) =
        .error (.line (2 + front.length) (.declaredTwice d.name)) :=
    (readDeclarations_front hbefore hnone 2 _).trans
      (readDeclarations_repeated hcore hl hfront hd _ _)
  have hsplit : ls ++ second :: ls' = ls.take front.length ++ l :: (after ++ second :: ls') := by
    rw [← List.cons_append, ← hafter, ← List.append_assoc, List.take_append_drop]
  rw [parse_eq, hlines, hsplit]
  simp only [hfirst, ne_eq, not_true_eq_false, if_false, hdeclared, bind, Except.bind, Nat.add_comm]

/-- Every text in the format is accepted, and without a warning. The names are those declared, in
their order; each description has become a factor over the variables that it lists, with its cells
where the values of these variables place them, and with its weight, if any. -/
theorem parse_renders (hds : (ds.map (·.name)).Nodup)
    (hfs : ∀ d ∈ fs, ∃ listed, Lists (declared ds) d listed) {text : List Char}
    (h : Renders defaultArity ds fs text) :
    ∃ m, parse text defaultArity = .ok (m, []) ∧ m.names = ds.map (·.name) ∧
      List.Forall₂ (fun d f => ∃ listed, Lists (declared ds) d listed ∧ Conveys d listed f) fs
        m.factors.toList ∧
      m.weights.toList = fs.map (·.weight) ∧ m.Registered := by
  obtain ⟨es, m, hes, hm, hparse⟩ := h.read hds hfs
  obtain ⟨hbuilt, hnames, hfactors⟩ := built_addAll (Built.empty.name _) hm
  have hweights : m.weights.toList = es.map (·.2) := by
    rw [← offers_of_addAll hm, weights_offers]
    rfl
  refine ⟨m, hparse, hnames, ?_, ?_, hbuilt.registered⟩
  · rw [hfactors]
    refine List.forall₂_map_right_iff.2 (hes.imp ?_)
    rintro d e ⟨listed, hlists, hconveys, -⟩
    exact ⟨listed, hlists, hconveys⟩
  · rw [hweights, ← List.forall₂_eq_eq_eq, List.forall₂_map_left_iff, List.forall₂_map_right_iff]
    refine hes.flip.imp ?_
    rintro e d ⟨-, -, -, hweight⟩
    exact hweight

/-- Tabs and spaces wherever they may stand, a blank line, and returns at the ends of lines. -/
def spacedText : List Char :=
  "variables:\r\n\tA \r\nB C \t 3\r\n factors:\r\n\t\r\nB C /\tA// 0 1\t2 3 4 5 ///0.5 \r\nA//1 2".toList

def letterA : Declaration := ⟨"A", 2, by decide, Nat.zero_lt_two⟩

def lettersBC : Declaration := ⟨"B C", 3, by decide, Nat.succ_pos 2⟩

def wholeCells (ns : List Nat) : List Double := ns.map fun n => .ofRatio n 1

def tableBCA : Description := ⟨["B C", "A"], wholeCells [0, 1, 2, 3, 4, 5], some (.ofRatio 1 2)⟩

def tableA : Description := ⟨["A"], wholeCells [1, 2], none⟩

theorem numeral_digitChar : ∀ n < 6, Numeral [Nat.digitChar n] (.ofRatio n 1) := by
  decide +kernel

theorem renders_spaced : Renders 2 [letterA, lettersBC] [tableBCA, tableA] spacedText := by
  have hnil : Margin [] := margin_nil
  have hblank : Margin [' '] := by decide
  have htab : Margin ['\t'] := by decide
  have h : ∀ n < 6, Numeral [Nat.digitChar n] (.ofRatio n 1) := numeral_digitChar
  have hhalf : Numeral "0.5".toList (.ofRatio 1 2) := by decide +kernel
  have hthree : Literal.Digits ['3'] 3 := ⟨by decide, [3], by decide, by decide, by decide⟩
  have hA := @SpellsNames.last "A" [] hnil
  have hBCA := @SpellsNames.more "B C" ["A"] [' '] ['\t'] _ hblank htab hA
  have hsix : SpellsCells (wholeCells [0, 1, 2, 3, 4, 5]) _ :=
    .more (h 0 (by decide)) hblank (by decide) <| .more (h 1 (by decide)) htab (by decide) <|
    .more (h 2 (by decide)) hblank (by decide) <| .more (h 3 (by decide)) hblank (by decide) <|
    .more (h 4 (by decide)) hblank (by decide) <| .last (h 5 (by decide))
  have htwo : SpellsCells (wholeCells [1, 2]) _ :=
    .more (h 1 (by decide)) hblank (by decide) (.last (h 2 (by decide)))
  have hfactors := FactorLines.blank htab <|
    .line (.weighed hBCA hblank hsix hblank hnil hhalf) (.intro hnil hblank) <|
    .line (.bare hA hnil htwo) (.intro hnil hnil) .done
  have hletterA : letterA.Spelled 2 _ := .plain rfl (by decide)
  have hlettersBC : lettersBC.Spelled 2 _ := .sized hblank hblank hthree
  have hall := Renders.intro (.inl rfl) (.intro hnil hnil)
    (.cons ⟨_, hletterA, .intro htab hblank⟩ (.cons ⟨_, hlettersBC, .intro hnil hnil⟩ .nil))
    (.intro hblank hnil) hfactors
  refine Eq.mp (congrArg (Renders 2 [letterA, lettersBC] [tableBCA, tableA]) ?_) hall
  decide +kernel

theorem parse_renders_spaced :
    ∃ m, parse spacedText 2 = .ok (m, []) ∧ m.names = ["A", "B C"] ∧
      List.Forall₂ (fun d f => ∃ listed, Lists (declared [letterA, lettersBC]) d listed ∧
        Conveys d listed f) [tableBCA, tableA] m.factors.toList ∧
      m.weights.toList = [some (.ofRatio 1 2), none] ∧ m.Registered := by
  refine parse_renders (by decide) ?_ renders_spaced
  have hA : ("A", ⟨0, 2, letterA.arity_pos⟩) ∈ declared [letterA, lettersBC] := by decide
  have hBC : ("B C", ⟨1, 3, lettersBC.arity_pos⟩) ∈ declared [letterA, lettersBC] := by decide
  intro d hd
  rcases List.mem_pair.1 hd with rfl | rfl
  · exact ⟨_, .cons hBC (.cons hA .nil), by decide, by decide⟩
  · exact ⟨_, .cons hA .nil, by decide, by decide⟩

end FactorForest.Format
