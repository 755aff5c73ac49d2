import FactorForest.Proofs.Model.Refusals

set_option autoImplicit false

namespace FactorForest.Model

/-- Factors that give each id one arity. -/
def Concordant (fs : List Factor) : Prop :=
  ∀ f ∈ fs, ∀ g ∈ fs, ∀ v ∈ f.scope.vars, ∀ u ∈ g.scope.vars, v.id = u.id → v.arity = u.arity

/-- The ids of the factors over a variable, from the lowest on. -/
structure Indexes (fs : List Factor) (id : Int) (ids : List Int) : Prop where
  ascending : ids.Pairwise (· < ·)
  mem : ∀ i, i ∈ ids ↔ ∃ k : Nat, i = k ∧ ∃ f, fs[k]? = some f ∧ f.scope.contains id

/-- Stored parts that agree: of variables with one id and of entries with one id the last one
counts. -/
structure Consistent (vars : List Variable) (fs : List Factor) (index : List (Int × List Int)) :
    Prop where
  arities : Concordant fs
  vars : ∀ (id : Nat) v, (vars.reverse.find? fun u => u.id == id) = some v ↔
    v.id = id ∧ ∃ f ∈ fs, v ∈ f.scope.vars
  entries : ∀ (id : Int) ids, index.reverse.lookup id = some ids ↔
    (∃ f ∈ fs, f.scope.contains id) ∧ Indexes fs id ids

/-- The factors with the weights at their places, or without weights. -/
def weighted (fs : List Factor) : Option (List (Option Double)) → List (Factor × Option Double)
  | none => fs.map fun f => (f, none)
  | some ws => fs.zip ws

/-- The index as it is stored. -/
def storedIndex (m : Model) : List (Int × List Int) :=
  m.index.entries.map fun e => ((e.1 : Int), e.2.map Int.ofNat)

variable {m : Model} {vars : List Variable} {fs : List Factor} {index : List (Int × List Int)}
  {names : List String} {weights : Option (List (Option Double))}

theorem weighted_factors (h : ∀ ws, weights = some ws → fs.length ≤ ws.length) :
    (weighted fs weights).map (·.1) = fs := by
  cases weights with
  | none => simp [weighted, Function.comp_def]
  | some ws => exact List.map_fst_zip (h ws rfl)

theorem rebuild_none (fs : List Factor) (m : Model) :
    m.rebuild fs none = m.addAll (fs.map fun f => (f, none)) := by
  induction fs generalizing m with
  | nil => rfl
  | cons f fs ih =>
    rw [List.map_cons, rebuild, addAll]
    rcases m.addFactor f none with ⟨m', e | n⟩
    · rfl
    · exact ih m'

theorem rebuild_some {ws : List (Option Double)} (h : fs.length ≤ ws.length) (m : Model) :
    m.rebuild fs (some ws) = m.addAll (fs.zip ws) := by
  induction fs generalizing m ws with
  | nil => rw [List.zip_nil_left, rebuild, addAll]
  | cons f fs ih =>
    cases ws with
    | nil => exact absurd h (by simp)
    | cons w ws =>
      rw [List.zip_cons_cons, rebuild, addAll]
      rcases m.addFactor f w with ⟨m', e | n⟩
      · rfl
      · exact ih (Nat.le_of_succ_le_succ h) m'

theorem rebuild_weighted (h : ∀ ws, weights = some ws → fs.length ≤ ws.length) (m : Model) :
    m.rebuild fs weights = m.addAll (weighted fs weights) := by
  cases weights with
  | none => exact rebuild_none fs m
  | some ws => exact rebuild_some (h ws rfl) m

theorem Registered.concordant (hm : m.Registered) : Concordant m.factors.toList := by
  intro f hf g hg v hv u hu hid
  have hfound := hm.find?_vars (Array.mem_toList_iff.1 hf) hv
  rw [hid, hm.find?_vars (Array.mem_toList_iff.1 hg) hu] at hfound
  rw [Option.some.inj hfound]

theorem exists_addAll_of_concordant (hm : m.Built) {as : List (Factor × Option Double)}
    (h : Concordant (m.factors.toList ++ as.map (·.1))) : ∃ m', m.addAll as = .ok m' := by
  induction as generalizing m with
  | nil => exact ⟨m, rfl⟩
  | cons a as ih =>
    obtain ⟨f, w⟩ := a
    have haccepts : ∀ v ∈ f.scope.vars, m.Accepts v := by
      intro v hv known hknown
      obtain ⟨hid, g, hg, hmem⟩ := (hm.registered.vars v.id known).1 hknown
      refine h g ?_ f ?_ known hmem v hv hid
      · exact List.mem_append_left _ (Array.mem_toList_iff.2 hg)
      · exact List.mem_append_right _ List.mem_cons_self
    have hadd := addFactor_eq_ok_iff (w := w) |>.2 ⟨haccepts, rfl, rfl⟩
    rw [addAll, hadd]
    apply ih (hm.extend haccepts)
    rw [extend_factors, Array.toList_push, List.append_assoc]
    exact h

theorem kind_of_addAll {as : List (Factor × Option Double)} {e : Fault}
    (h : m.addAll as = .error e) : e.kind = .value := by
  induction as generalizing m with
  | nil => exact nomatch h
  | cons a as ih =>
    rw [addAll] at h
    split at h
    · exact ih h
    · rename_i e' hadd
      cases h
      obtain ⟨-, v, known, -, rfl, -⟩ := addFactor_eq_error hadd
      exact Fault.kind_told_of_value rfl

theorem lookup_vars (vs : List Variable) (id : Nat) :
    (vs.map fun v => (v.id, v)).lookup id = vs.find? fun v => v.id == id := by
  induction vs with
  | nil => rfl
  | cons v vs ih =>
    rw [List.map_cons, lookup_cons_ite, ih]
    by_cases hid : id = v.id
    · simp [hid]
    · have hne : (v.id == id) = false := beq_eq_false_iff_ne.2 (Ne.symm hid)
      simp [hid, hne]

theorem vars_eq_iff (hm : m.Registered) :
    IdMap.ofList (vars.map fun v => (v.id, v)) = m.vars ↔
      ∀ (id : Nat) v, (vars.reverse.find? fun u => u.id == id) = some v ↔
        v.id = id ∧ ∃ f ∈ m.factors.toList, v ∈ f.scope.vars := by
  have hfind : ∀ id, (IdMap.ofList (vars.map fun v => (v.id, v))).find? id =
      vars.reverse.find? fun v => v.id == id := by
    intro id
    rw [IdMap.find?_ofList, ← List.map_reverse, lookup_vars]
  simp only [← hfind, Array.mem_toList_iff, ← hm.vars]
  constructor
  · intro h id v
    rw [h]
  · exact fun h => IdMap.ext_find? fun id => Option.ext (h id)

theorem lookup_toNat {es : List (Int × List Int)} (h : ∀ e ∈ es, 0 ≤ e.1) (id : Nat) :
    (es.map fun e => (e.1.toNat, e.2)).lookup id = es.lookup (id : Int) := by
  induction es with
  | nil => rfl
  | cons e es ih =>
    obtain ⟨he, hes⟩ := List.forall_mem_cons.1 h
    rw [List.map_cons, List.lookup_cons, List.lookup_cons, ih hes]
    have hsame : (id == e.1.toNat) = ((id : Int) == e.1) := by
      rw [Bool.eq_iff_iff, beq_iff_eq, beq_iff_eq]
      omega
    rw [hsame]

theorem lookup_of_neg {es : List (Int × List Int)} (h : ∀ e ∈ es, 0 ≤ e.1) {id : Int}
    (hid : ¬ 0 ≤ id) : es.lookup id = none := by
  rw [List.lookup_eq_none_iff]
  intro e he
  exact bne_iff_ne.2 fun heq => hid (heq ▸ h e he)

theorem indexMatches_iff : m.indexMatches index ↔
    (∀ e ∈ index, 0 ≤ e.1) ∧
      ∀ k : Nat, index.reverse.lookup (k : Int) = (m.index.find? k).map (·.map Int.ofNat) := by
  rw [indexMatches, Bool.and_eq_true, List.all_eq_true, beq_iff_eq]
  simp only [decide_eq_true_eq]
  refine and_congr_right fun hpos => ?_
  have hreverse : ∀ e ∈ index.reverse, 0 ≤ e.1 := fun e he => hpos e (List.mem_reverse.1 he)
  have hfind : ∀ k : Nat, (IdMap.ofList (index.map fun e => (e.1.toNat, e.2))).find? k =
      index.reverse.lookup (k : Int) := by
    intro k
    rw [IdMap.find?_ofList, ← List.map_reverse, lookup_toNat hreverse]
  simp only [← hfind, ← IdMap.find?_mapValues]
  exact ⟨fun h k => by rw [h], IdMap.ext_find?⟩

theorem nonneg_of_contains {s : Scope} {id : Int} (h : s.contains id) : 0 ≤ id := by
  obtain ⟨v, hv⟩ := Option.isSome_iff_exists.1 h
  have hid := List.find?_some hv
  rw [beq_iff_eq] at hid
  omega

theorem pairwise_touching (m : Model) (id : Nat) : (m.touching id).Pairwise (· < ·) :=
  List.Pairwise.sublist List.filter_sublist List.pairwise_lt_range

theorem indexes_iff (id : Nat) {ids : List Int} :
    Indexes m.factors.toList id ids ↔ ids = (m.touching id).map Int.ofNat := by
  have hown : Indexes m.factors.toList id ((m.touching id).map Int.ofNat) := by
    constructor
    · exact List.pairwise_map.2 ((pairwise_touching m id).imp Int.ofNat_lt.2)
    · intro i
      simp only [List.mem_map, mem_touching, Array.getElem?_toList]
      exact ⟨fun ⟨k, hk, hi⟩ => ⟨k, hi.symm, hk⟩, fun ⟨k, hi, hk⟩ => ⟨k, hk, hi.symm⟩⟩
  constructor
  · intro h
    refine List.Pairwise.eq_of_mem_iff (r := (· < ·)) h.ascending hown.ascending fun i => ?_
    rw [h.mem, hown.mem]
  · rintro rfl
    exact hown

theorem indexMatches_iff_entries (hm : m.Registered) : m.indexMatches index ↔
    ∀ (id : Int) ids, index.reverse.lookup id = some ids ↔
      (∃ f ∈ m.factors.toList, f.scope.contains id) ∧ Indexes m.factors.toList id ids := by
  have hentry : ∀ (k : Nat) ids, (m.index.find? k).map (·.map Int.ofNat) = some ids ↔
      (∃ f ∈ m.factors.toList, f.scope.contains k) ∧ Indexes m.factors.toList k ids := by
    intro k ids
    simp only [Array.mem_toList_iff, ← touching_ne_nil_iff, indexes_iff, hm.index]
    by_cases ht : m.touching k = []
    · simp [ht]
    · simp [ht, eq_comm]
  rw [indexMatches_iff]
  constructor
  · rintro ⟨hpos, h⟩ id ids
    by_cases hid : 0 ≤ id
    · obtain ⟨k, rfl⟩ := Int.eq_ofNat_of_zero_le hid
      rw [h, hentry]
    · rw [lookup_of_neg (fun e he => hpos e (List.mem_reverse.1 he)) hid]
      constructor
      · exact fun h => nomatch h
      · rintro ⟨⟨f, -, hf⟩, -⟩
        exact absurd (nonneg_of_contains hf) hid
  · intro h
    refine ⟨fun e he => ?_, fun k => Option.ext fun ids => (h k ids).trans (hentry k ids).symm⟩
    cases hl : index.reverse.lookup e.1 with
    | none =>
      have hne := List.lookup_eq_none_iff.1 hl e (List.mem_reverse.2 he)
      exact absurd rfl (bne_iff_ne.1 hne)
    | some ids =>
      obtain ⟨⟨f, -, hf⟩, -⟩ := (h e.1 ids).1 hl
      exact nonneg_of_contains hf

theorem consistent_iff (h : ({} : Model).rebuild fs weights = .ok m) :
    Consistent vars fs index ↔
      IdMap.ofList (vars.map fun v => (v.id, v)) = m.vars ∧ m.indexMatches index := by
  have hm : m.Registered := (Built.empty.rebuild h).registered
  obtain rfl : m.factors.toList = fs := factors_rebuild h
  rw [vars_eq_iff hm, indexMatches_iff_entries hm]
  exact ⟨fun hc => ⟨hc.vars, hc.entries⟩, fun ⟨hvars, hentries⟩ => ⟨hm.concordant, hvars, hentries⟩⟩

theorem ofParts_of_consistent (h : ({} : Model).rebuild fs weights = .ok m)
    (hc : Consistent vars fs index) :
    ofParts vars fs index names weights = .ok { m with names } := by
  obtain ⟨hvars, hindex⟩ := (consistent_iff h).1 hc
  simp only [ofParts, h, bind, Except.bind]
  simp [hvars, hindex, pure, Except.pure]

theorem ofParts_of_not_consistent (h : ∀ ws, weights = some ws → fs.length ≤ ws.length)
    (hc : ¬ Consistent vars fs index) :
    ∃ e, ofParts vars fs index names weights = .error e ∧ e.kind = .value := by
  cases hm : ({} : Model).rebuild fs weights with
  | error e =>
    refine ⟨e, by rw [ofParts, hm]; rfl, ?_⟩
    rw [rebuild_weighted h] at hm
    exact kind_of_addAll hm
  | ok m =>
    rw [consistent_iff hm, not_and_or] at hc
    simp only [ofParts, hm, bind, Except.bind]
    by_cases hvars : IdMap.ofList (vars.map fun v => (v.id, v)) = m.vars
    · have hindex := hc.resolve_left (not_not.2 hvars)
      exact ⟨.indexDisagrees, by simp [hvars, hindex, throw, throwThe, MonadExceptOf.throw], rfl⟩
    · exact ⟨.variablesDisagree, by simp [hvars, throw, throwThe, MonadExceptOf.throw], rfl⟩

theorem exists_rebuild (h : ∀ ws, weights = some ws → fs.length ≤ ws.length)
    (hc : Concordant fs) : ∃ m, ({} : Model).rebuild fs weights = .ok m := by
  rw [rebuild_weighted h]
  refine exists_addAll_of_concordant .empty ?_
  rw [weighted_factors h]
  exact hc

theorem consistent_own (hm : m.Built) :
    Consistent m.vars.values m.factors.toList m.storedIndex :=
  (consistent_iff (rebuild_own_factors hm)).2
    ⟨hm.registered.ofList_values, indexMatches_own { m with names := [] }⟩

/-- The own index is the only one that agrees with the other parts, as far as lookups tell. -/
theorem Consistent.lookup_own (hm : m.Built)
    (hc : Consistent m.vars.values m.factors.toList index) (id : Int) :
    index.reverse.lookup id = m.storedIndex.reverse.lookup id := by
  apply Option.ext
  intro ids
  rw [hc.entries, (consistent_own hm).entries]

/-- Stored parts, with a weight for each factor if they have weights at all, make a model exactly if
they agree. It is the model of the factors added in order with these weights, under the stored
names, and parts that do not agree are refused. So a model is made again from its own parts, and
not with an index that differs in some entry from its own. -/
theorem ofParts_consistent (vars : List Variable) (fs : List Factor) (index : List (Int × List Int))
    (names : List String) (weights : Option (List (Option Double)))
    (h : ∀ ws, weights = some ws → fs.length ≤ ws.length) :
    ((∃ m, ofParts vars fs index names weights = .ok m) ↔ Consistent vars fs index) ∧
    (∀ m, ofParts vars fs index names weights = .ok m →
      ∃ m', ({} : Model).addAll (weighted fs weights) = .ok m' ∧ m = { m' with names }) ∧
    (¬ Consistent vars fs index →
      ∃ e, ofParts vars fs index names weights = .error e ∧ e.kind = .value) ∧
    ∀ m : Model, m.Built →
      ofParts m.vars.values m.factors.toList m.storedIndex m.names (some m.weights.toList) = .ok m ∧
      ∀ index', (∃ id : Int, index'.reverse.lookup id ≠ m.storedIndex.reverse.lookup id) →
        ∃ e, ofParts m.vars.values m.factors.toList index' m.names (some m.weights.toList) = .error e ∧
          e.kind = .value := by
  refine ⟨⟨fun ⟨m, hm⟩ => ?_, fun hc => ?_⟩, fun m hm => ?_, ofParts_of_not_consistent h,
    fun m hm => ⟨reassemble_own hm, fun index' hdiffers => ?_⟩⟩
  · by_contra hc
    have hrefused : ∃ e, ofParts vars fs index names weights = .error e ∧ e.kind = .value :=
      ofParts_of_not_consistent h hc
    obtain ⟨e, he, -⟩ := hrefused
    rw [he] at hm
    exact nomatch hm
  · obtain ⟨m, hm⟩ := exists_rebuild h hc.arities
    exact ⟨_, ofParts_of_consistent hm hc⟩
  · obtain ⟨m', hm', hrest⟩ := bind_eq_ok_iff.1 hm
    obtain ⟨-, hrest⟩ := guarded_eq_ok_iff.1 hrest
    obtain ⟨-, hrest⟩ := guarded_eq_ok_iff.1 hrest
    rw [rebuild_weighted h] at hm'
    exact ⟨m', hm', pure_eq_ok_iff.1 hrest⟩
  · have hweights : ∀ ws, some m.weights.toList = some ws →
        m.factors.toList.length ≤ ws.length := by
      intro ws hws
      cases hws
      exact Nat.le_of_eq hm.registered.weights.symm
    refine ofParts_of_not_consistent hweights fun hc => ?_
    obtain ⟨id, hid⟩ := hdiffers
    exact hid (hc.lookup_own hm id)

def variableFactor : Factor := Factor.zero (Scope.single (.upTo 0 1))

/-- The variable 0 is stored twice, first with another arity, and so is the entry of the variable 1;
one weight is left over. An index with the factors in another order does not agree. -/
theorem ofParts_consistent_repeated :
    let vars := [.upTo 0 2, .upTo 1 1, .upTo 0 1]
    let fs := [firstFactor, variableFactor]
    let weights := some [none, some .zero, none]
    (∀ ws, weights = some ws → fs.length ≤ ws.length) ∧
      (∃ m, ofParts vars fs [(1, []), (0, [0, 1]), (1, [0])] ["a"] weights = .ok m) ∧
      Consistent vars fs [(1, []), (0, [0, 1]), (1, [0])] ∧
      ¬ Consistent vars fs [(0, [1, 0]), (1, [0])] := by
  intro vars fs weights
  have hweights : ∀ ws, weights = some ws → fs.length ≤ ws.length := by
    intro ws hws
    rw [← Option.some.inj hws]
    decide
  have hrun : (ofParts vars fs [(1, []), (0, [0, 1]), (1, [0])] ["a"] weights).toOption.any
      fun _ => true := by decide +kernel
  obtain ⟨m, hm, -⟩ := exists_ok_of_any hrun
  have haccepted := (ofParts_consistent vars fs [(1, []), (0, [0, 1]), (1, [0])] ["a"] weights
    hweights).1
  have hrefused := (ofParts_consistent vars fs [(0, [1, 0]), (1, [0])] ["a"] weights hweights).1
  refine ⟨hweights, ⟨m, hm⟩, haccepted.1 ⟨m, hm⟩, fun hc => ?_⟩
  obtain ⟨m', hm'⟩ := hrefused.2 hc
  have hfails : (ofParts vars fs [(0, [1, 0]), (1, [0])] ["a"] weights).toOption = none := by
    decide +kernel
  rw [hm'] at hfails
  exact nomatch hfails

end FactorForest.Model
