import FactorForest.Proofs.Graph.Clique
import FactorForest.Proofs.Model.Text

set_option autoImplicit false

namespace FactorForest

namespace Model

variable {defaultArity : Int} {text : List Char} {declared : Declared}

/-- The declared variables that some factor line names. -/
def usedOf (text : List Char) (declared : Declared) : Declared :=
  declared.filter fun e => Uses text e.1

theorem mem_usedOf {e : String × Variable} :
    e ∈ usedOf text declared ↔ e ∈ declared ∧ Uses text e.1 := by
  simp [usedOf]

theorem usedOf_eq_self (h : ∀ name ∈ declared.map (·.1), Uses text name) :
    usedOf text declared = declared :=
  List.filter_eq_self.2 fun _ he => decide_eq_true (h _ (List.mem_map_of_mem he))

theorem Numbered.ids_ascending (hk : Numbered declared) :
    declared.Pairwise fun x y => x.2.id < y.2.id := by
  have h : (declared.map (·.2.id)).Pairwise (· < ·) := hk.ids ▸ List.pairwise_lt_range
  exact List.pairwise_map.1 h

theorem id_of_place {known : Declared} (h : known.map (·.2.id) = List.range known.length) {i : Nat}
    (hi : i < known.length) : known[i].2.id = i := by
  have hget := List.getElem_of_eq h (i := i) (by simpa using hi)
  simpa using hget

theorem Numbered.getElem?_id (hk : Numbered declared) {e : String × Variable} (he : e ∈ declared) :
    declared[e.2.id]? = some e := by
  obtain ⟨i, hi, rfl⟩ := List.mem_iff_getElem.1 he
  rw [id_of_place hk.ids hi, List.getElem?_eq_getElem hi]

theorem Numbered.prefix_iff (hk : Numbered declared) {used : Declared} (hs : used.Sublist declared) :
    used <+: declared ↔ used.map (·.2.id) = List.range used.length := by
  rw [List.prefix_iff_eq_take]
  constructor
  · intro h
    have hids : used.map (·.2.id) = (List.range declared.length).take used.length := by
      rw [← hk.ids, ← List.map_take, ← h]
    rw [hids, List.take_range, Nat.min_eq_left hs.length_le]
  · intro h
    apply List.ext_getElem?
    intro i
    by_cases hi : i < used.length
    · -- both lists have at place `i` the one declaration of id `i`
      have hd := hk.getElem?_id (hs.subset (List.getElem_mem hi))
      rw [id_of_place h hi] at hd
      rw [List.getElem?_take_of_lt hi, hd, List.getElem?_eq_getElem hi]
    · rw [List.getElem?_eq_none (by omega), List.getElem?_eq_none (by simp; omega)]

theorem exists_mem_iff_of_forall₂ {α β : Type} {r : α → β → Prop} {p : α → Prop} {q : β → Prop}
    {as : List α} {bs : List β} (h : List.Forall₂ r as bs) (hpq : ∀ a b, r a b → (p a ↔ q b)) :
    (∃ a ∈ as, p a) ↔ ∃ b ∈ bs, q b := by
  induction h with
  | nil => simp
  | cons hr _ ih => simp [ih, hpq _ _ hr]

theorem values_declared {m : Model} (hm : m.Registered) (hd : Declares defaultArity text declared)
    (hf : List.Forall₂ (fun l f => ∃ w, Describes declared l (f, w)) (factorLines text)
      m.factors.toList) : m.vars.values = (usedOf text declared).map (·.2) := by
  refine hm.values_eq (List.pairwise_map.2 (hd.numbered.ids_ascending.filter _)) fun v => ?_
  have hlines : (∃ f ∈ m.factors.toList, v ∈ f.scope.vars) ↔
      ∃ l ∈ factorLines text, ∃ name ∈ namesOn l, (name, v) ∈ declared := by
    refine (exists_mem_iff_of_forall₂ hf fun l f ⟨w, n, extra, hl⟩ => ?_).symm
    simp only [mem_readFactor hl, hd.numbered.lookup_eq_some_iff]
  simp only [← Array.mem_toList_iff, List.mem_map, mem_usedOf, Prod.exists]
  rw [hlines]
  constructor
  · rintro ⟨name, w, ⟨hv, l, hl, hname⟩, rfl⟩
    exact ⟨l, hl, name, hname, hv⟩
  · rintro ⟨l, hl, name, hname, hv⟩
    exact ⟨name, v, ⟨hv, l, hl, hname⟩, rfl⟩

theorem dense_declared {m : Model} (hm : m.Registered) (hd : Declares defaultArity text declared)
    (hv : m.vars.values = (usedOf text declared).map (·.2)) :
    m.Dense ↔ usedOf text declared <+: declared := by
  have hkeys : m.vars.keys = (usedOf text declared).map (·.2.id) := by
    rw [← hm.ids_values, hv, List.map_map]
    rfl
  have hsize : m.vars.size = (usedOf text declared).length := by
    rw [← IdMap.length_keys, hkeys, List.length_map]
  have hsub : (usedOf text declared).Sublist declared := List.filter_sublist
  rw [hd.numbered.prefix_iff hsub, dense_iff, ← List.range_eq_range', hkeys, hsize]

end Model

namespace Graph

open Model

/-- The clique graph of a text exists if and only if no unused variable is declared before a used
one, and its vertices are the used ones. If all are used, they are all that are declared. -/
theorem ofModel_declared {text : List Char} {defaultArity : Int} {m : Model} {ws : List Warning}
    (h : parse text defaultArity = .ok (m, ws)) (init : Double) {draws : Draws}
    (hdraws : ∀ v ∈ m.vars.values, 0 ≤ draws v.id v.arity ∧ draws v.id v.arity < v.arity) :
    ∃ declared, Declares defaultArity text declared ∧ m.names = declared.map (·.1) ∧
      ((∃ g, ofModel m init draws = .ok g) ↔ usedOf text declared <+: declared) ∧
      (∀ e, ofModel m init draws = .error e → e.kind = .value) ∧
      (∀ g, ofModel m init draws = .ok g →
        g.vertices.toList.map (·.self) = (usedOf text declared).map (·.2)) ∧
      ((∀ name ∈ m.names, Uses text name) → ∃ g, ofModel m init draws = .ok g ∧
        g.vertices.toList.map (·.self) = declared.map (·.2)) := by
  obtain ⟨declared, hd, hm, hnames, hfactors⟩ := parse_ok h
  have hr := hm.registered
  have hvalues := values_declared hr hd hfactors
  have hdense := dense_declared hr hd hvalues
  refine ⟨declared, hd, hnames, ?_⟩
  by_cases hp : usedOf text declared <+: declared
  · obtain ⟨g, hg, hc⟩ := cooccurrence_of_dense hr (hdense.2 hp) init hdraws
    have hself := (hc.selfs hr (hdense.2 hp)).trans hvalues
    refine ⟨⟨fun _ => hp, fun _ => ⟨g, hg⟩⟩, ?_, ?_, fun hall => ⟨g, hg, ?_⟩⟩
    · intro e he
      exact nomatch hg.symm.trans he
    · intro g' hg'
      cases hg.symm.trans hg'
      exact hself
    · rw [hself, usedOf_eq_self (hnames ▸ hall)]
  · obtain ⟨e, he, hkind⟩ := ofModel_of_not_dense (mt hdense.1 hp) init draws
    refine ⟨⟨fun ⟨g, hg⟩ => (nomatch he.symm.trans hg), fun h => absurd h hp⟩, ?_, ?_, ?_⟩
    · intro e' he'
      cases he.symm.trans he'
      exact hkind
    · intro g hg
      exact nomatch he.symm.trans hg
    · intro hall
      rw [usedOf_eq_self (hnames ▸ hall)] at hp
      exact absurd (List.prefix_refl _) hp

def usedText : List Char := "variables:\nA\nB\t3\nfactors:\nB/A// 0 0 0 0 0 0\n".toList

theorem ofModel_declared_pair : ∃ m ws declared g, parse usedText 2 = .ok (m, ws) ∧
    Declares 2 usedText declared ∧ declared.map (·.1) = ["A", "B"] ∧
      ofModel m .zero (Draws.ofList [1, 2]) = .ok g ∧
        g.vertices.toList.map (·.self) = declared.map (·.2) := by
  have hrun : (parse usedText 2).toOption.any fun r => decide (r.1.names = ["A", "B"]) &&
      decide (∀ name ∈ r.1.names, Uses usedText name) &&
        decide (∀ v ∈ r.1.vars.values, 0 ≤ Draws.ofList [1, 2] v.id v.arity ∧
          Draws.ofList [1, 2] v.id v.arity < v.arity) := by decide +kernel
  obtain ⟨⟨m, ws⟩, hm, hrun⟩ := exists_ok_of_any hrun
  simp only [Bool.and_eq_true, decide_eq_true_eq] at hrun
  obtain ⟨⟨hnames, hused⟩, hdraws⟩ := hrun
  obtain ⟨declared, hd, hdeclared, -, -, -, hall⟩ := ofModel_declared hm .zero hdraws
  obtain ⟨g, hg, hself⟩ := hall hused
  exact ⟨m, ws, declared, g, hm, hd, hdeclared.symm.trans hnames, hg, hself⟩

def unusedText : List Char := "variables:\nA\nB\nfactors:\nA// 0 0\n".toList

/-- A variable that is declared last is not missed: not every graph that is made has a vertex for
each declared variable. -/
theorem ofModel_unusedText :
    ¬ ∀ (text : List Char) (defaultArity : Int) (m : Model) (ws : List Warning) (init : Double)
      (draws : Draws), parse text defaultArity = .ok (m, ws) → 1 ≤ defaultArity →
      (∀ v ∈ m.vars.values, 0 ≤ draws v.id v.arity ∧ draws v.id v.arity < v.arity) →
      ((∃ g, ofModel m init draws = .ok g) ↔ ∀ name ∈ m.names, Uses text name) := by
  intro h
  have hrun : (parse unusedText 2).toOption.any fun r =>
      (ofModel r.1 .zero (Draws.ofList [1])).toOption.any (fun _ => true) &&
        decide (∀ v ∈ r.1.vars.values, 0 ≤ Draws.ofList [1] v.id v.arity ∧
          Draws.ofList [1] v.id v.arity < v.arity) &&
        !decide (∀ name ∈ r.1.names, Uses unusedText name) := by decide +kernel
  obtain ⟨⟨m, ws⟩, hm, hrun⟩ := exists_ok_of_any hrun
  simp only [Bool.and_eq_true, decide_eq_true_eq, Bool.not_eq_true', decide_eq_false_iff_not] at hrun
  obtain ⟨⟨hg, hdraws⟩, hunused⟩ := hrun
  obtain ⟨g, hg, -⟩ := exists_ok_of_any hg
  exact hunused ((h _ 2 m ws .zero _ hm (by decide) hdraws).1 ⟨g, hg⟩)

end Graph
end FactorForest
