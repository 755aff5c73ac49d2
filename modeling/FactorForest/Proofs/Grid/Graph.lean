import FactorForest.Proofs.Graph.Clique
import FactorForest.Proofs.Grid.Text
import Mathlib.Tactic.Ring

/-!
Grids as models and as graphs. As long as the names of its cells differ, the text of a grid is read as
one binary variable for every cell and one table for every two neighbours, and its clique graph joins
neighbours both ways and nothing else. They differ up to eleven rows; every larger grid is refused.
-/

set_option autoImplicit false

namespace FactorForest.Grid

open Format Text Model

def cellVariable (n : Nat) (c : Cell) : Variable := ⟨idOf n c, 2, Nat.two_pos⟩

def pairOf (n : Nat) (p : Cell × Cell) : List Variable := [cellVariable n p.1, cellVariable n p.2]

/-- The tables of a model are over the pairs of neighbours, in their order. -/
def Pairs (n : Nat) (m : Model) : Prop :=
  m.factors.toList.map (·.scope.vars) = (neighbours n).map (pairOf n)

variable {n : Nat} {m : Model} {defaultArity : Int}

theorem mem_declared {c : Cell} (hc : c ∈ cells n) :
    (cellName c.1 c.2, cellVariable n c) ∈ declared (declarations n) := by
  refine List.mem_iff_getElem?.2 ⟨idOf n c, ?_⟩
  rw [declared, List.getElem?_mapIdx, declarations, List.getElem?_map, cells_eq_rows,
    getElem?_rows hc]
  rfl

theorem lists_description (h : n ≤ 11) {p : Cell × Cell} (hp : p ∈ neighbours n) :
    Lists (declared (declarations n)) (description p) (pairOf n p) := by
  obtain ⟨c, d⟩ := p
  obtain ⟨hc, hd, -⟩ := mem_neighbours.1 hp
  refine ⟨.cons (mem_declared hc) (.cons (mem_declared hd) .nil), ?_, rfl⟩
  have hne : cellName c.1 c.2 ≠ cellName d.1 d.2 := by
    intro hname
    obtain rfl := List.inj_on_of_nodup_map (nodup_names h n) hc hd hname
    exact lt_irrefl _ (idOf_lt_of_mem_neighbours hp)
  simpa [description] using hne

theorem vars_of_conveys (h : n ≤ 11) {p : Cell × Cell} (hp : p ∈ neighbours n)
    {listed : List Variable} (hl : Lists (declared (declarations n)) (description p) listed)
    {f : Factor} (hf : Conveys (description p) listed f) : f.scope.vars = pairOf n p := by
  have hk := numbered_declared (nodup_declarations h)
  obtain rfl := hl.unique hk (lists_description h hp)
  have hpair : (pairOf n p).Pairwise fun v w => v.id < w.id :=
    List.pairwise_pair.2 (idOf_lt_of_mem_neighbours hp)
  exact f.scope.ascending.eq_of_mem_iff (r := fun v w : Variable => v.id < w.id) hpair
    fun _ => hf.vars.mem_iff

theorem exists_model (h : n ≤ 11) (defaultArity : Int) :
    ∃ m, parse (text n).toList defaultArity = .ok (m, []) ∧
      m.names = (cells n).map (fun c => cellName c.1 c.2) ∧ Pairs n m ∧ m.Registered := by
  have hnames := nodup_declarations h
  have hlists : ∀ d ∈ descriptions n, ∃ listed, Lists (declared (declarations n)) d listed := by
    intro d hd
    obtain ⟨p, hp, rfl⟩ := List.mem_map.1 hd
    exact ⟨_, lists_description h hp⟩
  obtain ⟨es, m, hes, hm, hparse⟩ := (renders_text n defaultArity).read hnames hlists
  obtain ⟨hbuilt, hdeclared, hfactors⟩ := built_addAll (Built.empty.name _) hm
  refine ⟨m, hparse, hdeclared.trans (names_declarations (cells n)), ?_, hbuilt.registered⟩
  rw [Pairs, hfactors, ← List.forall₂_eq_eq_eq, List.forall₂_map_left_iff,
    List.forall₂_map_right_iff]
  have hpairs := (List.forall₂_and_left (neighbours n) es).2
    ⟨fun _ hp => hp, List.forall₂_map_left_iff.1 hes⟩
  refine List.forall₂_map_left_iff.2 (hpairs.imp ?_).flip
  rintro p e ⟨hp, listed, hl, hf, -⟩
  exact vars_of_conveys h hp hl hf

theorem exists_factor_iff (hp : Pairs n m) {P : List Variable → Prop} :
    (∃ f ∈ m.factors, P f.scope.vars) ↔ ∃ p ∈ neighbours n, P (pairOf n p) := by
  have h : (∃ vs ∈ m.factors.toList.map (·.scope.vars), P vs) ↔
      ∃ vs ∈ (neighbours n).map (pairOf n), P vs := by rw [hp]
  simpa using h

theorem exists_neighbour (hn : 2 ≤ n) {c : Cell} (hc : c ∈ cells n) :
    ∃ p ∈ neighbours n, c = p.1 ∨ c = p.2 := by
  obtain ⟨i, j⟩ := c
  have hij := mem_rows.1 hc
  by_cases hj : j + 1 < n
  · exact ⟨((i, j), (i, j + 1)), mem_neighbours.2 ⟨hc, mem_rows.2 ⟨hij.1, hj⟩, .inl rfl⟩, .inl rfl⟩
  · obtain ⟨k, rfl⟩ : ∃ k, j = k + 1 := ⟨j - 1, by have := hij.2; omega⟩
    refine ⟨((i, k), (i, k + 1)), mem_neighbours.2 ⟨mem_rows.2 ⟨hij.1, ?_⟩, hc, .inl rfl⟩, .inr rfl⟩
    exact Nat.lt_of_succ_lt hij.2

theorem values_grid (hn : 2 ≤ n) (hm : m.Registered) (hp : Pairs n m) :
    m.vars.values = (cells n).map (cellVariable n) := by
  have hcells : ((cells n).map (cellVariable n)).Pairwise fun v w => v.id < w.id := by
    have hids : ((cells n).map (idOf n)).Pairwise (· < ·) := by
      rw [cells_eq_rows, map_idOf_rows]
      exact List.pairwise_lt_range
    exact List.pairwise_map.2 (List.pairwise_map.1 hids)
  refine hm.values_eq hcells fun v => ?_
  rw [exists_factor_iff hp (P := fun vs => v ∈ vs), List.mem_map]
  constructor
  · rintro ⟨c, hc, rfl⟩
    obtain ⟨p, hp, rfl | rfl⟩ := exists_neighbour hn hc
    · exact ⟨p, hp, List.mem_cons_self⟩
    · exact ⟨p, hp, List.mem_cons_of_mem _ List.mem_cons_self⟩
  · rintro ⟨p, hp, hv⟩
    obtain ⟨hc, hd, -⟩ := mem_neighbours.1 hp
    rcases List.mem_pair.1 hv with rfl | rfl
    · exact ⟨p.1, hc, rfl⟩
    · exact ⟨p.2, hd, rfl⟩

theorem keys_grid (hm : m.Registered) (hv : m.vars.values = (cells n).map (cellVariable n)) :
    m.vars.keys = List.range (n * n) := by
  rw [← hm.ids_values, hv, List.map_map, ← map_idOf_rows]
  rfl

theorem size_grid (hm : m.Registered) (hv : m.vars.values = (cells n).map (cellVariable n)) :
    m.vars.size = n * n := by
  rw [← IdMap.length_keys, keys_grid hm hv, List.length_range]

theorem dense_grid (hm : m.Registered) (hv : m.vars.values = (cells n).map (cellVariable n)) :
    m.Dense := by
  rw [dense_iff, keys_grid hm hv, size_grid hm hv, List.range_eq_range']

def Adjacent (n u v : Nat) : Prop :=
  ∃ c ∈ cells n, ∃ d ∈ cells n, u = idOf n c ∧ v = idOf n d ∧ Beside c d

def links (n : Nat) : List (Nat × Nat) := (neighbours n).map fun p => (idOf n p.1, idOf n p.2)

theorem mem_links {u v : Nat} :
    (u, v) ∈ links n ↔ ∃ p ∈ neighbours n, idOf n p.1 = u ∧ idOf n p.2 = v := by
  simp only [links, List.mem_map, Prod.mk.injEq]

theorem adjacent_iff {u v : Nat} : Adjacent n u v ↔ (u, v) ∈ links n ∨ (v, u) ∈ links n := by
  simp only [Adjacent, mem_links]
  constructor
  · rintro ⟨c, hc, d, hd, rfl, rfl, h⟩
    exact ((beside_iff_mem_neighbours hc hd).1 h).imp (fun h => ⟨(c, d), h, rfl, rfl⟩)
      fun h => ⟨(d, c), h, rfl, rfl⟩
  · rintro (⟨⟨c, d⟩, h, rfl, rfl⟩ | ⟨⟨c, d⟩, h, rfl, rfl⟩) <;>
      obtain ⟨hc, hd, -⟩ := mem_neighbours.1 h
    · exact ⟨c, hc, d, hd, rfl, rfl, (beside_iff_mem_neighbours hc hd).2 (.inl h)⟩
    · exact ⟨d, hd, c, hc, rfl, rfl, (beside_iff_mem_neighbours hd hc).2 (.inr h)⟩

theorem lt_of_mem_links {u v : Nat} (h : (u, v) ∈ links n) : u < v := by
  obtain ⟨p, hp, rfl, rfl⟩ := mem_links.1 h
  exact idOf_lt_of_mem_neighbours hp

theorem nodup_links (n : Nat) : (links n).Nodup := by
  refine List.Nodup.map_on ?_ (nodup_neighbours n)
  rintro ⟨c, d⟩ h ⟨c', d'⟩ h' hids
  obtain ⟨hc, hd, -⟩ := mem_neighbours.1 h
  obtain ⟨hc', hd', -⟩ := mem_neighbours.1 h'
  obtain ⟨hcc, hdd⟩ := Prod.mk.inj hids
  rw [idOf_injOn hc hc' hcc, idOf_injOn hd hd' hdd]

theorem nodup_links_both (n : Nat) : (links n ++ (links n).map Prod.swap).Nodup := by
  refine (nodup_links n).append ((nodup_links n).map Prod.swap_injective) ?_
  rintro ⟨u, v⟩ h h'
  obtain ⟨⟨v', u'⟩, hswap, heq⟩ := List.mem_map.1 h'
  obtain ⟨rfl, rfl⟩ := Prod.mk.inj heq
  exact lt_asymm (lt_of_mem_links h) (lt_of_mem_links hswap)

theorem meets_iff (hp : Pairs n m) {u v : Nat} : m.Meets u v ↔ Adjacent n u v := by
  have hscope : ∀ f : Factor, f.scope.contains u ∧ f.scope.contains v ↔
      (∃ a ∈ f.scope.vars, a.id = u) ∧ ∃ b ∈ f.scope.vars, b.id = v := by
    intro f
    rw [Scope.contains_iff, Scope.contains_iff]
  simp only [Meets, hscope]
  rw [exists_factor_iff hp (P := fun vs => (∃ a ∈ vs, a.id = u) ∧ ∃ b ∈ vs, b.id = v), adjacent_iff,
    mem_links, mem_links]
  simp only [pairOf, cellVariable, List.mem_pair, exists_eq_or_imp, exists_eq_left]
  constructor
  · rintro ⟨hne, p, hp, hu, hv⟩
    rcases hu with rfl | rfl <;> rcases hv with rfl | rfl
    · exact absurd rfl hne
    · exact .inl ⟨p, hp, rfl, rfl⟩
    · exact .inr ⟨p, hp, rfl, rfl⟩
    · exact absurd rfl hne
  · rintro (⟨p, hp, rfl, rfl⟩ | ⟨p, hp, rfl, rfl⟩)
    · exact ⟨(idOf_lt_of_mem_neighbours hp).ne, p, hp, .inl rfl, .inr rfl⟩
    · exact ⟨(idOf_lt_of_mem_neighbours hp).ne', p, hp, .inr rfl, .inl rfl⟩

theorem edgeCount_grid {g : Graph} (hg : ∀ u v : Nat, g.hasEdge u v ↔ Adjacent n u v) :
    g.edgeCount = 4 * n * (n - 1) := by
  have hs : ∀ u v : Nat,
      (u, v) ∈ (links n ++ (links n).map Prod.swap).toFinset ↔ g.hasEdge u v := by
    intro u v
    rw [hg, adjacent_iff, List.mem_toFinset, List.mem_append]
    simp
  rw [Graph.edgeCount_eq_card hs, List.toFinset_card_of_nodup (nodup_links_both n)]
  simp only [List.length_map, List.length_append, links, length_neighbours]
  ring

/-- One binary variable for every cell, named for it, and one table for every two neighbours. -/
structure Modelled (n : Nat) (m : Model) : Prop where
  values : m.vars.values = (List.range (n * n)).map fun id => ⟨id, 2, Nat.two_pos⟩
  names : m.names.length = n * n
  named : ∀ i < n, ∀ j < n, m.names[i * n + j]? = some (cellName i j)
  factors : m.factors.size = 2 * n * (n - 1)
  binary : ∀ f ∈ m.factors, f.scope.vars.length = 2

/-- One vertex for every cell, and one edge each way between every two neighbours. -/
structure Drawn (n : Nat) (g : Graph) : Prop where
  vertices : g.vertices.size = n * n
  joined : ∀ u v : Nat, g.hasEdge u v ↔ Adjacent n u v
  edges : g.edgeCount = 4 * n * (n - 1)

theorem modelled (hn : 2 ≤ n) (hm : m.Registered) (hp : Pairs n m)
    (hnames : m.names = (cells n).map fun c => cellName c.1 c.2) : Modelled n m := by
  refine ⟨?_, ?_, fun i hi j hj => ?_, ?_, fun f hf => ?_⟩
  · rw [values_grid hn hm hp, ← map_idOf_rows, List.map_map]
    rfl
  · rw [hnames, List.length_map, cells_eq_rows, length_rows]
  · have hcell : (i, j) ∈ rows n n := mem_rows.2 ⟨hi, hj⟩
    rw [hnames, List.getElem?_map, cells_eq_rows]
    exact congrArg (Option.map _) (getElem?_rows hcell)
  · have hlength := congrArg List.length hp
    rwa [List.length_map, Array.length_toList, List.length_map, length_neighbours] at hlength
  · obtain ⟨p, -, hpair⟩ := (exists_factor_iff hp (P := fun vs => vs = f.scope.vars)).1 ⟨f, hf, rfl⟩
    rw [← hpair]
    rfl

theorem drawn (hn : 2 ≤ n) (hm : m.Registered) (hp : Pairs n m) (init : Double) {draws : Draws}
    (hd : ∀ v ∈ m.vars.values, 0 ≤ draws v.id v.arity ∧ draws v.id v.arity < v.arity) :
    ∃ g, Graph.ofModel m init draws = .ok g ∧ Drawn n g := by
  have hv := values_grid hn hm hp
  obtain ⟨g, hg, hc⟩ := Graph.cooccurrence_of_dense hm (dense_grid hm hv) init hd
  have hjoined : ∀ u v : Nat, g.hasEdge u v ↔ Adjacent n u v :=
    fun u v => (hc.joined u v).trans (meets_iff hp)
  exact ⟨g, hg, hc.size.trans (size_grid hm hv), hjoined, edgeCount_grid hjoined⟩

/-- Up to eleven rows the text of a grid is read as the grid, and its clique graph is drawn as the
grid. From twelve rows on it is refused where cell (11, 0) is declared, since cell (1, 10) has the
same name. -/
theorem text_agrees (hn : 2 ≤ n) (defaultArity : Int) :
    (n ≤ 11 → ∃ m, parse (text n).toList defaultArity = .ok (m, []) ∧ Modelled n m ∧
      ∀ (init : Double) (draws : Draws),
        (∀ v ∈ m.vars.values, 0 ≤ draws v.id v.arity ∧ draws v.id v.arity < v.arity) →
        ∃ g, Graph.ofModel m init draws = .ok g ∧ Drawn n g) ∧
    (12 ≤ n → parse (text n).toList defaultArity =
      .error (.line (11 * n + 2) (.declaredTwice "X110"))) := by
  refine ⟨fun h => ?_, fun h => text_refused h defaultArity⟩
  obtain ⟨m, hparse, hnames, hp, hm⟩ := exists_model h defaultArity
  exact ⟨m, hparse, modelled hn hm hp hnames, fun init draws hd => drawn hn hm hp init hd⟩

/-- The largest grid that is accepted has 220 tables and 440 edges. -/
theorem text_agrees_eleven : ∃ m, parse (text 11).toList 2 = .ok (m, []) ∧ m.factors.size = 220 ∧
    ∃ g, Graph.ofModel m .zero (Draws.ofList []) = .ok g ∧ g.edgeCount = 440 := by
  obtain ⟨m, hparse, hm, hgraph⟩ := (text_agrees (n := 11) (by decide) 2).1 le_rfl
  have hdraws : ∀ v ∈ m.vars.values, 0 ≤ Draws.ofList [] v.id v.arity ∧
      Draws.ofList [] v.id v.arity < v.arity := by
    intro v hv
    rw [hm.values] at hv
    obtain ⟨id, -, rfl⟩ := List.mem_map.1 hv
    exact ⟨le_rfl, Int.natCast_pos.2 Nat.two_pos⟩
  obtain ⟨g, hg, hd⟩ := hgraph .zero (Draws.ofList []) hdraws
  exact ⟨m, hparse, hm.factors, g, hg, hd.edges⟩

/-- Not every grid is accepted. -/
theorem text_twelve : ¬ ∀ n, 2 ≤ n → ∃ m ws, parse (text n).toList 2 = .ok (m, ws) := by
  intro h
  obtain ⟨m, ws, hparse⟩ := h 12 (by decide)
  rw [text_refused le_rfl] at hparse
  exact nomatch hparse

end FactorForest.Grid
