import FactorForest.Proofs.Graph.Vertices
import FactorForest.Proofs.IdMap
import Mathlib.Data.Finset.Card

set_option autoImplicit false

namespace FactorForest.Graph

theorem edge?_natCast (g : Graph) (u v : Nat) : g.edge? u v = (g.linksOf u).find? v := by
  simp [edge?]

theorem edge?_congr {g h : Graph} (hl : g.links = h.links) (u v : Int) :
    g.edge? u v = h.edge? u v := by
  simp only [edge?, linksOf, hl]

theorem hasEdge_congr {g h : Graph} (hl : g.links = h.links) (u v : Int) :
    g.hasEdge u v = h.hasEdge u v := by
  rw [hasEdge, hasEdge, edge?_congr hl]

theorem hasEdge_iff {g : Graph} {u v : Int} : g.hasEdge u v ↔ ∃ e, g.edge? u v = some e :=
  Option.isSome_iff_exists

theorem edge?_of_no_links {g : Graph} (h : g.links = {}) (u v : Int) : g.edge? u v = none := by
  simp [edge?, linksOf, h]

theorem not_hasEdge_of_no_links {g : Graph} (h : g.links = {}) (u v : Int) :
    ¬ g.hasEdge u v := by
  simp [hasEdge, edge?_of_no_links h]

theorem linksOf_setLink (g : Graph) (a b u : Nat) (e : Edge) :
    (g.setLink a b e).linksOf u = if u = a then (g.linksOf a).insert b e else g.linksOf u := by
  simp only [linksOf, setLink, IdMap.find?_insert]
  split_ifs <;> rfl

theorem edge?_setLink (g : Graph) (a b u v : Nat) (e : Edge) :
    (g.setLink a b e).edge? u v = if u = a ∧ v = b then some e else g.edge? u v := by
  simp only [edge?_natCast, linksOf_setLink]
  by_cases hu : u = a
  · subst hu
    by_cases hv : v = b <;> simp [hv]
  · simp [hu]

theorem hasEdge_setLink (g : Graph) (a b u v : Nat) (e : Edge) :
    (g.setLink a b e).hasEdge u v ↔ u = a ∧ v = b ∨ g.hasEdge u v := by
  simp only [hasEdge, edge?_setLink]
  by_cases h : u = a ∧ v = b <;> simp [h]

theorem addEdge_eq_ok_iff {g h : Graph} {i j : Int} {e : Edge} :
    g.addEdge i j e = .ok h ↔ ∃ u v : Nat, i = u ∧ j = v ∧ u < g.vertices.size ∧
      v < g.vertices.size ∧ u ≠ v ∧ h = g.setLink u v e := by
  rw [addEdge]
  constructor
  · intro hok
    split at hok
    · exact absurd hok (by simp)
    · rename_i hh
      split at hok
      · exact absurd hok (by simp)
      · rename_i hne
        simp only [Bool.not_eq_eq_eq_not, Bool.not_true, Bool.not_eq_false, Bool.and_eq_true] at hh
        obtain ⟨u, rfl, hu⟩ := holds_iff.1 hh.1
        obtain ⟨v, rfl, hv⟩ := holds_iff.1 hh.2
        refine ⟨u, v, rfl, rfl, hu, hv, fun h => hne (by rw [h]), ?_⟩
        simpa using hok.symm
  · rintro ⟨u, v, rfl, rfl, hu, hv, hne, rfl⟩
    have hn : (u : Int) ≠ v := by exact_mod_cast hne
    simp [(holds_natCast g u).2 hu, (holds_natCast g v).2 hv, hn]

theorem edge?_eq_some_iff {g : Graph} {i j : Int} {e : Edge} :
    g.edge? i j = some e ↔ ∃ u v : Nat, i = u ∧ j = v ∧ g.edge? u v = some e := by
  constructor
  · intro h
    have hij : 0 ≤ i ∧ 0 ≤ j := by
      by_contra hneg
      rw [edge?, if_neg hneg] at h
      exact absurd h (by simp)
    obtain ⟨u, rfl⟩ := Int.eq_ofNat_of_zero_le hij.1
    obtain ⟨v, rfl⟩ := Int.eq_ofNat_of_zero_le hij.2
    exact ⟨u, v, rfl, rfl, h⟩
  · rintro ⟨u, v, rfl, rfl, h⟩
    exact h

theorem setEdge_eq_ok_iff {g h : Graph} {i j : Int} {f : Edge → Edge} :
    g.setEdge i j f = .ok h ↔
      ∃ (u v : Nat) (e : Edge), i = u ∧ j = v ∧ g.edge? u v = some e ∧ h = g.setLink u v (f e) := by
  have hedge : g.setEdge i j f = .ok h ↔
      ∃ e, g.edge? i j = some e ∧ h = g.setLink i.toNat j.toNat (f e) := by
    rw [setEdge, edge]
    cases g.edge? i j with
    | none => simp [bind, Except.bind]
    | some e => simp [bind, Except.bind, pure, Except.pure, eq_comm]
  rw [hedge]
  constructor
  · rintro ⟨e, he, rfl⟩
    obtain ⟨u, v, rfl, rfl, he⟩ := edge?_eq_some_iff.1 he
    exact ⟨u, v, e, rfl, rfl, he, rfl⟩
  · rintro ⟨u, v, e, rfl, rfl, he, rfl⟩
    exact ⟨e, he, rfl⟩

theorem mem_targets {g : Graph} {u v : Nat} : v ∈ g.targets u ↔ g.hasEdge u v := by
  rw [targets, IdMap.mem_keys, hasEdge_iff, edge?_natCast]

theorem mem_sources {g : Graph} {u v : Nat} : u ∈ g.sources v ↔ g.hasEdge u v := by
  simp only [sources, List.mem_map, List.mem_filter, Prod.exists, exists_and_right, exists_eq_right,
    IdMap.mem_entries, hasEdge, edge?_natCast, linksOf, IdMap.contains]
  cases g.links.find? u with
  | none => simp
  | some es => simp

theorem targets_ascending (g : Graph) (u : Nat) : (g.targets u).Pairwise (· < ·) :=
  IdMap.keys_ascending _

theorem targets_congr {g h : Graph} (hl : g.links = h.links) (u : Nat) :
    g.targets u = h.targets u := by
  simp only [targets, linksOf, hl]

/-- The order of enumeration: by source, then by target. -/
def EdgeBefore (x y : Nat × Nat × Edge) : Prop := x.1 < y.1 ∨ x.1 = y.1 ∧ x.2.1 < y.2.1

instance : Std.Irrefl EdgeBefore := ⟨fun x h => by rcases h with h | h <;> omega⟩

instance : Std.Antisymm EdgeBefore :=
  ⟨fun x y h k => by rcases h with h | h <;> rcases k with k | k <;> omega⟩

theorem mem_edges {g : Graph} {u v : Nat} {e : Edge} :
    (u, v, e) ∈ g.edges ↔ g.edge? u v = some e := by
  simp only [edges, List.mem_flatMap, List.mem_map, Prod.exists, Prod.mk.injEq, edge?_natCast,
    linksOf]
  constructor
  · rintro ⟨a, es, ha, b, c, hb, rfl, rfl, rfl⟩
    rw [IdMap.mem_entries.1 ha]
    exact IdMap.mem_entries.1 hb
  · intro h
    cases hf : g.links.find? u with
    | none => simp [hf] at h
    | some es =>
      rw [hf] at h
      exact ⟨u, es, IdMap.mem_entries.2 hf, v, e, IdMap.mem_entries.2 h, rfl, rfl, rfl⟩

theorem edges_ascending (g : Graph) : g.edges.Pairwise EdgeBefore := by
  refine List.pairwise_flatMap.2 ⟨?_, ?_⟩
  · intro p _
    exact List.pairwise_map.2 (p.2.ascending.imp fun h => .inr ⟨rfl, h⟩)
  · apply g.links.ascending.imp
    intro p q h x hx y hy
    obtain ⟨a, _, rfl⟩ := List.mem_map.1 hx
    obtain ⟨b, _, rfl⟩ := List.mem_map.1 hy
    exact .inl h

theorem nodup_ends (g : Graph) : (g.edges.map fun l => (l.1, l.2.1)).Nodup := by
  refine List.pairwise_map.2 (g.edges_ascending.imp ?_)
  intro k l h he
  rw [Prod.mk.injEq] at he
  rcases h with h | h <;> omega

theorem nodup_edges (g : Graph) : g.edges.Nodup := g.nodup_ends.of_map

theorem edgeCount_eq_card {g : Graph} {s : Finset (Nat × Nat)}
    (hs : ∀ u v : Nat, (u, v) ∈ s ↔ g.hasEdge u v) : g.edgeCount = s.card := by
  have hends : (g.edges.map fun l => (l.1, l.2.1)).toFinset = s := by
    ext ⟨u, v⟩
    rw [hs, hasEdge_iff]
    simp [← mem_edges]
  rw [← hends, List.toFinset_card_of_nodup g.nodup_ends, List.length_map, edgeCount]

theorem edges_ext {g h : Graph} (he : ∀ u v : Nat, g.edge? u v = h.edge? u v) :
    g.edges = h.edges := by
  apply g.edges_ascending.eq_of_mem_iff h.edges_ascending
  rintro ⟨u, v, e⟩
  rw [mem_edges, mem_edges, he]

/-- No source has an empty map of edges. -/
def Tight (g : Graph) : Prop := ∀ u es, g.links.find? u = some es → es ≠ {}

theorem tight_of_no_links {g : Graph} (h : g.links = {}) : g.Tight := by
  intro u es hu
  rw [h] at hu
  exact nomatch hu

theorem Tight.setLink {g : Graph} (hg : g.Tight) (u v : Nat) (e : Edge) :
    (g.setLink u v e).Tight := by
  intro k es hk
  rw [Graph.setLink, IdMap.find?_insert] at hk
  split at hk
  · intro hempty
    have hv := IdMap.find?_insert (g.linksOf u) v v e
    rw [Option.some.inj hk, hempty, if_pos rfl] at hv
    exact nomatch hv
  · exact hg k es hk

theorem Tight.find?_links {g : Graph} (hg : g.Tight) (u : Nat) :
    g.links.find? u = if g.linksOf u = {} then none else some (g.linksOf u) := by
  unfold linksOf
  cases hu : g.links.find? u with
  | none => rfl
  | some es => exact (if_neg (hg u es hu)).symm

theorem Tight.links_eq {g h : Graph} (hg : g.Tight) (hh : h.Tight)
    (he : ∀ u v : Nat, g.edge? u v = h.edge? u v) : g.links = h.links := by
  have hof : ∀ u, g.linksOf u = h.linksOf u := by
    intro u
    apply IdMap.ext_find?
    intro v
    rw [← edge?_natCast, ← edge?_natCast, he]
  apply IdMap.ext_find?
  intro u
  rw [hg.find?_links, hh.find?_links, hof]

/-- Every edge joins two different vertices of the graph. -/
def Sound (g : Graph) : Prop :=
  ∀ u v : Nat, g.hasEdge u v → u < g.vertices.size ∧ v < g.vertices.size ∧ u ≠ v

theorem sound_of_no_links {g : Graph} (h : g.links = {}) : g.Sound := fun u v huv =>
  absurd huv (not_hasEdge_of_no_links h u v)

theorem sound_empty : Sound {} := sound_of_no_links rfl

theorem Sound.addVertex {g : Graph} (hg : g.Sound) (x : Vertex) : (g.addVertex x).Sound := by
  intro u v h
  obtain ⟨hu, hv, hne⟩ := hg u v ((hasEdge_congr (g := g.addVertex x) rfl u v) ▸ h)
  simp only [Graph.addVertex, Array.size_push]
  omega

theorem Sound.addEdge {g h : Graph} (hg : g.Sound) {i j : Int} {e : Edge}
    (ha : g.addEdge i j e = .ok h) : h.Sound := by
  obtain ⟨a, b, rfl, rfl, hla, hlb, hne, rfl⟩ := addEdge_eq_ok_iff.1 ha
  intro u v huv
  rcases (hasEdge_setLink g a b u v e).1 huv with ⟨rfl, rfl⟩ | huv
  · exact ⟨hla, hlb, hne⟩
  · exact hg u v huv

end FactorForest.Graph
