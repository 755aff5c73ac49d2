import FactorForest.Graph.Coloring
import FactorForest.Proofs.Graph.Edges
import Mathlib.Data.Finset.Card
import Mathlib.Data.List.Perm.Subperm
import Mathlib.Order.Bounds.Basic

/-!
The colouring that the greedy pass computes. Each vertex has the least colour that no neighbour
ahead of it has, those of higher degree and, among equal degrees, of lower id being ahead. So
neighbours get different colours and no colour is greater than the degree. There is one such
colouring, and it depends on nothing but the number of vertices and the pairs that are joined.
-/

set_option autoImplicit false

namespace FactorForest

/-- A higher key comes first, and of equal keys the lower number. -/
def Ahead (key : Nat → Nat) (v u : Nat) : Prop := key u < key v ∨ key u = key v ∧ v < u

theorem exists_free (used : List Nat) : ∃ c ∈ List.range (used.length + 1), c ∉ used := by
  by_contra hall
  push Not at hall
  have hle := (List.nodup_range.subperm hall).length_le
  rw [List.length_range] at hle
  omega

theorem leastFree_not_mem (used : List Nat) : leastFree used ∉ used := by
  unfold leastFree
  cases hf : (List.range (used.length + 1)).find? fun c => !used.contains c with
  | none =>
    obtain ⟨c, hc, hfree⟩ := exists_free used
    exact absurd (by simpa using hfree) (List.find?_eq_none.1 hf c hc)
  | some c => simpa using List.find?_some hf

theorem leastFree_isLeast (used : List Nat) : IsLeast {c | c ∉ used} (leastFree used) := by
  refine ⟨leastFree_not_mem used, fun d hd => ?_⟩
  unfold leastFree
  cases hf : (List.range (used.length + 1)).find? fun c => !used.contains c with
  | none => exact Nat.zero_le d
  | some c =>
    obtain ⟨-, i, hi, hc, hbefore⟩ := List.find?_eq_some_iff_getElem.1 hf
    rw [List.getElem_range] at hc
    rw [Option.getD_some]
    by_contra hlt
    have hused := hbefore d (by omega)
    rw [List.getElem_range] at hused
    exact hd (by simpa using hused)

theorem insertByKey_perm (key : Nat → Nat) (u : Nat) (vs : List Nat) :
    (insertByKey key u vs).Perm (u :: vs) := by
  induction vs with
  | nil => exact .refl _
  | cons v vs ih =>
    rw [insertByKey]
    split
    · exact .refl _
    · exact (ih.cons v).trans (.swap u v vs)

theorem foldr_insertByKey_perm (key : Nat → Nat) (us : List Nat) :
    (us.foldr (insertByKey key) []).Perm us := by
  induction us with
  | nil => exact .refl _
  | cons u us ih => exact (insertByKey_perm key u _).trans (ih.cons u)

theorem byKey_perm (key : Nat → Nat) (n : Nat) : (byKey key n).Perm (List.range n) :=
  foldr_insertByKey_perm key (List.range n)

theorem mem_byKey {key : Nat → Nat} {n u : Nat} : u ∈ byKey key n ↔ u < n :=
  (byKey_perm key n).mem_iff.trans List.mem_range

theorem nodup_byKey (key : Nat → Nat) (n : Nat) : (byKey key n).Nodup :=
  (byKey_perm key n).nodup_iff.2 List.nodup_range

theorem pairwise_insertByKey {key : Nat → Nat} {u : Nat} {vs : List Nat} (hu : ∀ v ∈ vs, u < v)
    (h : vs.Pairwise (Ahead key)) : (insertByKey key u vs).Pairwise (Ahead key) := by
  induction vs with
  | nil => exact List.pairwise_singleton _ u
  | cons v vs ih =>
    obtain ⟨huv, hu⟩ := List.forall_mem_cons.1 hu
    obtain ⟨hv, hvs⟩ := List.pairwise_cons.1 h
    rw [insertByKey]
    split
    · rename_i hkey
      refine List.pairwise_cons.2 ⟨List.forall_mem_cons.2 ⟨?_, fun w hw => ?_⟩, h⟩
      · unfold Ahead
        omega
      · have hvw := hv w hw
        have huw := hu w hw
        unfold Ahead at *
        omega
    · rename_i hkey
      refine List.pairwise_cons.2 ⟨fun w hw => ?_, ih hu hvs⟩
      rcases List.mem_cons.1 ((insertByKey_perm key u vs).mem_iff.1 hw) with rfl | hw
      · exact .inl (Nat.not_le.1 hkey)
      · exact hv w hw

theorem pairwise_foldr_insertByKey (key : Nat → Nat) {us : List Nat} (h : us.Pairwise (· < ·)) :
    (us.foldr (insertByKey key) []).Pairwise (Ahead key) := by
  induction us with
  | nil => exact .nil
  | cons u us ih =>
    obtain ⟨hu, hus⟩ := List.pairwise_cons.1 h
    refine pairwise_insertByKey (fun v hv => ?_) (ih hus)
    exact hu v ((foldr_insertByKey_perm key us).mem_iff.1 hv)

theorem pairwise_byKey (key : Nat → Nat) (n : Nat) : (byKey key n).Pairwise (Ahead key) :=
  pairwise_foldr_insertByKey key List.pairwise_lt_range

theorem mem_front_byKey {key : Nat → Nat} {n u v : Nat} {pre post : List Nat}
    (h : byKey key n = pre ++ u :: post) (hv : v < n) : v ∈ pre ↔ Ahead key v u := by
  obtain ⟨-, hpost, hbefore⟩ := List.pairwise_append.1 (h ▸ pairwise_byKey key n)
  refine ⟨fun hvpre => hbefore v hvpre u List.mem_cons_self, fun hahead => ?_⟩
  rcases List.mem_append.1 (h ▸ mem_byKey.2 hv) with hvpre | hrest
  · exact hvpre
  · unfold Ahead at hahead
    rcases List.mem_cons.1 hrest with rfl | hvpost
    · omega
    · have hbehind := (List.pairwise_cons.1 hpost).1 v hvpost
      unfold Ahead at hbehind
      omega

section Painting

variable {adjacent : Nat → List Nat}

theorem exists_find?_paint (order : List Nat) (colors : IdMap Nat) {u : Nat}
    (h : u ∈ order ∨ ∃ c, colors.find? u = some c) :
    ∃ c, (paint adjacent order colors).find? u = some c := by
  induction order generalizing colors with
  | nil => exact h.resolve_left List.not_mem_nil
  | cons w order ih =>
    apply ih
    rw [IdMap.find?_insert]
    by_cases huw : u = w
    · exact .inr ⟨_, if_pos huw⟩
    · rw [if_neg huw]
      exact h.imp_left fun hu => (List.mem_cons.1 hu).resolve_left huw

theorem find?_paint_of_not_mem {order : List Nat} {u : Nat} (hu : u ∉ order) (colors : IdMap Nat) :
    (paint adjacent order colors).find? u = colors.find? u := by
  induction order generalizing colors with
  | nil => rfl
  | cons w order ih =>
    obtain ⟨hne, hu⟩ := not_or.1 (mt List.mem_cons.2 hu)
    refine (ih hu _).trans ?_
    rw [IdMap.find?_insert, if_neg hne]

/-- In the painted order a vertex has the least colour that none of the adjacent vertices in front
of it has. -/
theorem find?_paint {pre post : List Nat} {u : Nat} (h : (pre ++ u :: post).Nodup) :
    ∃ c, (paint adjacent (pre ++ u :: post) {}).find? u = some c ∧
      IsLeast {d | ∀ v ∈ pre, v ∈ adjacent u →
        (paint adjacent (pre ++ u :: post) {}).find? v ≠ some d} c := by
  obtain ⟨-, hrest, hapart⟩ := List.nodup_append.1 h
  have hu : u ∉ post := (List.nodup_cons.1 hrest).1
  have hfinal : ∀ v, v ∉ post → (paint adjacent (pre ++ u :: post) {}).find? v =
      ((paint adjacent pre {}).insert u
        (leastFree ((adjacent u).filterMap (paint adjacent pre {}).find?))).find? v := by
    intro v hv
    rw [paint, List.foldl_append, List.foldl_cons]
    exact find?_paint_of_not_mem hv _
  have hset : {d | ∀ v ∈ pre, v ∈ adjacent u →
      (paint adjacent (pre ++ u :: post) {}).find? v ≠ some d} =
        {d | d ∉ (adjacent u).filterMap (paint adjacent pre {}).find?} := by
    ext d
    rw [Set.mem_ofPred_eq, Set.mem_ofPred_eq, List.mem_filterMap, not_exists]
    refine forall_congr' fun v => ?_
    by_cases hv : v ∈ pre
    · have hne : v ≠ u := hapart v hv u List.mem_cons_self
      have hnot : v ∉ post := fun hpost => hapart v hv v (List.mem_cons_of_mem u hpost) rfl
      rw [hfinal v hnot, IdMap.find?_insert, if_neg hne]
      simp [hv]
    · rw [find?_paint_of_not_mem hv]
      simp [hv]
  refine ⟨leastFree ((adjacent u).filterMap (paint adjacent pre {}).find?), ?_, ?_⟩
  · rw [hfinal u hu, IdMap.find?_insert, if_pos rfl]
  · rw [hset]
    exact leastFree_isLeast _

theorem find?_paint_byKey (adjacent : Nat → List Nat) (key : Nat → Nat) {n u : Nat} (hu : u < n)
    (hadjacent : ∀ v ∈ adjacent u, v < n) :
    ∃ c, (paint adjacent (byKey key n) {}).find? u = some c ∧
      IsLeast {d | ∀ v ∈ adjacent u, Ahead key v u →
        (paint adjacent (byKey key n) {}).find? v ≠ some d} c := by
  obtain ⟨pre, post, hsplit⟩ := List.append_of_mem (mem_byKey.2 hu : u ∈ byKey key n)
  obtain ⟨c, hc, hleast⟩ := find?_paint (hsplit ▸ nodup_byKey key n)
  rw [← hsplit] at hc hleast
  refine ⟨c, hc, ?_⟩
  convert hleast using 2
  ext d
  constructor
  · intro hd v hpre hv
    exact hd v hv ((mem_front_byKey hsplit (hadjacent v hv)).1 hpre)
  · intro hd v hv hahead
    exact hd v ((mem_front_byKey hsplit (hadjacent v hv)).2 hahead) hv

end Painting

namespace Graph

variable {g h : Graph}

def Adjacent (g : Graph) (u v : Nat) : Prop := g.hasEdge u v ∨ g.hasEdge v u

instance (g : Graph) (u v : Nat) : Decidable (g.Adjacent u v) :=
  inferInstanceAs (Decidable (_ ∨ _))

def neighbours (g : Graph) (u : Nat) : Finset Nat :=
  (Finset.range g.vertices.size).filter (g.Adjacent u)

def degree (g : Graph) (u : Nat) : Nat := (g.neighbours u).card

/-- A colour for each vertex: the least one that no adjacent vertex ahead of it has. -/
structure LargestFirst (g : Graph) (colors : Array Nat) : Prop where
  size : colors.size = g.vertices.size
  least : ∀ (u c : Nat), colors[u]? = some c →
    IsLeast {d | ∀ v, g.Adjacent u v → Ahead g.degree v u → colors[v]? ≠ some d} c

theorem Adjacent.symm {u v : Nat} (h : g.Adjacent u v) : g.Adjacent v u := Or.symm h

theorem mem_neighbours {u v : Nat} :
    v ∈ g.neighbours u ↔ v < g.vertices.size ∧ g.Adjacent u v := by
  rw [neighbours, Finset.mem_filter, Finset.mem_range]

theorem degree_le (g : Graph) (u : Nat) : g.degree u ≤ g.vertices.size :=
  (Finset.card_filter_le _ _).trans (Nat.le_of_eq (Finset.card_range _))

theorem degree_congr (hsize : g.vertices.size = h.vertices.size)
    (hadj : ∀ u v, g.Adjacent u v ↔ h.Adjacent u v) (u : Nat) : g.degree u = h.degree u := by
  rw [degree, degree]
  congr 1
  ext v
  rw [mem_neighbours, mem_neighbours, hsize, hadj]

theorem mem_neighbourhoods {u v : Nat} : v ∈ g.neighbourhoods.getD u [] ↔
    u < g.vertices.size ∧ v < g.vertices.size ∧ (g.hasEdge u v ∨ g.hasEdge v u) := by
  unfold neighbourhoods
  by_cases hu : u < g.vertices.size
  · by_cases hv : v < g.vertices.size
    · simp [hu, hv, mem_targets]
    · simp [hu, hv]
  · simp [hu]

theorem size_greedyColors (g : Graph) : g.greedyColors.size = g.vertices.size := by
  simp [greedyColors]

theorem length_neighbourhoods {u : Nat} (hu : u < g.vertices.size) :
    (g.neighbourhoods.getD u []).length = g.degree u := by
  have hnodup : (g.neighbourhoods.getD u []).Nodup := by
    simp [neighbourhoods, hu, List.nodup_range.filter]
  rw [degree, ← List.toFinset_card_of_nodup hnodup]
  congr 1
  ext v
  rw [List.mem_toFinset, mem_neighbourhoods, mem_neighbours]
  exact and_iff_right hu

theorem ahead_neighbourhoods {u v : Nat} (hu : u < g.vertices.size) (hv : v < g.vertices.size) :
    Ahead (fun w => (g.neighbourhoods.getD w []).length) v u ↔ Ahead g.degree v u := by
  simp only [Ahead, length_neighbourhoods hu, length_neighbourhoods hv]

def painting (g : Graph) : IdMap Nat :=
  paint (fun w => g.neighbourhoods.getD w [])
    (byKey (fun w => (g.neighbourhoods.getD w []).length) g.vertices.size) {}

theorem getElem?_greedyColors (g : Graph) (u : Nat) :
    g.greedyColors[u]? = g.painting.find? u := by
  by_cases hu : u < g.vertices.size
  · have hpainted : g.greedyColors[u]? = some ((g.painting.find? u).getD 0) := by
      simp [greedyColors, painting, hu]
    obtain ⟨c, hc⟩ : ∃ c, g.painting.find? u = some c :=
      exists_find?_paint _ {} (.inl (mem_byKey.2 hu))
    rw [hpainted, hc, Option.getD_some]
  · rw [painting, find?_paint_of_not_mem (mt mem_byKey.1 hu), IdMap.find?_empty,
      Array.getElem?_eq_none]
    rw [size_greedyColors]
    exact Nat.not_lt.1 hu

theorem largestFirst_greedyColors (g : Graph) : g.LargestFirst g.greedyColors := by
  refine ⟨size_greedyColors g, fun u c hc => ?_⟩
  have hu : u < g.vertices.size := size_greedyColors g ▸ (Array.getElem?_eq_some_iff.1 hc).1
  have hinside : ∀ v ∈ g.neighbourhoods.getD u [], v < g.vertices.size :=
    fun v hv => (mem_neighbourhoods.1 hv).2.1
  obtain ⟨d, hd, hleast⟩ := find?_paint_byKey (fun w => g.neighbourhoods.getD w [])
    (fun w => (g.neighbourhoods.getD w []).length) hu hinside
  rw [getElem?_greedyColors, painting, hd] at hc
  cases hc
  convert hleast using 2
  ext e
  simp only [getElem?_greedyColors]
  constructor
  · intro he v hadj hahead
    obtain ⟨-, hv, hjoined⟩ := mem_neighbourhoods.1 hadj
    exact he v hjoined ((ahead_neighbourhoods hu hv).1 hahead)
  · intro he v hjoined hahead hcol
    have hv : v < g.vertices.size :=
      size_greedyColors g ▸ (Array.getElem?_eq_some_iff.1 (getElem?_greedyColors g v ▸ hcol)).1
    exact he v (mem_neighbourhoods.2 ⟨hu, hv, hjoined⟩) ((ahead_neighbourhoods hu hv).2 hahead) hcol

theorem LargestFirst.le_degree {colors : Array Nat} (hl : g.LargestFirst colors) {u c : Nat}
    (hc : colors[u]? = some c) : c ≤ g.degree u := by
  have htaken : Finset.range c ⊆ (g.neighbours u).image fun v => colors.getD v 0 := by
    intro d hd
    have hlt : ¬ c ≤ d := Nat.not_le.2 (Finset.mem_range.1 hd)
    -- a smaller colour is not free, so a neighbour has it
    have hnot : ¬ ∀ v, g.Adjacent u v → Ahead g.degree v u → colors[v]? ≠ some d :=
      fun hfree => hlt ((hl.least u c hc).2 hfree)
    push Not at hnot
    obtain ⟨v, hadj, -, hv⟩ := hnot
    have hsize := (Array.getElem?_eq_some_iff.1 hv).1
    refine Finset.mem_image.2 ⟨v, mem_neighbours.2 ⟨hl.size ▸ hsize, hadj⟩, ?_⟩
    rw [Array.getD_eq_getD_getElem?, hv, Option.getD_some]
  have hcard := (Finset.card_le_card htaken).trans Finset.card_image_le
  rwa [Finset.card_range] at hcard

theorem LargestFirst.ne {colors : Array Nat} (hl : g.LargestFirst colors) {u v c d : Nat}
    (hadj : g.Adjacent u v) (hne : u ≠ v) (hu : colors[u]? = some c) (hv : colors[v]? = some d) :
    c ≠ d := by
  have hahead : Ahead g.degree v u ∨ Ahead g.degree u v := by
    unfold Ahead
    omega
  rintro rfl
  rcases hahead with hahead | hahead
  · exact (hl.least u c hu).1 v hadj hahead hv
  · exact (hl.least v c hv).1 u hadj.symm hahead hu

theorem LargestFirst.getElem?_eq {colors colors' : Array Nat} (hg : g.LargestFirst colors)
    (hh : h.LargestFirst colors') (hsize : g.vertices.size = h.vertices.size)
    (hadj : ∀ u v, g.Adjacent u v ↔ h.Adjacent u v) (u : Nat) : colors[u]? = colors'[u]? := by
  -- by induction on the order: the vertices ahead of a vertex have the same colours, so the same
  -- colour is the least one left
  have hahead : ∀ v, Ahead g.degree v u → colors[v]? = colors'[v]? :=
    fun v hv => hg.getElem?_eq hh hsize hadj v
  have hdegree : g.degree = h.degree := funext (degree_congr hsize hadj)
  by_cases hu : u < g.vertices.size
  · obtain ⟨c, hc⟩ : ∃ c, colors[u]? = some c :=
      ⟨_, Array.getElem?_eq_getElem (hg.size ▸ hu)⟩
    obtain ⟨d, hd⟩ : ∃ d, colors'[u]? = some d :=
      ⟨_, Array.getElem?_eq_getElem (hh.size ▸ hsize ▸ hu)⟩
    have hleast := hg.least u c hc
    have hleast' := hh.least u d hd
    have hsets : {e | ∀ v, g.Adjacent u v → Ahead g.degree v u → colors[v]? ≠ some e} =
        {e | ∀ v, h.Adjacent u v → Ahead h.degree v u → colors'[v]? ≠ some e} := by
      ext e
      refine forall_congr' fun v => ?_
      rw [← hdegree, ← hadj]
      refine imp_congr_right fun _ => imp_congr_right fun hv => ?_
      rw [hahead v hv]
    rw [hsets] at hleast
    rw [hc, hd, hleast.unique hleast']
  · rw [Array.getElem?_eq_none (hg.size ▸ Nat.not_lt.1 hu),
      Array.getElem?_eq_none (hh.size ▸ hsize ▸ Nat.not_lt.1 hu)]
termination_by (g.vertices.size - g.degree u, u)
decreasing_by
  have hle := g.degree_le v
  unfold Ahead at hv
  rw [Prod.lex_def]
  dsimp only
  omega

theorem greedyColors_ne (hg : g.Sound) {u v : Nat} (h : g.hasEdge u v) :
    ∃ c d, g.greedyColors[u]? = some c ∧ g.greedyColors[v]? = some d ∧ c ≠ d := by
  obtain ⟨hu, hv, hne⟩ := hg u v h
  rw [← size_greedyColors] at hu hv
  have hc := Array.getElem?_eq_getElem hu
  have hd := Array.getElem?_eq_getElem hv
  exact ⟨_, _, hc, hd, (largestFirst_greedyColors g).ne (.inl h) hne hc hd⟩

end Graph
end FactorForest
