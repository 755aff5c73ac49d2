import FactorForest.Proofs.BidOrder
import FactorForest.Proofs.Graph.Distance
import FactorForest.Proofs.Graph.Rounds

/-!
Growth of one tree is breadth first. After `d` rounds the frontier holds the vertices at distance
`d`, the nearer ones are inner vertices of the tree, and every other vertex is as it was, whatever
trees it may be in.
-/

set_option autoImplicit false

namespace FactorForest

/-- The record of a recruit in a state: a root keeps its count of bids, other vertices settled. -/
def Vertex.joined (x : Vertex) (d : Nat) (t : TreeState) : Vertex :=
  if d = 0 then { x with tree := t } else x.cleared t

namespace Graph

variable {g h : Graph} {r d : Nat} {maxHeight : Int} {front : List Nat}

/-- Where a tree can grow: nobody is a candidate yet, and nobody outside trees has bids. -/
def Quiet (g : Graph) : Prop :=
  ∀ x ∈ g.vertices, x.phase ≠ .candidate ∧ (x.tree = .available → x.suitors = [])

instance (g : Graph) : Decidable g.Quiet := inferInstanceAs (Decidable (∀ x ∈ g.vertices, _ ∧ _))

/-- The tree of `r` after `d` rounds. -/
structure Layer (g : Graph) (r : Nat) (maxHeight : Int) (d : Nat) (h : Graph)
    (front : List Nat) : Prop where
  root : r < g.vertices.size
  links : h.links = g.links
  colors : h.colors = g.colors
  size : h.vertices.size = g.vertices.size
  ascending : front.Pairwise (· < ·)
  frontier : ∀ v, v ∈ front ↔ g.Recruited r maxHeight v d
  inner : ∀ (v e : Nat) (x : Vertex), g.vertices[v]? = some x → g.Recruited r maxHeight v e →
    e < d → ∃ p, g.IsParent r v e p ∧ h.vertices[v]? = some (x.joined e (.treeNode p e 0))
  boundary : ∀ (v : Nat) (x : Vertex), g.vertices[v]? = some x → g.Recruited r maxHeight v d →
    ∃ p, g.IsParent r v d p ∧ h.vertices[v]? = some (x.joined d (.boundary p d))
  untouched : ∀ v : Nat, (∀ e ≤ d, ¬ g.Recruited r maxHeight v e) → h.vertices[v]? = g.vertices[v]?

namespace Layer

theorem tree_joined (x : Vertex) (e : Nat) (t : TreeState) : (x.joined e t).tree = t := by
  rw [Vertex.joined]
  split <;> rfl

theorem finished_joined (x : Vertex) (e : Nat) (p : Option Int) (k : Int) :
    (x.joined e (.boundary p k)).finished = x.joined e (.treeNode p k 0) := by
  rw [(Vertex.finished_boundary (tree_joined x e (.boundary p k))).2, Vertex.joined, Vertex.joined]
  split <;> rfl

theorem phase_joined (x : Vertex) (e : Nat) (t : TreeState) : (x.joined e t).phase = t.phase := by
  rw [Vertex.phase, tree_joined]

theorem afterBids_joined (h : Graph) (maxHeight k : Int) (front : List Nat) (v : Nat) (x : Vertex)
    (e : Nat) {t : TreeState} {l : Option Int × Int} (ht : t.place? = some l) :
    h.afterBids maxHeight k front v (x.joined e t) = x.joined e t :=
  Vertex.heardAll_of_place? ((congrArg _ (tree_joined x e t)).trans ht) _ _

theorem isFrontier (hl : g.Layer r maxHeight d h front) : h.Frontier d front := by
  intro v hv
  have hrec := (hl.frontier v).1 hv
  obtain ⟨x, hx⟩ := exists_getElem? (hrec.1.1.lt_size hl.root)
  obtain ⟨p, -, hp⟩ := hl.boundary v x hx hrec
  exact ⟨x.joined d (.boundary p d), p, hp, tree_joined x d _⟩

theorem mem_bidders (hl : g.Layer r maxHeight d h front) {v p : Nat} :
    p ∈ h.bidders maxHeight d front v ↔
      g.Recruited r maxHeight p d ∧ (d : Int) < maxHeight ∧ g.hasEdge p v := by
  rw [bidders, List.mem_filter, hl.frontier, decide_eq_true_iff, targets_congr hl.links,
    mem_targets]

theorem recruited_succ_iff (hl : g.Layer r maxHeight d h front) {v : Nat}
    (ha : g.IsAvailable v) (hv : ∀ e ≤ d, ¬ g.Recruited r maxHeight v e) :
    g.Recruited r maxHeight v (d + 1) ↔ h.bidders maxHeight d front v ≠ [] := by
  constructor
  · intro hrec
    obtain ⟨p, hp, edge⟩ := hrec.pred
    have hm := hrec.2
    exact List.ne_nil_of_mem (hl.mem_bidders.2 ⟨hp, by omega, edge⟩)
  · intro hne
    obtain ⟨p, hp⟩ := List.exists_mem_of_ne_nil _ hne
    obtain ⟨hrec, hm, edge⟩ := hl.mem_bidders.1 hp
    refine ⟨hrec.1.step edge ha fun e he hd => hv e he ⟨hd, ?_⟩, ?_⟩ <;> omega

theorem round_member (hl : g.Layer r maxHeight d h front) {v e : Nat} {x : Vertex}
    (hx : g.vertices[v]? = some x) (hrec : g.Recruited r maxHeight v e) (he : e ≤ d) :
    ∃ p y, g.IsParent r v e p ∧ h.vertices[v]? = some y ∧
      (h.afterBids maxHeight d front v y).phase ≠ .candidate ∧
      h.afterRound maxHeight d front v y = x.joined e (.treeNode p e 0) := by
  by_cases hlt : e < d
  · obtain ⟨p, hp, hy⟩ := hl.inner v e x hx hrec hlt
    have hbids := afterBids_joined h maxHeight d front v x e (t := .treeNode p e 0) rfl
    have hphase : (x.joined e (.treeNode p e 0)).phase ≠ .candidate := by
      simp [phase_joined, TreeState.phase]
    have hv : v ∉ front := fun hv => by
      have heq := ((hl.frontier v).1 hv).1.unique hrec.1
      omega
    refine ⟨p, _, hp, hy, by rwa [hbids], ?_⟩
    rw [afterRound, if_neg hv, hbids, Vertex.settled_of_phase hphase]
  · obtain rfl : e = d := by omega
    obtain ⟨p, hp, hy⟩ := hl.boundary v x hx hrec
    have hbids := afterBids_joined h maxHeight e front v x e (t := .boundary p e) rfl
    have hphase : (x.joined e (.boundary p e)).phase ≠ .candidate := by
      simp [phase_joined, TreeState.phase]
    refine ⟨p, _, hp, hy, by rwa [hbids], ?_⟩
    rw [afterRound, if_pos ((hl.frontier v).2 hrec), hbids, Vertex.settled_of_phase hphase,
      finished_joined]

theorem round_next (hl : g.Layer r maxHeight d h front) (hq : g.Quiet) {v : Nat} {x : Vertex}
    (hx : g.vertices[v]? = some x) (hrec : g.Recruited r maxHeight v (d + 1)) :
    ∃ p, g.IsParent r v (d + 1) p ∧ h.vertices[v]? = some x ∧
      (h.afterBids maxHeight d front v x).phase = .candidate ∧
      (h.afterBids maxHeight d front v x).suitors ≠ [] ∧
      h.afterRound maxHeight d front v x = x.joined (d + 1) (.boundary p (d + 1 : Nat)) := by
  have hv : ∀ e ≤ d, ¬ g.Recruited r maxHeight v e := fun e he hr => by
    have heq := hr.1.unique hrec.1
    omega
  obtain ⟨u, -, -, hav⟩ := hrec.1.pred
  have hne := (hl.recruited_succ_iff hav hv).1 hrec
  obtain ⟨y, hy, ht⟩ := hav
  cases hx.symm.trans hy
  have hs : x.suitors = [] := (hq x (Array.mem_of_getElem? hx)).2 ht
  obtain ⟨p, ps, hps⟩ := List.exists_cons_of_ne_nil hne
  have hasc : (p :: ps).Pairwise (· < ·) := hps ▸ hl.ascending.filter _
  obtain ⟨hcand, hsuit, hsettled⟩ := Vertex.settled_heardAll ht hs d hasc
  obtain ⟨hp, hm, edge⟩ := hl.mem_bidders.1 (hps ▸ List.mem_cons_self)
  refine ⟨some (p : Int), ⟨p, rfl, hp.1, edge, ?_⟩, ?_, ?_, ?_, ?_⟩
  · intro u hu huv
    have hmem : u ∈ p :: ps := hps ▸ hl.mem_bidders.2 ⟨⟨hu, by omega⟩, hm, huv⟩
    rcases List.mem_cons.1 hmem with rfl | hmem
    · exact Nat.le_refl u
    · exact Nat.le_of_lt ((List.pairwise_cons.1 hasc).1 u hmem)
  · rw [hl.untouched v hv, hx]
  · rwa [afterBids, hps]
  · rwa [afterBids, hps]
  · have hvf : v ∉ front := fun h => hv d (Nat.le_refl d) ((hl.frontier v).1 h)
    rw [afterRound, if_neg hvf, afterBids, hps, hsettled]
    rfl

theorem round_other (hl : g.Layer r maxHeight d h front) (hq : g.Quiet) {v : Nat} {x : Vertex}
    (hx : g.vertices[v]? = some x) (hv : ∀ e ≤ d + 1, ¬ g.Recruited r maxHeight v e) :
    h.vertices[v]? = some x ∧ (h.afterBids maxHeight d front v x).phase ≠ .candidate ∧
      h.afterRound maxHeight d front v x = x := by
  have hvd : ∀ e ≤ d, ¬ g.Recruited r maxHeight v e := fun e he => hv e (by omega)
  have hphase := (hq x (Array.mem_of_getElem? hx)).1
  have hbids : h.afterBids maxHeight d front v x = x := by
    by_cases ht : x.tree = .available
    · have hnil : h.bidders maxHeight d front v = [] := by
        by_contra hne
        exact hv (d + 1) (Nat.le_refl _) ((hl.recruited_succ_iff ⟨x, hx, ht⟩ hvd).2 hne)
      rw [afterBids, hnil]
      rfl
    · obtain ⟨l, hplace⟩ := Vertex.exists_place? ht hphase
      exact Vertex.heardAll_of_place? hplace _ _
  have hvf : v ∉ front := fun h => hvd d (Nat.le_refl d) ((hl.frontier v).1 h)
  refine ⟨by rw [hl.untouched v hvd, hx], by rwa [hbids], ?_⟩
  rw [afterRound, if_neg hvf, hbids, Vertex.settled_of_phase hphase]

theorem recruited_of_candidate (hl : g.Layer r maxHeight d h front) (hq : g.Quiet) {v : Nat}
    {y : Vertex} (hy : h.vertices[v]? = some y)
    (hc : (h.afterBids maxHeight d front v y).phase = .candidate) :
    g.Recruited r maxHeight v (d + 1) ∧ (h.afterBids maxHeight d front v y).suitors ≠ [] := by
  obtain ⟨x, hx⟩ := exists_getElem? (hl.size ▸ lt_of_getElem? hy)
  by_cases hle : ∃ e ≤ d, g.Recruited r maxHeight v e
  · obtain ⟨e, he, hrec⟩ := hle
    obtain ⟨p, z, -, hz, hn, -⟩ := hl.round_member hx hrec he
    cases hy.symm.trans hz
    exact absurd hc hn
  · by_cases hnext : g.Recruited r maxHeight v (d + 1)
    · obtain ⟨p, -, hz, -, hs, -⟩ := hl.round_next hq hx hnext
      cases hy.symm.trans hz
      exact ⟨hnext, hs⟩
    · obtain ⟨hz, hn, -⟩ := hl.round_other hq hx fun e he hrec => by
        by_cases heq : e = d + 1
        · exact hnext (heq ▸ hrec)
        · exact hle ⟨e, by omega, hrec⟩
      cases hy.symm.trans hz
      exact absurd hc hn

theorem exists_candidate_iff (hl : g.Layer r maxHeight d h front) (hq : g.Quiet) (v : Nat) :
    (∃ y, h.vertices[v]? = some y ∧ (h.afterBids maxHeight d front v y).phase = .candidate) ↔
      g.Recruited r maxHeight v (d + 1) := by
  constructor
  · rintro ⟨y, hy, hc⟩
    exact (hl.recruited_of_candidate hq hy hc).1
  · intro hrec
    obtain ⟨x, hx⟩ := exists_getElem? (hrec.1.1.lt_size hl.root)
    obtain ⟨p, -, hy, hc, -⟩ := hl.round_next hq hx hrec
    exact ⟨x, hy, hc⟩

theorem advance (hl : g.Layer r maxHeight d h front) (hq : g.Quiet) {h' : Graph} {next : List Nat}
    (hc : Changed (h.afterRound maxHeight d front) h h') (hasc : next.Pairwise (· < ·))
    (hmem : ∀ v, v ∈ next ↔ g.Recruited r maxHeight v (d + 1)) :
    g.Layer r maxHeight (d + 1) h' next := by
  refine ⟨hl.root, hc.links.trans hl.links, hc.colors.trans hl.colors, hc.size.trans hl.size, hasc,
    hmem, ?_, ?_, ?_⟩
  · intro v e x hx hrec he
    obtain ⟨p, y, hp, hy, -, hround⟩ := hl.round_member hx hrec (by omega)
    exact ⟨p, hp, by rw [hc.getElem? hy, hround]⟩
  · intro v x hx hrec
    obtain ⟨p, hp, hy, -, -, hround⟩ := hl.round_next hq hx hrec
    exact ⟨p, hp, by rw [hc.getElem? hy, hround]⟩
  · intro v hv
    rw [hc.vertices]
    cases hx : g.vertices[v]? with
    | none =>
      have hsize : h.vertices.size ≤ v := hl.size ▸ Array.getElem?_eq_none_iff.1 hx
      rw [Array.getElem?_eq_none hsize, Option.map_none]
    | some x =>
      obtain ⟨hy, -, hround⟩ := hl.round_other hq hx hv
      rw [hy, Option.map_some, hround]

theorem step (hl : g.Layer r maxHeight d h front) (hq : g.Quiet) (hne : front ≠ []) :
    ∃ h' next, (∀ rounds, growFrom maxHeight (rounds + 1) h front =
        ((growFrom maxHeight rounds h' next).1,
          (growFrom maxHeight rounds h' next).2.map (next ++ ·))) ∧
      g.Layer r maxHeight (d + 1) h' next := by
  obtain ⟨h', next, hgrow, hc, hasc, hmem⟩ := growFrom_round hl.isFrontier
    (hl.ascending.imp Nat.ne_of_lt) hne fun v y hy hv => (hl.recruited_of_candidate hq hy hv).2
  exact ⟨h', next, hgrow, hl.advance hq hc hasc fun v =>
    (hmem v).trans (hl.exists_candidate_iff hq v)⟩

end Layer

structure Complete (g : Graph) (r : Nat) (maxHeight : Int) (h : Graph) : Prop where
  links : h.links = g.links
  colors : h.colors = g.colors
  size : h.vertices.size = g.vertices.size
  members : ∀ (v d : Nat) (x : Vertex), g.vertices[v]? = some x → g.Recruited r maxHeight v d →
    ∃ p, g.IsParent r v d p ∧ h.vertices[v]? = some (x.joined d (.treeNode p d 0))
  others : ∀ v : Nat, (∀ d, ¬ g.Recruited r maxHeight v d) → h.vertices[v]? = g.vertices[v]?

theorem growFrom_nil (maxHeight : Int) (rounds : Nat) (g : Graph) :
    growFrom maxHeight rounds g [] = (g, .ok []) := by
  cases rounds <;> rfl

theorem Layer.complete (hl : g.Layer r maxHeight d h []) :
    g.Complete r maxHeight h ∧ ∀ v e, d < e → ¬ g.Recruited r maxHeight v e := by
  have hlt : ∀ v e, d ≤ e → ¬ g.Recruited r maxHeight v e := fun v e hde hrec => by
    obtain ⟨u, hu⟩ := hrec.exists_of_le hde
    exact absurd ((hl.frontier u).2 hu) List.not_mem_nil
  refine ⟨⟨hl.links, hl.colors, hl.size, ?_, ?_⟩,
    fun v e he => hlt v e he.le⟩
  · intro v e x hx hrec
    exact hl.inner v e x hx hrec (Nat.lt_of_not_le fun hde => hlt v e hde hrec)
  · intro v hv
    exact hl.untouched v fun e _ => hv e

/-- The recruits from a distance on, in the order of recruitment. -/
def Recruits (g : Graph) (r : Nat) (maxHeight : Int) (d : Nat) (ms : List Nat) : Prop :=
  (∀ v, v ∈ ms ↔ ∃ e, d ≤ e ∧ g.Recruited r maxHeight v e) ∧ ms.Pairwise (g.Before r)

theorem Layer.run_nil (hl : g.Layer r maxHeight d h []) :
    ∃ h' ms, (∀ rounds, growFrom maxHeight rounds h [] = (h', .ok ms)) ∧
      g.Complete r maxHeight h' ∧ g.Recruits r maxHeight (d + 1) ms := by
  obtain ⟨hdone, hlast⟩ := hl.complete
  refine ⟨h, [], fun rounds => growFrom_nil maxHeight rounds h, hdone, ?_, .nil⟩
  intro v
  exact ⟨fun hv => absurd hv List.not_mem_nil, fun ⟨e, he, hrec⟩ => absurd hrec (hlast v e he)⟩

theorem Recruits.append {ms : List Nat} (hasc : front.Pairwise (· < ·))
    (hfront : ∀ v, v ∈ front ↔ g.Recruited r maxHeight v d)
    (hms : g.Recruits r maxHeight (d + 1) ms) : g.Recruits r maxHeight d (front ++ ms) := by
  obtain ⟨hmem, horder⟩ := hms
  refine ⟨?_, List.pairwise_append.2 ⟨?_, horder, ?_⟩⟩
  · intro v
    rw [List.mem_append, hfront, hmem]
    constructor
    · rintro (hrec | ⟨e, he, hrec⟩)
      · exact ⟨d, Nat.le_refl d, hrec⟩
      · exact ⟨e, by omega, hrec⟩
    · rintro ⟨e, he, hrec⟩
      by_cases heq : e = d
      · exact .inl (heq ▸ hrec)
      · exact .inr ⟨e, by omega, hrec⟩
  · apply hasc.imp_of_mem
    intro u v hu hv huv
    exact ⟨d, d, ((hfront _).1 hu).1, ((hfront _).1 hv).1, .inr ⟨rfl, huv⟩⟩
  · intro u hu v hv
    obtain ⟨e, he, hrec⟩ := (hmem v).1 hv
    exact ⟨d, e, ((hfront u).1 hu).1, hrec.1, .inl he⟩

/-- As many rounds are enough as there are distances left, and more rounds change nothing. -/
theorem Layer.run (hl : g.Layer r maxHeight d h front) (hq : g.Quiet) :
    ∃ h' ms, (∀ rounds, g.vertices.size < rounds + d →
        growFrom maxHeight rounds h front = (h', .ok ms)) ∧
      g.Complete r maxHeight h' ∧ g.Recruits r maxHeight (d + 1) ms := by
  -- the induction is on the distances that are left
  induction hn : g.vertices.size - d using Nat.strong_induction_on generalizing d h front with
  | _ n ih =>
    by_cases hnil : front = []
    · subst hnil
      obtain ⟨h', ms, hrun, hdone⟩ := hl.run_nil
      exact ⟨h', ms, fun rounds _ => hrun rounds, hdone⟩
    · obtain ⟨p, hp⟩ := List.exists_mem_of_ne_nil front hnil
      have hd := ((hl.frontier p).1 hp).1.lt_size hl.root
      obtain ⟨h₁, next, hgrow, hl₁⟩ := hl.step hq hnil
      obtain ⟨h₂, ms, hrun, hdone, hms⟩ := ih _ (by omega) hl₁ rfl
      refine ⟨h₂, next ++ ms, ?_, hdone,
        hms.append hl₁.ascending hl₁.frontier⟩
      intro rounds hrounds
      obtain ⟨k, rfl⟩ : ∃ k, rounds = k + 1 := ⟨rounds - 1, by omega⟩
      rw [hgrow, hrun k (by omega)]
      rfl

theorem layer_root {x : Vertex} (hx : g.vertices[r]? = some x) (maxHeight : Int) :
    g.Layer r maxHeight 0 (g.setVertex r { x with tree := .boundary none 0 }) [r] := by
  have hzero : ∀ v, g.Recruited r maxHeight v 0 ↔ v = r := fun v =>
    ⟨fun hrec => hrec.1.eq_root, fun hv => hv ▸ ⟨g.distance_root v, .inl rfl⟩⟩
  refine ⟨lt_of_getElem? hx, rfl, rfl, size_setVertex g r _, List.pairwise_singleton _ r,
    ?_, fun v e y _ _ he => absurd he (Nat.not_lt_zero e), ?_,
    ?_⟩
  · intro v
    rw [List.mem_singleton, hzero]
  · intro v y hy hrec
    obtain rfl := (hzero v).1 hrec
    cases hx.symm.trans hy
    refine ⟨none, rfl, ?_⟩
    rw [getElem?_setVertex hx, if_pos rfl]
    rfl
  · intro v hv
    have hne : v ≠ r := fun he => hv 0 (Nat.le_refl 0) ((hzero v).2 he)
    rw [getElem?_setVertex hx, if_neg hne]

theorem Complete.phase (hdone : g.Complete r maxHeight h) (hq : g.Quiet) {v : Nat} {y : Vertex}
    (hy : h.vertices[v]? = some y) :
    y.phase ≠ .candidate ∧ (y.phase = .boundary → g.vertices[v]? = some y) := by
  by_cases hrec : ∃ d, g.Recruited r maxHeight v d
  · obtain ⟨d, hrec⟩ := hrec
    obtain ⟨x, hx⟩ := exists_getElem? (hdone.size ▸ lt_of_getElem? hy)
    obtain ⟨p, -, hv⟩ := hdone.members v d x hx hrec
    cases hy.symm.trans hv
    simp [Layer.phase_joined, TreeState.phase]
  · have hv := hdone.others v fun d hd => hrec ⟨d, hd⟩
    rw [hy] at hv
    exact ⟨(hq y (Array.mem_of_getElem? hv.symm)).1, fun _ => hv.symm⟩

/-- Growth from an available vertex ends without a fault, and no further rounds would change its
end. It tells the root and the vertices that it can reach through available ones up to the greatest
height, nearest first; these become the inner vertices of a tree of shortest ways, and nothing else
changes. -/
theorem grow_breadthFirst {g : Graph} {r : Nat} {x : Vertex} (hx : g.vertices[r]? = some x)
    (ht : x.tree = .available) (hq : g.Quiet) (maxHeight : Int) :
    ∃ (h : Graph) (ms : List Nat), g.grow r maxHeight = (h, .ok ((r :: ms).map Int.ofNat)) ∧
      (∀ rounds, g.vertices.size < rounds → growFrom maxHeight rounds
        (g.setVertex r { x with tree := .boundary none 0 }) [r] = (h, .ok ms)) ∧
      (r :: ms).Nodup ∧ (r :: ms).Pairwise (g.Before r) ∧
      (∀ v, v ∈ r :: ms ↔ ∃ d, g.Recruited r maxHeight v d) ∧
      g.Complete r maxHeight h ∧
      ∀ (v : Nat) (y : Vertex), h.vertices[v]? = some y →
        y.phase ≠ .candidate ∧ (y.phase = .boundary → g.vertices[v]? = some y) := by
  have hroot : x.makeRoot = .ok { x with tree := .boundary none 0 } :=
    Vertex.makeRoot_eq_ok_iff.2 ⟨ht, rfl⟩
  have hl := layer_root hx maxHeight
  obtain ⟨h, ms, hrun, hdone, hms⟩ := hl.run hq
  obtain ⟨hmem, horder⟩ := hms.append hl.ascending hl.frontier
  refine ⟨h, ms, ?_, hrun, horder.imp Before.ne, horder, ?_, hdone,
    fun v y => hdone.phase hq⟩
  · have hr : ¬ (r : Int) < 0 := by omega
    rw [grow, vertexAt_natCast hx]
    simp only [hroot, hr, if_false, size_setVertex, hrun _ (Nat.lt_succ_self g.vertices.size)]
    rfl
  · intro v
    rw [← List.singleton_append, hmem]
    simp

/-- A path of three available vertices; from its middle an edge leads into an earlier tree. -/
def pathGraph : Graph :=
  let binary (id : Nat) : Variable := ⟨id, 2, Nat.two_pos⟩
  let vertex (i : Nat) (t : TreeState) : Vertex :=
    { Vertex.fresh (binary i) [0] (Assignment.first (Scope.single (binary i))) .zero with
      tree := t }
  let g : Graph := { vertices := #[vertex 0 .available, vertex 1 .available, vertex 2 .available,
    vertex 3 (.treeNode none 0 0)] }
  ((g.setLink 0 1 {}).setLink 1 2 {}).setLink 1 3 {}

theorem grow_breadthFirst_path :
    (pathGraph.grow 0 1).2 = .ok [0, 1] ∧ ∃ (h : Graph) (ms : List Nat),
      pathGraph.grow 0 1 = (h, .ok ((0 :: ms).map Int.ofNat)) ∧
      (0 :: ms).Pairwise (pathGraph.Before 0) ∧
      (∀ v, v ∈ 0 :: ms ↔ ∃ d, pathGraph.Recruited 0 1 v d) ∧ pathGraph.Complete 0 1 h := by
  refine ⟨by decide, ?_⟩
  obtain ⟨h, ms, hgrow, -, -, horder, hmem, hdone, -⟩ :=
    grow_breadthFirst (g := pathGraph) (r := 0) rfl rfl (by decide) 1
  exact ⟨h, ms, hgrow, horder, hmem, hdone⟩

end Graph
end FactorForest
