import FactorForest.Proofs.BidOrder
import FactorForest.Proofs.Checkpoint.RoundTrip
import FactorForest.Proofs.Graph.Rounds

set_option autoImplicit false

namespace FactorForest.Graph

variable {g h : Graph} {maxHeight : Int}

/-- One bid: a vertex, unless it is too high, proposes to another. -/
def bidOnce (maxHeight : Int) (g : Graph) (b : Nat × Nat) : Graph :=
  match g.vertices[b.1]? with
  | none => g
  | some x => if x.tree.height < maxHeight then bid b.1 x.tree.height g b.2 else g

def bidsOf (g : Graph) (frontier : List Nat) : List (Nat × Nat) :=
  frontier.flatMap fun p => (g.targets p).map (p, ·)

def heightOf? (g : Graph) (p : Nat) : Option Int := (g.vertices[p]?).map (·.tree.height)

def offer (g : Graph) (maxHeight : Int) (v : Nat) (b : Nat × Nat) : Option (Int × Int) :=
  (g.heightOf? b.1).bind fun k =>
    if b.2 = v ∧ k < maxHeight then some ((b.1 : Int), k) else none

theorem heightOf?_eq {f : Nat → Vertex → Vertex} (hc : Changed f g h)
    (hf : ∀ v x, (f v x).tree.height = x.tree.height) : h.heightOf? = g.heightOf? := by
  funext p
  rw [heightOf?, heightOf?, hc.vertices, Option.map_map]
  exact congrArg (fun k => (g.vertices[p]?).map k) (funext fun x => hf p x)

theorem heightOf?_bid (p : Nat) (k : Int) (g : Graph) (w : Nat) :
    (bid p k g w).heightOf? = g.heightOf? :=
  heightOf?_eq (changed_bid p k g w) fun v x => by
    split
    · exact x.height_heard p k
    · rfl

theorem changed_bidOnce (maxHeight : Int) (g : Graph) (b : Nat × Nat) :
    Changed (fun v y => y.hears (g.offer maxHeight v b).toList) g (bidOnce maxHeight g b) := by
  obtain ⟨p, w⟩ := b
  cases hx : g.vertices[p]? with
  | none =>
    simp only [bidOnce, hx, offer, heightOf?, Option.map_none, Option.bind_none]
    exact Changed.refl g
  | some x =>
    simp only [bidOnce, hx, offer, heightOf?, Option.map_some, Option.bind_some]
    by_cases hm : x.tree.height < maxHeight
    · rw [if_pos hm]
      apply (changed_bid p x.tree.height g w).congr
      intro v y _
      by_cases hv : v = w
      · rw [if_pos hv, if_pos ⟨hv.symm, hm⟩]
        rfl
      · rw [if_neg hv, if_neg fun hw => hv hw.1.symm]
        rfl
    · simp only [hm, and_false, if_false]
      exact Changed.refl g

theorem heightOf?_bidOnce (maxHeight : Int) (g : Graph) (b : Nat × Nat) :
    (bidOnce maxHeight g b).heightOf? = g.heightOf? := by
  rw [bidOnce]
  split
  · rfl
  · split
    · exact heightOf?_bid ..
    · rfl

theorem changed_bidsInTurn (maxHeight : Int) (g : Graph) (order : List (Nat × Nat)) :
    Changed (fun v y => y.hears (order.filterMap (g.offer maxHeight v))) g
      (order.foldl (bidOnce maxHeight) g) := by
  -- heights stay, so the offers of later bids are those that the graph makes at first
  induction order generalizing g with
  | nil => exact Changed.refl g
  | cons b bs ih =>
    have hoffer : (bidOnce maxHeight g b).offer maxHeight = g.offer maxHeight := by
      funext v c
      rw [offer, offer, heightOf?_bidOnce]
    apply ((changed_bidOnce maxHeight g b).trans (ih (bidOnce maxHeight g b))).congr
    intro v y _
    simp only [hoffer, List.filterMap_cons]
    cases g.offer maxHeight v b <;> rfl

theorem foldl_bidOnce (p : Nat) {x : Vertex} (ws : List Nat) (hx : g.vertices[p]? = some x) :
    (ws.map (p, ·)).foldl (bidOnce maxHeight) g =
      if x.tree.height < maxHeight then ws.foldl (bid p x.tree.height) g else g := by
  induction ws generalizing g x with
  | nil => exact (ite_self g).symm
  | cons w ws ih =>
    by_cases hm : x.tree.height < maxHeight
    · have hb : bidOnce maxHeight g (p, w) = bid p x.tree.height g w := by
        simp only [bidOnce, hx, hm, if_true]
      have hheight := congrFun (heightOf?_bid p x.tree.height g w) p
      rw [heightOf?, heightOf?, hx, Option.map_some, Option.map_eq_some_iff] at hheight
      obtain ⟨y, hy, hyx⟩ := hheight
      rw [List.map_cons, List.foldl_cons, hb, ih hy, hyx, if_pos hm, if_pos hm]
      rfl
    · have hb : bidOnce maxHeight g (p, w) = g := by simp only [bidOnce, hx, hm, if_false]
      rw [List.map_cons, List.foldl_cons, hb, ih hx, if_neg hm, if_neg hm]

theorem bidAround_eq (maxHeight : Int) (g : Graph) (p : Nat) :
    bidAround maxHeight g p = ((g.targets p).map (p, ·)).foldl (bidOnce maxHeight) g := by
  cases hx : g.vertices[p]? with
  | none =>
    have hnone : ∀ ws : List Nat, (ws.map (p, ·)).foldl (bidOnce maxHeight) g = g := by
      intro ws
      induction ws with
      | nil => rfl
      | cons w ws ih =>
        have hb : bidOnce maxHeight g (p, w) = g := by simp only [bidOnce, hx]
        rw [List.map_cons, List.foldl_cons, hb, ih]
    rw [hnone, bidAround]
    simp only [hx]
  | some x =>
    rw [foldl_bidOnce p (g.targets p) hx, bidAround]
    simp only [hx]

theorem links_bidAround (maxHeight : Int) (g : Graph) (p : Nat) :
    (bidAround maxHeight g p).links = g.links := by
  rw [bidAround_eq]
  exact (changed_bidsInTurn ..).links

theorem foldl_bidAround (maxHeight : Int) (g : Graph) (frontier : List Nat) :
    frontier.foldl (bidAround maxHeight) g =
      (g.bidsOf frontier).foldl (bidOnce maxHeight) g := by
  induction frontier generalizing g with
  | nil => rfl
  | cons p ps ih =>
    have hbids : (bidAround maxHeight g p).bidsOf ps = g.bidsOf ps := by
      simp only [bidsOf, targets_congr (links_bidAround maxHeight g p)]
    rw [List.foldl_cons, ih, hbids, bidAround_eq, ← List.foldl_append]
    rfl

/-- The same graph but for the order in which the suitors of its candidates came. -/
structure Alike (g h : Graph) : Prop where
  links : h.links = g.links
  colors : h.colors = g.colors
  vertices : ∀ v : Nat, Option.Rel Vertex.SameBids g.vertices[v]? h.vertices[v]?

namespace Alike

theorem of_changed {a b : Graph} {f f' : Nat → Vertex → Vertex} (ha : Changed f g a)
    (hb : Changed f' g b) (hf : ∀ v x, (f v x).SameBids (f' v x)) : Alike a b := by
  refine ⟨hb.links.trans ha.links.symm, hb.colors.trans ha.colors.symm, ?_⟩
  intro v
  rw [ha.vertices, hb.vertices]
  cases g.vertices[v]? with
  | none => exact .none
  | some x => exact .some (hf v x)

theorem getElem? (ha : Alike g h) {v : Nat} {x : Vertex} (hx : g.vertices[v]? = some x) :
    ∃ y, h.vertices[v]? = some y ∧ x.SameBids y := by
  have hv := ha.vertices v
  rw [hx] at hv
  cases hy : h.vertices[v]? with
  | none =>
    rw [hy] at hv
    exact nomatch hv
  | some y =>
    rw [hy] at hv
    cases hv with
    | some hxy => exact ⟨y, rfl, hxy⟩

theorem getElem?_none (ha : Alike g h) {v : Nat} (hx : g.vertices[v]? = none) :
    h.vertices[v]? = none := by
  have hv := ha.vertices v
  rw [hx] at hv
  generalize h.vertices[v]? = o at hv
  cases hv
  rfl

theorem isCandidate (ha : Alike g h) (v : Nat) : h.isCandidate v = g.isCandidate v := by
  unfold Graph.isCandidate
  cases hx : g.vertices[v]? with
  | none => rw [ha.getElem?_none hx]
  | some x =>
    obtain ⟨y, hy, hxy⟩ := ha.getElem? hx
    rw [hy, Option.any_some, Option.any_some, hxy.phase_eq]

theorem setVertex (ha : Alike g h) {v : Nat} {x y : Vertex} (hx : g.vertices[v]? = some x)
    (hy : h.vertices[v]? = some y) (z : Vertex) : Alike (g.setVertex v z) (h.setVertex v z) := by
  refine ⟨ha.links, ha.colors, ?_⟩
  intro u
  rw [getElem?_setVertex hx, getElem?_setVertex hy]
  split
  · exact .some (.refl z)
  · exact ha.vertices u

theorem eq_of_settled (ha : Alike g h) (hg : ∀ v, g.isCandidate v = false) : g = h := by
  have hvertices : g.vertices = h.vertices := by
    apply Array.ext_getElem?
    intro v
    cases hx : g.vertices[v]? with
    | none => rw [ha.getElem?_none hx]
    | some x =>
      obtain ⟨y, hy, hxy⟩ := ha.getElem? hx
      rw [hy, hxy.quiet (phase_of_not_isCandidate (hg v) hx)]
  have hlinks := ha.links
  have hcolors := ha.colors
  cases g
  cases h
  simp_all

theorem isCandidate_settled {v : Nat} {x : Vertex} {r : Vertex × Int × List Int}
    (hx : g.vertices[v]? = some x) (hr : x.settle = .ok r) :
    (g.setVertex v r.1).isCandidate v = false := by
  obtain ⟨_, b, bs, -, -, hz, -⟩ := Vertex.settle_eq_ok_iff.1 hr
  rw [Graph.isCandidate, getElem?_setVertex hx, if_pos rfl, hz]
  rfl

theorem settleAll (ha : Alike g h) (vs : List Nat) (hvs : ∀ v, g.isCandidate v = true → v ∈ vs) :
    (settleAll g vs).2 = (settleAll h vs).2 ∧
      ∀ next, (settleAll g vs).2 = .ok next → (settleAll g vs).1 = (settleAll h vs).1 := by
  induction vs generalizing g h with
  | nil =>
    refine ⟨rfl, fun _ _ => ha.eq_of_settled fun v => ?_⟩
    exact Bool.eq_false_iff.2 fun hv => List.not_mem_nil (hvs v hv)
  | cons v vs ih =>
    cases hn : g.isCandidate v with
    | false =>
      rw [settleAll_pass hn, settleAll_pass (ha.isCandidate v ▸ hn)]
      refine ih ha fun u hu => (List.mem_cons.1 (hvs u hu)).resolve_left fun e => ?_
      rw [e, hn] at hu
      exact Bool.false_ne_true hu
    | true =>
      obtain ⟨x, hx, hp⟩ := phase_of_isCandidate hn
      obtain ⟨y, hy, hxy⟩ := ha.getElem? hx
      have hq : y.phase = .candidate := hxy.phase_eq.trans hp
      cases hr : x.settle with
      | error e =>
        have hr' : y.settle = .error e := hxy.settle_eq ▸ hr
        simp only [Graph.settleAll, hx, hy, hp, hq, hr, hr', if_true]
        simp
      | ok r =>
        have hrest : ∀ u, (g.setVertex v r.1).isCandidate u = true → u ∈ vs := by
          intro u hu
          by_cases huv : u = v
          · rw [huv, isCandidate_settled hx hr] at hu
            exact absurd hu Bool.false_ne_true
          · rw [isCandidate_setVertex hx r.1 huv] at hu
            exact (List.mem_cons.1 (hvs u hu)).resolve_left huv
        obtain ⟨hout, hgraph⟩ := ih (ha.setVertex hx hy r.1) hrest
        rw [settleAll_settle hx hp hr, settleAll_settle hy hq (hxy.settle_eq ▸ hr)]
        refine ⟨congrArg (Except.map (v :: ·)) hout, fun next hok => ?_⟩
        obtain ⟨ns, hns, -⟩ := map_eq_ok_iff.1 hok
        exact hgraph ns hns

end Alike

/-- Two graphs settle all their candidates with the same outcome. -/
def SettleAlike (g h : Graph) : Prop :=
  (settleAll g (List.range g.vertices.size)).2 = (settleAll h (List.range h.vertices.size)).2 ∧
    ∀ next, (settleAll g (List.range g.vertices.size)).2 = .ok next →
      (settleAll g (List.range g.vertices.size)).1 = (settleAll h (List.range h.vertices.size)).1

theorem Courted.bidsInTurn (hg : g.Courted) (maxHeight : Int) (order : List (Nat × Nat)) :
    (order.foldl (bidOnce maxHeight) g).Courted := by
  intro v y hy hp
  rw [(changed_bidsInTurn maxHeight g order).vertices] at hy
  obtain ⟨x, hx, rfl⟩ := Option.map_eq_some_iff.1 hy
  exact Vertex.suitors_hears_ne_nil (hg v x hx) _ hp

/-- A round comes out the same in every order of its bids, for each vertex and for a graph. -/
theorem bids_in_any_order :
    (∀ (x : Vertex) (bs : List (Int × Int)), x.tree = .available → x.suitors = [] → bs ≠ [] →
      ∃ p k ls, Vertex.Outcome bs p k ls ∧ ∀ order : List (Int × Int), order.Perm bs →
        ∃ y, x.hears? order = some y ∧ y.tree = .candidate p ∧
          y.bids.count = x.bids.count + bs.length ∧
          y.settle = .ok
            ({ x with tree := .boundary (some p) (k + 1), bids := {}, suitors := [] }, p, ls)) ∧
    ∀ (g : Graph) (maxHeight : Int) (frontier : List Nat) (order : List (Nat × Nat)),
      order.Perm (g.bidsOf frontier) →
        SettleAlike (order.foldl (bidOnce maxHeight) g) (frontier.foldl (bidAround maxHeight) g) ∧
        (g.Courted → ∃ h next, settleAll (order.foldl (bidOnce maxHeight) g)
          (List.range g.vertices.size) = (h, .ok next)) := by
  constructor
  · intro x bs ht hs hne
    obtain ⟨b, bs, rfl⟩ := List.exists_cons_of_ne_nil hne
    refine ⟨_, _, _, Vertex.outcome_leastBid b bs, fun order horder => ?_⟩
    obtain ⟨c, cs, rfl⟩ := List.exists_cons_of_ne_nil fun hnil : order = [] =>
      hne (hnil ▸ horder).nil_eq.symm
    rw [← Vertex.leastBid_perm horder, ← Vertex.losers_perm _ horder, ← horder.length_eq]
    exact ⟨_, Vertex.hears?_available ht _, Vertex.settle_hears ht hs c cs⟩
  · intro g maxHeight frontier order horder
    have hturn := changed_bidsInTurn maxHeight g order
    have hround := changed_bidsInTurn maxHeight g (g.bidsOf frontier)
    have halike : Alike (order.foldl (bidOnce maxHeight) g)
        ((g.bidsOf frontier).foldl (bidOnce maxHeight) g) :=
      .of_changed hturn hround fun v x => x.sameBids_hears (horder.filterMap _)
    have hlisted : ∀ v, (order.foldl (bidOnce maxHeight) g).isCandidate v = true →
        v ∈ List.range g.vertices.size := fun v hv => by
      obtain ⟨x, hx, -⟩ := phase_of_isCandidate hv
      exact List.mem_range.2 (hturn.size ▸ lt_of_getElem? hx)
    refine ⟨?_, fun hg => ?_⟩
    · rw [SettleAlike, foldl_bidAround, hturn.size, hround.size]
      exact halike.settleAll _ hlisted
    · obtain ⟨h, hok, -⟩ := settleAll_ok List.nodup_range (hg.bidsInTurn maxHeight order)
      exact ⟨h, _, hok⟩

/-- Two vertices of a frontier with the same neighbour. -/
def forkGraph : Graph :=
  let root := { Checkpoint.pairVertex (.upTo 0 1) with tree := .boundary none 0 }
  let other := { Checkpoint.pairVertex (.upTo 1 2) with tree := .boundary none 1 }
  let child := Checkpoint.pairVertex (.upTo 2 1)
  (((({} : Graph).addVertex root).addVertex other).addVertex child).setLink 0 2 {}
    |>.setLink 1 2 {}

theorem bids_in_any_order_fork :
    (∃ p k ls, Vertex.Outcome [(3, 5), (1, 2), (3, 0), (1, 1)] p k ls ∧
      ∃ y, (Checkpoint.pairVertex (.upTo 2 1)).hears? [(1, 1), (3, 0), (1, 2), (3, 5)] =
        some y ∧ y.tree = .candidate p) ∧
    forkGraph.bidsOf [0, 1] = [(0, 2), (1, 2)] ∧
    SettleAlike ([(1, 2), (0, 2)].foldl (bidOnce 7) forkGraph)
      ([0, 1].foldl (bidAround 7) forkGraph) := by
  have hbids : forkGraph.bidsOf [0, 1] = [(0, 2), (1, 2)] := by decide
  refine ⟨?_, hbids, ?_⟩
  · obtain ⟨p, k, ls, hout, h⟩ := bids_in_any_order.1 (Checkpoint.pairVertex (.upTo 2 1))
      [(3, 5), (1, 2), (3, 0), (1, 1)] rfl rfl (by decide)
    obtain ⟨y, hy, hp, -⟩ := h [(1, 1), (3, 0), (1, 2), (3, 5)] (by decide)
    exact ⟨p, k, ls, hout, y, hy, hp⟩
  · exact (bids_in_any_order.2 forkGraph 7 [0, 1] [(1, 2), (0, 2)] (hbids ▸ by decide)).1

/-- The model's first variable is available, and its count of bids is not zero. -/
def countedGraph : Graph :=
  (({} : Graph).addVertex { Checkpoint.pairVertex (.upTo 0 1) with bids := ⟨2⟩ }).addVertex
    (Checkpoint.pairVertex (.upTo 1 2))

/-- A file may hold such a count, and bids are then counted on top of it. -/
theorem bids_on_restored_count :
    ¬ ∀ bytes m g, Checkpoint.load bytes = .ok (m, g) → ∀ x ∈ g.vertices, x.tree = .available →
      x.suitors = [] → ∀ (bs : List (Int × Int)) (y : Vertex), bs ≠ [] → x.hears? bs = some y →
        y.bids.count = bs.length := by
  intro h
  have hcounted : (Checkpoint.load (Checkpoint.save Checkpoint.pairModel countedGraph).bytes
      ).toOption.any fun r => r.2.vertices.any fun x =>
        x.tree = .available ∧ x.suitors = [] ∧ x.bids.count = 2 := by decide +kernel
  obtain ⟨⟨m, g⟩, hl, hany⟩ := exists_ok_of_any hcounted
  obtain ⟨x, hx, hrec⟩ := Array.any_eq_true'.1 hany
  obtain ⟨ht, hs, hc⟩ := of_decide_eq_true hrec
  have hsum := (Vertex.settle_hears ht hs (3, 1) []).2.1
  rw [h _ m g hl x hx ht hs _ _ (List.cons_ne_nil (3, 1) []) (Vertex.hears?_available ht _)] at hsum
  simp [hc] at hsum

end FactorForest.Graph
