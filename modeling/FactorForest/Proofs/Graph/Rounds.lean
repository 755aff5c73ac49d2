import FactorForest.Graph.Growth
import FactorForest.Proofs.Graph.Edges
import FactorForest.Proofs.Vertex

set_option autoImplicit false

namespace FactorForest.Graph

/-- The same graph but for the records of its vertices. -/
structure Changed (f : Nat → Vertex → Vertex) (g h : Graph) : Prop where
  links : h.links = g.links
  colors : h.colors = g.colors
  vertices : ∀ v : Nat, h.vertices[v]? = (g.vertices[v]?).map (f v)

namespace Changed

variable {f f' : Nat → Vertex → Vertex} {g h k : Graph}

theorem refl (g : Graph) : Changed (fun _ x => x) g g := ⟨rfl, rfl, fun v => by simp⟩

theorem trans (hf : Changed f g h) (hf' : Changed f' h k) :
    Changed (fun v x => f' v (f v x)) g k := by
  refine ⟨hf'.links.trans hf.links, hf'.colors.trans hf.colors, ?_⟩
  intro v
  rw [hf'.vertices, hf.vertices, Option.map_map]
  rfl

theorem congr (hf : Changed f g h)
    (he : ∀ (v : Nat) (x : Vertex), g.vertices[v]? = some x → f v x = f' v x) :
    Changed f' g h := by
  refine ⟨hf.links, hf.colors, ?_⟩
  intro v
  rw [hf.vertices]
  cases hx : g.vertices[v]? with
  | none => rfl
  | some x => exact congrArg some (he v x hx)

theorem getElem? (hf : Changed f g h) {v : Nat} {x : Vertex} (hx : g.vertices[v]? = some x) :
    h.vertices[v]? = some (f v x) := by
  rw [hf.vertices, hx, Option.map_some]

theorem size (hf : Changed f g h) : h.vertices.size = g.vertices.size := by
  refine Nat.le_antisymm ?_ ?_ <;> by_contra hlt
  · have hn := hf.vertices g.vertices.size
    rw [Array.getElem?_eq_getElem (by omega), Array.getElem?_eq_none (Nat.le_refl _)] at hn
    exact absurd hn (by simp)
  · have hn := hf.vertices h.vertices.size
    rw [Array.getElem?_eq_none (Nat.le_refl _), Array.getElem?_eq_getElem (by omega)] at hn
    exact absurd hn (by simp)

end Changed

theorem changed_setVertex {g : Graph} {n : Nat} {x : Vertex} (hx : g.vertices[n]? = some x)
    {f : Vertex → Vertex} :
    Changed (fun v y => if v = n then f y else y) g (g.setVertex n (f x)) := by
  refine ⟨rfl, rfl, ?_⟩
  intro v
  rw [getElem?_setVertex hx]
  by_cases hv : v = n
  · simp [hv, hx]
  · simp [hv]

theorem changed_bid (p : Nat) (k : Int) (g : Graph) (w : Nat) :
    Changed (fun v x => if v = w then x.heard p k else x) g (bid p k g w) := by
  rw [bid]
  cases hx : g.vertices[w]? with
  | none =>
    apply (Changed.refl g).congr
    intro v x hv
    by_cases hvw : v = w
    · rw [hvw, hx] at hv
      exact absurd hv (by simp)
    · rw [if_neg hvw]
  | some x =>
    have hs := changed_setVertex hx (f := fun y => y.heard p k)
    cases hp : x.propose p k with
    | some y =>
      have hy : x.heard p k = y := by rw [Vertex.heard, hp, Option.getD_some]
      rw [hy] at hs
      simpa only [hp] using hs
    | none =>
      have hy : x.heard p k = x := by rw [Vertex.heard, hp, Option.getD_none]
      rw [hy, setVertex_self hx] at hs
      simpa only [hp] using hs

theorem changed_bids (p : Nat) (k : Int) {ws : List Nat} (hws : ws.Nodup) (g : Graph) :
    Changed (fun v x => if v ∈ ws then x.heard p k else x) g (ws.foldl (bid p k) g) := by
  induction ws generalizing g with
  | nil => exact (Changed.refl g).congr fun v x _ => by simp
  | cons w ws ih =>
    obtain ⟨hw, hws⟩ := List.nodup_cons.1 hws
    apply ((changed_bid p k g w).trans (ih hws (bid p k g w))).congr
    intro v x _
    by_cases hv : v = w
    · simp [hv, hw]
    · simp [hv]

def Frontier (g : Graph) (k : Int) (ps : List Nat) : Prop :=
  ∀ p ∈ ps, ∃ x q, g.vertices[p]? = some x ∧ x.tree = .boundary q k

def bidders (g : Graph) (maxHeight k : Int) (ps : List Nat) (v : Nat) : List Nat :=
  ps.filter fun p => k < maxHeight ∧ v ∈ g.targets p

theorem changed_bidAround {g : Graph} {p : Nat} {x : Vertex} (hx : g.vertices[p]? = some x)
    (maxHeight : Int) :
    Changed (fun v y => if x.tree.height < maxHeight ∧ v ∈ g.targets p
      then y.heard p x.tree.height else y) g (bidAround maxHeight g p) := by
  rw [bidAround, hx]
  by_cases hm : x.tree.height < maxHeight
  · simp only [hm, if_true, true_and]
    exact changed_bids p x.tree.height ((targets_ascending g p).imp Nat.ne_of_lt) g
  · simp only [hm, if_false, false_and]
    exact Changed.refl g

theorem changed_bidding {g : Graph} {k : Int} {ps : List Nat} (hps : g.Frontier k ps)
    (maxHeight : Int) :
    Changed (fun v y => y.heardAll k (g.bidders maxHeight k ps v)) g
      (ps.foldl (bidAround maxHeight) g) := by
  -- frontier vertices do not hear bids, so each still bids at its height when its turn comes
  induction ps generalizing g with
  | nil => exact Changed.refl g
  | cons p ps ih =>
    obtain ⟨x, q, hx, ht⟩ := hps p List.mem_cons_self
    have hk : x.tree.height = k := by rw [ht]; rfl
    have hp := changed_bidAround hx maxHeight
    rw [hk] at hp
    have hrest : (bidAround maxHeight g p).Frontier k ps := by
      intro u hu
      obtain ⟨y, s, hy, hs⟩ := hps u (List.mem_cons_of_mem p hu)
      have hplace : y.tree.place? = some (s, k) := by rw [hs]; rfl
      refine ⟨y, s, ?_, hs⟩
      rw [hp.getElem? hy, Vertex.heard_of_place? hplace, ite_self]
    apply (hp.trans (ih hrest)).congr
    intro v y _
    have hb : (bidAround maxHeight g p).bidders maxHeight k ps v = g.bidders maxHeight k ps v := by
      simp only [bidders, targets_congr hp.links]
    rw [hb]
    by_cases hv : k < maxHeight ∧ v ∈ g.targets p <;> simp [bidders, hv, Vertex.heardAll_cons]

def isCandidate (g : Graph) (v : Nat) : Bool := (g.vertices[v]?).any fun x => x.phase = .candidate

theorem phase_of_isCandidate {g : Graph} {v : Nat} (h : g.isCandidate v = true) :
    ∃ x, g.vertices[v]? = some x ∧ x.phase = .candidate := by
  cases hx : g.vertices[v]? with
  | none => simp [isCandidate, hx] at h
  | some x => exact ⟨x, rfl, by simpa [isCandidate, hx] using h⟩

theorem phase_of_not_isCandidate {g : Graph} {v : Nat} (h : g.isCandidate v = false) {x : Vertex}
    (hx : g.vertices[v]? = some x) : x.phase ≠ .candidate := by
  simpa [isCandidate, hx] using h

theorem settleAll_pass {g : Graph} {v : Nat} (h : g.isCandidate v = false) (vs : List Nat) :
    settleAll g (v :: vs) = settleAll g vs := by
  rw [settleAll]
  cases hx : g.vertices[v]? with
  | none => rfl
  | some x => simp only [phase_of_not_isCandidate h hx, if_false]

theorem settleAll_settle {g : Graph} {v : Nat} {x y : Vertex} {r : Int × List Int}
    (hx : g.vertices[v]? = some x) (hp : x.phase = .candidate) (hr : x.settle = .ok (y, r))
    (vs : List Nat) :
    settleAll g (v :: vs) = ((settleAll (g.setVertex v y) vs).1,
      (settleAll (g.setVertex v y) vs).2.map (v :: ·)) := by
  rw [settleAll, hx]
  simp only [hp, if_true, hr]

def Courted (g : Graph) : Prop :=
  ∀ (v : Nat) (x : Vertex), g.vertices[v]? = some x → x.phase = .candidate → x.suitors ≠ []

theorem Courted.setVertex {g : Graph} (hg : g.Courted) {v : Nat} {x y : Vertex}
    (hx : g.vertices[v]? = some x) (hy : y.phase ≠ .candidate) : (g.setVertex v y).Courted := by
  intro u z hu hcand
  rw [getElem?_setVertex hx] at hu
  split at hu
  · cases hu
    exact absurd hcand hy
  · exact hg u z hu hcand

theorem isCandidate_setVertex {g : Graph} {v u : Nat} {x : Vertex} (hx : g.vertices[v]? = some x)
    (y : Vertex) (h : u ≠ v) : (g.setVertex v y).isCandidate u = g.isCandidate u := by
  rw [isCandidate, getElem?_setVertex hx, if_neg h, isCandidate]

theorem settleAll_ok {vs : List Nat} (hvs : vs.Nodup) {g : Graph} (hg : g.Courted) :
    ∃ h, settleAll g vs = (h, .ok (vs.filter g.isCandidate)) ∧
      Changed (fun v x => if v ∈ vs then x.settled else x) g h := by
  induction vs generalizing g with
  | nil => exact ⟨g, rfl, (Changed.refl g).congr fun v x _ => by simp⟩
  | cons v vs ih =>
    obtain ⟨hv, hvs⟩ := List.nodup_cons.1 hvs
    cases hn : g.isCandidate v with
    | false =>
      obtain ⟨h, hs, hc⟩ := ih hvs hg
      refine ⟨h, ?_, hc.congr ?_⟩
      · rw [settleAll_pass hn, List.filter_cons_of_neg (by simp [hn]), hs]
      · intro u y hu
        by_cases huv : u = v
        · subst huv
          simp [hv, Vertex.settled_of_phase (phase_of_not_isCandidate hn hu)]
        · simp [huv]
    | true =>
      obtain ⟨x, hx, hp⟩ := phase_of_isCandidate hn
      obtain ⟨c, ht⟩ := Vertex.phase_candidate.1 hp
      obtain ⟨b, bs, hb⟩ := List.exists_cons_of_ne_nil (hg v x hx hp)
      obtain ⟨⟨r, hr⟩, hsettled⟩ := Vertex.settle_of_suitors ht hb
      have hphase : x.settled.phase ≠ .candidate := by
        rw [hsettled]
        simp [Vertex.cleared, Vertex.phase, TreeState.phase]
      have hrest : vs.filter (g.setVertex v x.settled).isCandidate = vs.filter g.isCandidate :=
        List.filter_congr fun u hu => isCandidate_setVertex hx _ fun e => hv (e ▸ hu)
      obtain ⟨h, hs, hc⟩ := ih hvs (hg.setVertex hx hphase)
      have hset := changed_setVertex hx (f := Vertex.settled)
      refine ⟨h, ?_, (hset.trans hc).congr ?_⟩
      · rw [settleAll_settle hx hp hr, hs, hrest, List.filter_cons_of_pos hn]
        rfl
      · intro u y hu
        by_cases huv : u = v
        · simp [huv, hv]
        · simp [huv]

theorem finishAll_ok {ps : List Nat} (hnodup : ps.Nodup) {g : Graph} {k : Int}
    (hps : g.Frontier k ps) :
    ∃ h, finishAll g ps = (h, .ok ()) ∧
      Changed (fun v x => if v ∈ ps then x.finished else x) g h := by
  induction ps generalizing g with
  | nil => exact ⟨g, rfl, (Changed.refl g).congr fun v x _ => by simp⟩
  | cons p ps ih =>
    obtain ⟨hp, hnodup⟩ := List.nodup_cons.1 hnodup
    obtain ⟨x, q, hx, ht⟩ := hps p List.mem_cons_self
    have hset := changed_setVertex hx (f := Vertex.finished)
    obtain ⟨h, hf, hc⟩ := ih (g := g.setVertex p x.finished) hnodup fun u hu => by
      obtain ⟨y, s, hy, hs⟩ := hps u (List.mem_cons_of_mem p hu)
      have hup : u ≠ p := fun e => hp (e ▸ hu)
      exact ⟨y, s, by rw [getElem?_setVertex hx, if_neg hup, hy], hs⟩
    refine ⟨h, ?_, (hset.trans hc).congr ?_⟩
    · rw [finishAll, hx]
      simp only [(Vertex.finished_boundary ht).1]
      exact hf
    · intro u y _
      by_cases hup : u = p
      · simp [hup, hp]
      · simp [hup]

def afterBids (g : Graph) (maxHeight k : Int) (ps : List Nat) (v : Nat) (x : Vertex) : Vertex :=
  x.heardAll k (g.bidders maxHeight k ps v)

def afterRound (g : Graph) (maxHeight k : Int) (ps : List Nat) (v : Nat) (x : Vertex) : Vertex :=
  if v ∈ ps then (g.afterBids maxHeight k ps v x).settled.finished
  else (g.afterBids maxHeight k ps v x).settled

theorem Frontier.of_changed {g h : Graph} {maxHeight k : Int} {ps qs : List Nat}
    (hps : g.Frontier k ps)
    (hc : Changed (fun v x => (g.afterBids maxHeight k qs v x).settled) g h) : h.Frontier k ps := by
  -- the frontier is in the tree already, so neither bids nor settling touch it
  intro p hp
  obtain ⟨x, q, hx, ht⟩ := hps p hp
  have hplace : x.tree.place? = some (q, k) := by rw [ht]; rfl
  have hphase : x.phase ≠ .candidate := by simp [Vertex.phase, TreeState.phase, ht]
  refine ⟨x, q, ?_, ht⟩
  rw [hc.getElem? hx, afterBids, Vertex.heardAll_of_place? hplace, Vertex.settled_of_phase hphase]

theorem Changed.mem_candidates {g h : Graph} {f : Nat → Vertex → Vertex} (hc : Changed f g h)
    (v : Nat) :
    v ∈ (List.range h.vertices.size).filter h.isCandidate ↔
      ∃ x, g.vertices[v]? = some x ∧ (f v x).phase = .candidate := by
  rw [List.mem_filter, List.mem_range, isCandidate, hc.vertices, hc.size]
  cases hx : g.vertices[v]? with
  | none => simp
  | some x => simp [lt_of_getElem? hx]

theorem growFrom_round {g : Graph} {maxHeight k : Int} {ps : List Nat} (hps : g.Frontier k ps)
    (hnodup : ps.Nodup) (hne : ps ≠ [])
    (hbids : ∀ (v : Nat) (x : Vertex), g.vertices[v]? = some x →
      (g.afterBids maxHeight k ps v x).phase = .candidate →
        (g.afterBids maxHeight k ps v x).suitors ≠ []) :
    ∃ h next, (∀ rounds, growFrom maxHeight (rounds + 1) g ps =
        ((growFrom maxHeight rounds h next).1,
          (growFrom maxHeight rounds h next).2.map (next ++ ·))) ∧
      Changed (g.afterRound maxHeight k ps) g h ∧ next.Pairwise (· < ·) ∧
      ∀ v, v ∈ next ↔ ∃ x, g.vertices[v]? = some x ∧
        (g.afterBids maxHeight k ps v x).phase = .candidate := by
  have hb : Changed (g.afterBids maxHeight k ps) g (ps.foldl (bidAround maxHeight) g) :=
    changed_bidding hps maxHeight
  generalize hbid : ps.foldl (bidAround maxHeight) g = bid at hb
  have hcourted : bid.Courted := fun v y hy hcand => by
    rw [hb.vertices] at hy
    obtain ⟨x, hx, rfl⟩ := Option.map_eq_some_iff.1 hy
    exact hbids v x hx hcand
  obtain ⟨s, hs, hc⟩ := settleAll_ok List.nodup_range hcourted
  have hs' : Changed (fun v x => (g.afterBids maxHeight k ps v x).settled) g s := by
    apply (hb.trans hc).congr
    intro v x hx
    rw [if_pos (List.mem_range.2 (hb.size ▸ lt_of_getElem? hx))]
  obtain ⟨h, hf, hc'⟩ := finishAll_ok hnodup (hps.of_changed hs')
  refine ⟨h, (List.range bid.vertices.size).filter bid.isCandidate, ?_,
    (hs'.trans hc').congr fun v x _ => rfl, List.pairwise_lt_range.filter bid.isCandidate,
    hb.mem_candidates⟩
  intro rounds
  obtain ⟨p, qs, rfl⟩ := List.exists_cons_of_ne_nil hne
  rw [growFrom]
  · simp only [hbid, hs, hf]
  · exact List.cons_ne_nil p qs

end FactorForest.Graph
