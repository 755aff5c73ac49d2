import FactorForest.Proofs.Bids
import FactorForest.Proofs.Checkpoint.Recovery
import FactorForest.Proofs.Graph.Forest

/-!
A candidacy survives a checkpoint. Bids are not stored, only the tentative parent of a candidate is;
it comes back as the one suitor, at the height that it has itself. That is the bid that wins: the
tentative parent is the least bidder, and no bidder has moved in its tree since it bid.
-/

set_option autoImplicit false

namespace FactorForest

theorem TreeState.height_of_place? {t : TreeState} {p : Option Int} {h : Int}
    (hp : t.place? = some (p, h)) : t.height = h := by
  rcases place?_eq_some_iff.1 hp with rfl | ⟨n, rfl⟩ | rfl <;> rfl

/-- Two vertices in the same phase that, if they are candidates, are accepted by the same parent at
the same height, with nothing left of the bids. -/
def Vertex.SettlesLike (x y : Vertex) : Prop :=
  x.phase = y.phase ∧ (y.phase = .candidate → ∃ x' y' p ls ls',
    x.settle = .ok (x', p, ls) ∧ y.settle = .ok (y', p, ls') ∧ x'.tree = y'.tree ∧
      x'.bids.count = 0 ∧ y'.bids.count = 0 ∧ x'.suitors = [] ∧ y'.suitors = [])

namespace Graph

/-- Every candidate settles on its tentative parent, which is a vertex, one higher than that. -/
def CandidatesSettle (g : Graph) : Prop :=
  ∀ (i : Nat) (x : Vertex) (p : Int), g.vertices[i]? = some x → x.tree = .candidate p →
    ∃ (q : Nat) (parent : Vertex) (ls : List Int), p = q ∧ g.vertices[q]? = some parent ∧
      x.settle = .ok (x.cleared (.boundary (some p) (parent.tree.height + 1)), p, ls)

variable {g h : Graph}

theorem Restored.candidatesSettle (hg : g.Restored) : g.CandidatesSettle := by
  intro i x p hx hp
  have hmem := Array.mem_of_getElem? hx
  obtain ⟨q, rfl, hq⟩ := holds_iff.1 (hg.parents x hmem p hp)
  obtain ⟨parent, hparent⟩ := exists_getElem? hq
  refine ⟨q, parent, [], rfl, hparent, Vertex.settle_eq_ok_iff.2 ?_⟩
  refine ⟨q, (q, g.heightAt q), [], hp, hg.suitor x hmem q hp, ?_, rfl, ?_⟩
  · simp [heightAt, hparent, Vertex.leastBid]
  · simp [Vertex.leastBid, Vertex.losers]

theorem BidFor.parent {v : Nat} {b : Int × Int} (hb : g.BidFor v b) :
    ∃ (q : Nat) (parent : Vertex), b.1 = q ∧ g.vertices[q]? = some parent ∧
      parent.tree.height = b.2 := by
  obtain ⟨q, r, hq, hplace, -⟩ := hb
  obtain ⟨parent, hparent, hp⟩ := Option.bind_eq_some_iff.1 hplace
  exact ⟨q, parent, hq, hparent, TreeState.height_of_place? hp⟩

theorem Grown.candidatesSettle (hg : g.Grown) (ht : ∀ x ∈ g.vertices, x.TracksBids) :
    g.CandidatesSettle := by
  intro i x p hx hp
  obtain ⟨k, ls, hk, hs⟩ := (ht x (Array.mem_of_getElem? hx)).settle hp
  obtain ⟨q, parent, hq, hparent, hheight⟩ := (hg.suitors i x hx _ hk).2.parent
  exact ⟨q, parent, ls, hq, hparent, by rw [hheight]; exact hs⟩

theorem Grown.parent_nonneg (hg : g.Grown) (ht : ∀ x ∈ g.vertices, x.TracksBids) {x : Vertex}
    (hx : x ∈ g.vertices) {p : Int} (hp : x.tree.parent = some p) : 0 ≤ p := by
  obtain ⟨i, hi⟩ := Array.mem_iff_getElem?.1 hx
  have hcandidate : ∀ q, x.tree = .candidate q → 0 ≤ q := fun q hq => by
    obtain ⟨n, -, -, rfl, -⟩ := hg.candidatesSettle ht i x q hi hq
    exact Int.natCast_nonneg n
  have hplaced : ∀ k, x.tree.place? = some (some p, k) → 0 ≤ p := fun k hk => by
    rcases hg.attached i (some p) k ((place?_of_getElem? hi).trans hk) with ⟨hn, -⟩ | ⟨q, r, hq, -⟩
    · exact nomatch hn
    · cases hq
      exact Int.natCast_nonneg q
  -- a tentative parent is a bidder, the parent in a tree comes from the forest invariant
  cases htree : x.tree with
  | available => rw [htree] at hp; exact nomatch hp
  | candidate q =>
    rw [htree] at hp
    cases hp
    exact hcandidate p htree
  | boundary q k | treeNode q k n | calibrated q k =>
    rw [htree] at hp
    exact hplaced k (by rw [htree, ← hp]; rfl)

theorem CandidatesSettle.settlesLike {f : Vertex → Vertex} (hg : g.CandidatesSettle)
    (hh : h.CandidatesSettle) (hv : h.vertices = g.vertices.map f)
    (hphase : ∀ x, (f x).phase = x.phase) (hparent : ∀ x, (f x).tree.parent = x.tree.parent)
    (hheight : ∀ x, (f x).tree.height = x.tree.height) {i : Nat} {x : Vertex}
    (hx : g.vertices[i]? = some x) : (f x).SettlesLike x := by
  refine ⟨hphase x, fun hc => ?_⟩
  have hy : h.vertices[i]? = some (f x) := by rw [hv, Array.getElem?_map, hx]; rfl
  obtain ⟨p, hp⟩ := Vertex.phase_candidate.1 hc
  obtain ⟨p', hp'⟩ := Vertex.phase_candidate.1 ((hphase x).trans hc)
  -- both settle on the same parent, whose height `f` keeps
  have hpp : p' = p := by
    have h := hparent x
    rw [hp, hp'] at h
    exact Option.some.inj h
  obtain ⟨q, parent, ls, hq, hpar, hs⟩ := hg i x p hx hp
  obtain ⟨q', parent', ls', hq', hpar', hs'⟩ := hh i (f x) p' hy hp'
  have hqq : q' = q := by omega
  have hpf : parent' = f parent := by
    rw [hqq, hv, Array.getElem?_map, hpar] at hpar'
    exact (Option.some.inj hpar').symm
  rw [hpf, hheight, hpp] at hs'
  exact ⟨_, _, p, ls', ls, hs', hs, rfl, rfl, rfl, rfl, rfl⟩

end Graph

namespace Checkpoint

theorem tracksBids_moves {m : Model} {init : Double} {draws : Draws} {g : Graph}
    (h : Graph.ofModel m init draws = .ok g) (ms : List Graph.Move) :
    ∀ x ∈ (g.moves ms).vertices, x.TracksBids :=
  Graph.forall_moves (fun _ _ hx hy => hx.step hy)
    (Graph.forall_ofModel (fun v ids a => Vertex.tracksBids_fresh v ids a init) h) ms

/-- Candidates of a loaded graph settle on their tentative parents, and just as they would have
settled in the graph that was saved in the middle of a round. -/
theorem candidacy_survives :
    (∀ bytes m g, load bytes = .ok (m, g) → g.CandidatesSettle) ∧
      ∀ (m : Model) (init : Double) (draws : Draws) (g : Graph), Graph.ofModel m init draws = .ok g →
        ∀ (ms : List Graph.Move) (m₁ m₂ : Model) (h : Graph),
          (save m₁ (g.moves ms)).fault = none →
          load (save m₁ (g.moves ms)).bytes = .ok (m₂, h) →
          h.vertices.size = (g.moves ms).vertices.size ∧
            ∀ (i : Nat) (x : Vertex), (g.moves ms).vertices[i]? = some x →
              ∃ y, h.vertices[i]? = some y ∧ y.SettlesLike x := by
  have hloaded : ∀ bytes m g, load bytes = .ok (m, g) → g.CandidatesSettle := fun _ _ _ hl =>
    (restored_of_load hl).2.1.candidatesSettle
  refine ⟨hloaded, ?_⟩
  intro m init draws g hg ms m₁ m₂ h hs hl
  have hgrown := (Graph.idle_ofModel hg).grown.moves ms
  have htracks := tracksBids_moves hg ms
  -- what is loaded are the saved vertices, with one suitor for each tentative parent
  obtain ⟨heights, hv⟩ : ∃ heights, h.vertices =
      (g.moves ms).vertices.map fun x => x.stored.rejoined heights := by
    have hvertices := vertices_load_save (fun x hx _ => hgrown.parent_nonneg htracks hx) hs hl
    exact ⟨_, by rw [hvertices, Graph.rejoined, Array.map_map]; rfl⟩
  refine ⟨by simp [hv], fun i x hx => ⟨x.stored.rejoined heights, ?_, ?_⟩⟩
  · rw [hv, Array.getElem?_map, hx]
    rfl
  · have hrecord := fun y : Vertex => y.sameRecord_rejoined heights
    exact (hgrown.candidatesSettle htracks).settlesLike (hloaded _ _ _ hl) hv
      (fun y => (hrecord y).phase) (fun y => (hrecord y).parent) (fun y => (hrecord y).height) hx

/-- Two trees have bid for the vertex between them, which has not settled. -/
def waitingMoves : List Graph.Move := [.root 2, .root 0, .bid 2 1, .bid 0 1]

theorem candidacy_survives_chain :
    ∃ g m h, Graph.ofModel Graph.chainModel .zero (Draws.ofList [1, 0, 1]) = .ok g ∧
      load (save Graph.chainModel (g.moves waitingMoves)).bytes = .ok (m, h) ∧
      h.CandidatesSettle ∧ ∃ x y, (g.moves waitingMoves).vertices[1]? = some x ∧
        x.phase = .candidate ∧ h.vertices[1]? = some y ∧ y.SettlesLike x := by
  have hrun : (Graph.ofModel Graph.chainModel .zero (Draws.ofList [1, 0, 1])).toOption.any fun g =>
      (save Graph.chainModel (g.moves waitingMoves)).fault = none &&
        (load (save Graph.chainModel (g.moves waitingMoves)).bytes).toOption.any (fun _ => true) &&
        (g.moves waitingMoves).vertices[1]?.any (·.phase = .candidate) := by decide +kernel
  obtain ⟨g, hg, hrun⟩ := exists_ok_of_any hrun
  rw [Bool.and_eq_true, Bool.and_eq_true, decide_eq_true_eq] at hrun
  obtain ⟨⟨hs, hload⟩, hcandidate⟩ := hrun
  obtain ⟨⟨m, h⟩, hl, -⟩ := exists_ok_of_any hload
  obtain ⟨x, hx, hc⟩ := (Option.any_eq_true _ _).1 hcandidate
  obtain ⟨-, hlike⟩ := candidacy_survives.2 _ _ _ g hg waitingMoves _ m h hs hl
  obtain ⟨y, hy, hxy⟩ := hlike 1 x hx
  exact ⟨g, m, h, hg, hl, candidacy_survives.1 _ m h hl, x, y, hx, of_decide_eq_true hc, hy, hxy⟩

end Checkpoint
end FactorForest
