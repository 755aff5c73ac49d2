import FactorForest.Proofs.Vertex

set_option autoImplicit false

namespace FactorForest.Vertex

variable {x y : Vertex}

/-- The bids of a vertex are counted, a candidate has the least bidder as its tentative parent,
and no other vertex has bids. -/
structure TracksBids (x : Vertex) : Prop where
  count : x.bids.count = x.suitors.length
  bidder : ∀ p, x.tree = .candidate p → ∃ k, (p, k) ∈ x.suitors
  least : ∀ p, x.tree = .candidate p → ∀ b ∈ x.suitors, p ≤ b.1
  quiet : x.phase ≠ .candidate → x.suitors = []

theorem tracksBids_fresh (v : Variable) (ids : List Int) (a : Assignment) (init : Double) :
    (fresh v ids a init).TracksBids :=
  ⟨rfl, nofun, nofun, fun _ => rfl⟩

theorem tracksBids_cleared (x : Vertex) {t : TreeState} (ht : t.phase ≠ .candidate) :
    (x.cleared t).TracksBids := by
  have hne : ∀ p, t ≠ .candidate p := fun p hp => ht (by rw [hp]; rfl)
  exact ⟨rfl, fun p hp => absurd hp (hne p), fun p hp => absurd hp (hne p), fun _ => rfl⟩

theorem TracksBids.advance (hx : x.TracksBids) {t : TreeState} (hc : x.phase ≠ .candidate)
    (ht : t.phase ≠ .candidate) : ({ x with tree := t } : Vertex).TracksBids := by
  have hne : ∀ p, t ≠ .candidate p := fun p hp => ht (by rw [hp]; rfl)
  exact ⟨hx.count, fun p hp => absurd hp (hne p), fun p hp => absurd hp (hne p),
    fun _ => hx.quiet hc⟩

theorem TracksBids.noteBid (hx : x.TracksBids) {b k p : Int}
    (hp : p = b ∨ ∃ j, (p, j) ∈ x.suitors) (hb : p ≤ b) (hs : ∀ c ∈ x.suitors, p ≤ c.1) :
    (x.noteBid b k p).TracksBids := by
  refine ⟨?_, ?_, ?_, fun h => absurd rfl h⟩
  · have hc := hx.count
    simp only [Vertex.noteBid, Tally.raise, List.length_append, List.length_singleton]
    omega
  · rintro q ⟨⟩
    rcases hp with rfl | ⟨j, hj⟩
    · exact ⟨k, List.mem_append_right _ (List.mem_singleton_self _)⟩
    · exact ⟨j, List.mem_append_left _ hj⟩
  · rintro q ⟨⟩ c hc
    rcases List.mem_append.1 hc with hc | hc
    · exact hs c hc
    · rw [List.mem_singleton.1 hc]
      exact hb

theorem TracksBids.bid (hx : x.TracksBids) {b k : Int} (hy : x.propose b k = some y) :
    y.TracksBids := by
  rcases propose_eq_some_iff.1 hy with ⟨ht, rfl⟩ | ⟨p, ht, rfl⟩
  · have hnone : x.suitors = [] := hx.quiet (by simp [phase, TreeState.phase, ht])
    exact hx.noteBid (.inl rfl) (Int.le_refl b) (by simp [hnone])
  · -- the lower of the new bidder and the tentative parent stays below every earlier bidder
    have hleast := hx.least p ht
    by_cases hb : b < p
    · rw [if_pos hb]
      exact hx.noteBid (.inl rfl) (Int.le_refl b) fun c hc => by
        have hpc := hleast c hc
        omega
    · rw [if_neg hb]
      exact hx.noteBid (.inr (hx.bidder p ht)) (Int.not_lt.1 hb) hleast

theorem TracksBids.step (hx : x.TracksBids) (h : x.Step y) : y.TracksBids := by
  cases h with
  | root h =>
    obtain ⟨ht, rfl⟩ := makeRoot_eq_ok_iff.1 h
    exact hx.advance (by simp [phase, TreeState.phase, ht]) (by simp [TreeState.phase])
  | bid b k h => exact hx.bid h
  | settle q ls h =>
    obtain ⟨p, b, bs, -, -, rfl, -⟩ := settle_eq_ok_iff.1 h
    exact x.tracksBids_cleared (by simp [TreeState.phase])
  | reject h =>
    obtain ⟨-, rfl⟩ := reject_eq_ok_iff.1 h
    exact x.tracksBids_cleared (by simp [TreeState.phase])
  | finish h =>
    obtain ⟨p, k, ht, rfl⟩ := finish_eq_ok_iff.1 h
    exact hx.advance (by simp [phase, TreeState.phase, ht]) (by simp [TreeState.phase])
  | markUp m h =>
    obtain ⟨p, k, n, ht, rfl, -⟩ := markUp_eq_ok_iff.1 h
    exact hx.advance (by simp [phase, TreeState.phase, ht]) (by simp [TreeState.phase])
  | calibrate n h =>
    obtain ⟨p, k, ht, rfl⟩ := calibrate_eq_ok_iff.1 h
    exact hx.advance (by simp [phase, TreeState.phase, ht]) (by simp [TreeState.phase])
  | clear h => exact h ▸ x.tracksBids_cleared (by simp [TreeState.phase])

theorem TracksBids.settle (hx : x.TracksBids) {p : Int} (ht : x.tree = .candidate p) :
    ∃ k ls, (p, k) ∈ x.suitors ∧
      x.settle = .ok (x.cleared (.boundary (some p) (k + 1)), p, ls) := by
  obtain ⟨j, hj⟩ := hx.bidder p ht
  cases hs : x.suitors with
  | nil => exact absurd (hs ▸ hj) List.not_mem_nil
  | cons b bs =>
    have hmem : leastBid b bs ∈ x.suitors := hs ▸ leastBid_mem b bs
    -- bidders are compared before heights, so the least bid comes from the least bidder
    have hle : (leastBid b bs).1 ≤ p := leastBid_fst_le b bs (p, j) (hs ▸ hj)
    have hp : (leastBid b bs).1 = p := Int.le_antisymm hle (hx.least p ht _ hmem)
    refine ⟨(leastBid b bs).2, losers p (b :: bs), ?_, ?_⟩
    · rw [← hs, ← hp]
      exact hmem
    · exact settle_eq_ok_iff.2 ⟨p, b, bs, ht, hs, by rw [hp], hp.symm, by rw [hp]⟩

end FactorForest.Vertex
