import FactorForest.Proofs.Bids
import Mathlib.Data.List.Perm.Basic
import Mathlib.Data.List.Sort

set_option autoImplicit false

namespace FactorForest

theorem Tally.raise_raise (t : Tally) (m n : Int) : (t.raise m).raise n = t.raise (m + n) :=
  congrArg Tally.mk (Int.add_assoc t.count m n)

namespace Vertex

variable {x y : Vertex} {bs cs : List (Int × Int)}

theorem leastBid_perm {b c : Int × Int} (h : (b :: bs).Perm (c :: cs)) :
    leastBid b bs = leastBid c cs := by
  have hb := leastBid_le b bs _ (h.mem_iff.2 (leastBid_mem c cs))
  have hc := leastBid_le c cs _ (h.mem_iff.1 (leastBid_mem b bs))
  exact toLex_inj.1 (le_antisymm hb hc)

theorem leastBid_of_lt {b : Int × Int} {bs : List (Int × Int)} (h : ∀ c ∈ bs, b.1 < c.1) :
    leastBid b bs = b := by
  induction bs with
  | nil => rfl
  | cons c cs ih =>
    have hc := h c List.mem_cons_self
    have hl : lesserBid b c = b := if_neg (by omega)
    change leastBid (lesserBid b c) cs = b
    rw [hl]
    exact ih fun d hd => h d (List.mem_cons_of_mem c hd)

theorem mem_insertOnce {m n : Int} {ls : List Int} : m ∈ insertOnce n ls ↔ m = n ∨ m ∈ ls := by
  induction ls with
  | nil => simp [insertOnce]
  | cons l ls ih =>
    rw [insertOnce]
    split
    · simp
    · split
      · rename_i hn
        simp [hn]
      · simp only [List.mem_cons, ih]
        exact or_left_comm

theorem insertOnce_ascending {n : Int} {ls : List Int} (h : ls.Pairwise (· < ·)) :
    (insertOnce n ls).Pairwise (· < ·) := by
  induction ls with
  | nil => exact List.pairwise_singleton _ n
  | cons l ls ih =>
    obtain ⟨hl, hls⟩ := List.pairwise_cons.1 h
    rw [insertOnce]
    split
    · rename_i hn
      refine List.pairwise_cons.2 ⟨fun m hm => ?_, h⟩
      rcases List.mem_cons.1 hm with rfl | hm
      · exact hn
      · exact hn.trans (hl m hm)
    · split
      · exact h
      · refine List.pairwise_cons.2 ⟨fun m hm => ?_, ih hls⟩
        rcases mem_insertOnce.1 hm with rfl | hm
        · omega
        · exact hl m hm

theorem losers_ascending (p : Int) (bs : List (Int × Int)) : (losers p bs).Pairwise (· < ·) := by
  unfold losers
  induction bs.filter fun b => b.1 ≠ p with
  | nil => exact .nil
  | cons b bs ih => exact insertOnce_ascending ih

theorem mem_foldr_insertOnce {q : Int} :
    q ∈ bs.foldr (fun b ls => insertOnce b.1 ls) [] ↔ ∃ b ∈ bs, b.1 = q := by
  induction bs with
  | nil => simp
  | cons b bs ih => simp [mem_insertOnce, ih, eq_comm]

theorem mem_losers {p q : Int} : q ∈ losers p bs ↔ q ≠ p ∧ ∃ k, (q, k) ∈ bs := by
  rw [losers, mem_foldr_insertOnce]
  constructor
  · rintro ⟨⟨r, k⟩, hb, rfl⟩
    obtain ⟨hmem, hne⟩ := List.mem_filter.1 hb
    exact ⟨of_decide_eq_true hne, k, hmem⟩
  · rintro ⟨hne, k, hk⟩
    exact ⟨(q, k), List.mem_filter.2 ⟨hk, decide_eq_true hne⟩, rfl⟩

theorem losers_perm (p : Int) (h : bs.Perm cs) : losers p bs = losers p cs := by
  apply (losers_ascending p bs).eq_of_mem_iff (losers_ascending p cs)
  intro q
  simp only [mem_losers, h.mem_iff]

/-- The same vertex but for the order in which the suitors of a candidate came. -/
structure SameBids (x y : Vertex) : Prop where
  record : y = { x with suitors := y.suitors }
  suitors : x.suitors.Perm y.suitors
  quiet : x.phase ≠ .candidate → x = y

theorem SameBids.refl (x : Vertex) : x.SameBids x := ⟨rfl, .refl _, fun _ => rfl⟩

theorem SameBids.phase_eq (h : x.SameBids y) : y.phase = x.phase := by
  rw [h.record]
  rfl

theorem SameBids.settle_eq (h : x.SameBids y) : x.settle = y.settle := by
  obtain ⟨hy, hperm, -⟩ := h
  cases hx : x.suitors with
  | nil =>
    have hnil : y.suitors = [] := (hx ▸ hperm).nil_eq.symm
    rw [hy, hnil, ← hx]
  | cons b bs =>
    rw [hx] at hperm
    obtain ⟨c, cs, hc⟩ := List.exists_cons_of_ne_nil fun hnil : y.suitors = [] =>
      List.cons_ne_nil b bs (hnil ▸ hperm).eq_nil
    rw [hc] at hperm hy
    have hsettle : ∀ d ds, ({ x with suitors := d :: ds } : Vertex).settle =
        (x.require .candidate >>= fun _ =>
          pure (x.cleared (.boundary (some (leastBid d ds).1) ((leastBid d ds).2 + 1)),
            (leastBid d ds).1, losers (leastBid d ds).1 (d :: ds))) := fun _ _ => rfl
    have hxs : x = { x with suitors := b :: bs } := hx ▸ rfl
    rw [hy, hsettle, hxs, hsettle, leastBid_perm hperm, losers_perm _ hperm]
    rfl

/-- The vertex after bids in turn; those that it refuses change nothing. -/
def hears (x : Vertex) (bs : List (Int × Int)) : Vertex := bs.foldl (fun y b => y.heard b.1 b.2) x

def hears? (x : Vertex) (bs : List (Int × Int)) : Option Vertex :=
  bs.foldlM (fun y b => y.propose b.1 b.2) x

def noteBids (x : Vertex) (bs : List (Int × Int)) (p : Int) : Vertex :=
  { x with
    tree := .candidate p
    bids := x.bids.raise bs.length
    suitors := x.suitors ++ bs }

theorem hears_cons (x : Vertex) (b : Int × Int) (bs : List (Int × Int)) :
    x.hears (b :: bs) = (x.heard b.1 b.2).hears bs := rfl

theorem heard_available (ht : x.tree = .available) (b k : Int) :
    x.heard b k = x.noteBids [(b, k)] b := by
  simp [heard, propose, ht, noteBid, noteBids]

theorem heard_candidate {c : Int} (ht : x.tree = .candidate c) (b k : Int) :
    x.heard b k = x.noteBids [(b, k)] (min c b) := by
  have hmin : (if b < c then b else c) = min c b := by
    split <;> omega
  simp [heard, propose, ht, noteBid, noteBids, hmin]

theorem height_heard (x : Vertex) (b k : Int) : (x.heard b k).tree.height = x.tree.height := by
  cases ht : x.tree with
  | available => rw [heard_available ht]; rfl
  | candidate c => rw [heard_candidate ht]; rfl
  | boundary p h | treeNode p h n | calibrated p h =>
    have hplace : x.tree.place? = some (p, h) := by rw [ht]; rfl
    rw [heard_of_place? hplace, ht]

theorem noteBids_noteBids (x : Vertex) (bs cs : List (Int × Int)) (p q : Int) :
    (x.noteBids bs p).noteBids cs q = x.noteBids (bs ++ cs) q := by
  simp [noteBids, Tally.raise_raise]

theorem hears_candidate {c : Int} (ht : x.tree = .candidate c) (bs : List (Int × Int)) :
    x.hears bs = x.noteBids bs ((bs.map (·.1)).foldl min c) := by
  induction bs generalizing x c with
  | nil =>
    have hb : x.bids.raise 0 = x.bids := congrArg Tally.mk (Int.add_zero _)
    simp [hears, noteBids, hb, ← ht]
  | cons b bs ih =>
    rw [hears_cons, heard_candidate ht, ih (c := min c b.1) rfl, noteBids_noteBids]
    rfl

theorem hears_available (ht : x.tree = .available) (b : Int × Int) (bs : List (Int × Int)) :
    x.hears (b :: bs) = x.noteBids (b :: bs) ((bs.map (·.1)).foldl min b.1) := by
  rw [hears_cons, heard_available ht, hears_candidate (c := b.1) rfl, noteBids_noteBids]
  rfl

theorem hears_of_place? {l : Option Int × Int} (h : x.tree.place? = some l)
    (bs : List (Int × Int)) : x.hears bs = x := by
  induction bs with
  | nil => rfl
  | cons b bs ih => rw [hears_cons, heard_of_place? h, ih]

theorem hears?_candidate {c : Int} (ht : x.tree = .candidate c) (bs : List (Int × Int)) :
    x.hears? bs = some (x.hears bs) := by
  induction bs generalizing x c with
  | nil => rfl
  | cons b bs ih =>
    have hp : x.propose b.1 b.2 = some (x.heard b.1 b.2) := by simp [heard, propose, ht]
    have hrest := ih (x := x.heard b.1 b.2) (c := min c b.1) (by rw [heard_candidate ht]; rfl)
    rw [hears_cons, ← hrest, hears?, List.foldlM_cons, hp]
    rfl

theorem hears?_available (ht : x.tree = .available) (bs : List (Int × Int)) :
    x.hears? bs = some (x.hears bs) := by
  cases bs with
  | nil => rfl
  | cons b bs =>
    have hp : x.propose b.1 b.2 = some (x.heard b.1 b.2) := by simp [heard, propose, ht]
    have hrest := hears?_candidate (x := x.heard b.1 b.2) (c := b.1)
      (by rw [heard_available ht]; rfl) bs
    rw [hears_cons, ← hrest, hears?, List.foldlM_cons, hp]
    rfl

theorem foldl_min_perm {b c : Int × Int} (h : (b :: bs).Perm (c :: cs)) :
    (bs.map (·.1)).foldl min b.1 = (cs.map (·.1)).foldl min c.1 := by
  have hmin : ((b :: bs).map (·.1)).min? = ((c :: cs).map (·.1)).min? := by
    apply Option.ext
    intro p
    simp only [List.min?_eq_some_iff, (h.map Prod.fst).mem_iff]
  exact Option.some.inj hmin

theorem sameBids_noteBids (x : Vertex) (h : bs.Perm cs) (p : Int) :
    (x.noteBids bs p).SameBids (x.noteBids cs p) := by
  refine ⟨?_, h.append_left x.suitors, fun hp => absurd rfl hp⟩
  simp [noteBids, h.length_eq]

/-- The order of bids is told by the order of the suitors and by nothing else. -/
theorem sameBids_hears (x : Vertex) (h : bs.Perm cs) : (x.hears bs).SameBids (x.hears cs) := by
  cases ht : x.tree with
  | available =>
    cases bs with
    | nil => exact h.nil_eq ▸ .refl _
    | cons b bs =>
      obtain ⟨c, cs, rfl⟩ := List.exists_cons_of_ne_nil fun hnil : cs = [] =>
        List.cons_ne_nil b bs (hnil ▸ h).eq_nil
      rw [hears_available ht, hears_available ht, foldl_min_perm h]
      exact sameBids_noteBids x h _
  | candidate c =>
    have hmin : (bs.map (·.1)).foldl min c = (cs.map (·.1)).foldl min c :=
      (h.map Prod.fst).foldl_eq c
    rw [hears_candidate ht, hears_candidate ht, hmin]
    exact sameBids_noteBids x h _
  | boundary p k | treeNode p k n | calibrated p k =>
    have hplace : x.tree.place? = some (p, k) := by rw [ht]; rfl
    rw [hears_of_place? hplace, hears_of_place? hplace]
    exact .refl x

theorem suitors_hears_ne_nil (hx : x.phase = .candidate → x.suitors ≠ []) (bs : List (Int × Int))
    (hp : (x.hears bs).phase = .candidate) : (x.hears bs).suitors ≠ [] := by
  cases ht : x.tree with
  | available =>
    cases bs with
    | nil => exact hx hp
    | cons b bs =>
      rw [hears_available ht]
      exact fun hnil => List.cons_ne_nil b bs (List.append_eq_nil_iff.1 hnil).2
  | candidate c =>
    rw [hears_candidate ht]
    exact fun hnil => hx (phase_candidate.2 ⟨c, ht⟩) (List.append_eq_nil_iff.1 hnil).1
  | boundary p k | treeNode p k n | calibrated p k =>
    have hplace : x.tree.place? = some (p, k) := by rw [ht]; rfl
    rw [hears_of_place? hplace] at hp ⊢
    exact hx hp

/-- What a round of bids comes to: the least bidder `p`, the least height `k` that it bid from, and
the other bidders, ascending. -/
structure Outcome (bs : List (Int × Int)) (p k : Int) (ls : List Int) : Prop where
  bid : (p, k) ∈ bs
  bidder : ∀ b ∈ bs, p ≤ b.1
  height : ∀ h, (p, h) ∈ bs → k ≤ h
  ascending : ls.Pairwise (· < ·)
  losers : ∀ q, q ∈ ls ↔ q ≠ p ∧ ∃ h, (q, h) ∈ bs

theorem outcome_leastBid (b : Int × Int) (bs : List (Int × Int)) :
    Outcome (b :: bs) (leastBid b bs).1 (leastBid b bs).2 (losers (leastBid b bs).1 (b :: bs)) := by
  refine ⟨leastBid_mem b bs, leastBid_fst_le b bs, fun h hh => ?_, losers_ascending _ _,
    fun q => mem_losers⟩
  have hle := Prod.Lex.toLex_le_toLex.1 (leastBid_le b bs _ hh)
  simpa using hle

/-- A vertex without suitors settles on the least of the bids that it heard. -/
theorem settle_hears (ht : x.tree = .available) (hs : x.suitors = []) (b : Int × Int)
    (bs : List (Int × Int)) :
    (x.hears (b :: bs)).tree = .candidate (leastBid b bs).1 ∧
      (x.hears (b :: bs)).bids.count = x.bids.count + (b :: bs).length ∧
      (x.hears (b :: bs)).settle = .ok
        ({ x with
            tree := .boundary (some (leastBid b bs).1) ((leastBid b bs).2 + 1)
            bids := {}
            suitors := [] },
          (leastBid b bs).1, losers (leastBid b bs).1 (b :: bs)) := by
  have hsuitors : (x.hears (b :: bs)).suitors = b :: bs := by
    rw [hears_available ht, noteBids, hs]
    rfl
  have hmin : (bs.map (·.1)).foldl min b.1 = (leastBid b bs).1 := by
    have h : ((b :: bs).map (·.1)).min? = some (leastBid b bs).1 :=
      List.min?_eq_some_iff.2 ⟨List.mem_map_of_mem (leastBid_mem b bs), fun p hp => by
        obtain ⟨c, hc, rfl⟩ := List.mem_map.1 hp
        exact leastBid_fst_le b bs c hc⟩
    exact Option.some.inj h
  have htree : (x.hears (b :: bs)).tree = .candidate (leastBid b bs).1 := by
    rw [hears_available ht, hmin]
    rfl
  refine ⟨htree, by rw [hears_available ht]; rfl, ?_⟩
  refine settle_eq_ok_iff.2 ⟨_, b, bs, htree, hsuitors, ?_, rfl, rfl⟩
  rw [hears_available ht]
  rfl

theorem heardAll_eq (x : Vertex) (k : Int) (ps : List Nat) :
    x.heardAll k ps = x.hears (ps.map fun p : Nat => ((p : Int), k)) := by
  rw [hears, List.foldl_map]
  rfl

theorem settled_heardAll (ht : x.tree = .available) (hs : x.suitors = []) (k : Int) {p : Nat}
    {ps : List Nat} (hps : (p :: ps).Pairwise (· < ·)) :
    (x.heardAll k (p :: ps)).phase = .candidate ∧ (x.heardAll k (p :: ps)).suitors ≠ [] ∧
      (x.heardAll k (p :: ps)).settled =
        x.cleared (.boundary (some (p : Int)) (k + 1)) := by
  have hl : leastBid ((p : Int), k) (ps.map fun q : Nat => ((q : Int), k)) = ((p : Int), k) :=
    leastBid_of_lt fun b hb => by
      obtain ⟨q, hq, rfl⟩ := List.mem_map.1 hb
      exact Int.ofNat_lt.2 ((List.pairwise_cons.1 hps).1 q hq)
  rw [heardAll_eq, List.map_cons]
  obtain ⟨htree, -, hsettle⟩ := settle_hears ht hs ((p : Int), k)
    (ps.map fun q : Nat => ((q : Int), k))
  have hphase := phase_candidate.2 ⟨_, htree⟩
  refine ⟨hphase, suitors_hears_ne_nil (fun hp => ?_) _ hphase, ?_⟩
  · simp [phase, TreeState.phase, ht] at hp
  · rw [settled, hsettle, hl]
    rfl

end Vertex
end FactorForest
