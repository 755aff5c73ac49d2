import FactorForest.Proofs.Fault
import FactorForest.Vertex
import Mathlib.Data.List.Basic
import Mathlib.Data.Prod.Lex

set_option autoImplicit false

namespace FactorForest

def TreeState.place? (t : TreeState) : Option (Option Int × Int) :=
  t.height?.map fun h => (t.parent, h)

theorem TreeState.place?_eq_some_iff {t : TreeState} {p : Option Int} {h : Int} :
    t.place? = some (p, h) ↔
      t = .boundary p h ∨ (∃ n, t = .treeNode p h n) ∨ t = .calibrated p h := by
  cases t <;> simp [place?, height?, parent]

namespace Vertex

variable {x y : Vertex}

theorem phase_available : x.phase = .available ↔ x.tree = .available := by
  cases h : x.tree <;> simp [phase, TreeState.phase, h]

theorem phase_candidate : x.phase = .candidate ↔ ∃ p, x.tree = .candidate p := by
  cases h : x.tree <;> simp [phase, TreeState.phase, h]

theorem phase_boundary : x.phase = .boundary ↔ ∃ p h, x.tree = .boundary p h := by
  cases h : x.tree <;> simp [phase, TreeState.phase, h]

theorem require_eq_ok_iff {p : Phase} {u : Unit} : x.require p = .ok u ↔ x.phase = p := by
  by_cases h : x.phase = p <;> simp [require, h]

theorem require_bind_eq_ok_iff {α : Type} {p : Phase} {r : Except Fault α} {a : α} :
    (x.require p >>= fun _ => r) = .ok a ↔ x.phase = p ∧ r = .ok a := by
  simp only [bind_eq_ok_iff, require_eq_ok_iff, exists_and_left, exists_const]

theorem makeRoot_eq_ok_iff :
    x.makeRoot = .ok y ↔ x.tree = .available ∧ y = { x with tree := .boundary none 0 } := by
  rw [makeRoot, require_bind_eq_ok_iff, phase_available, pure_eq_ok_iff]

theorem propose_eq_some_iff {b h : Int} :
    x.propose b h = some y ↔ (x.tree = .available ∧ y = x.noteBid b h b) ∨
      ∃ p, x.tree = .candidate p ∧ y = x.noteBid b h (if b < p then b else p) := by
  cases ht : x.tree <;> simp [propose, ht, eq_comm]

def leastBid (b : Int × Int) (bs : List (Int × Int)) : Int × Int := bs.foldl lesserBid b

theorem leastBid_mem (b : Int × Int) (bs : List (Int × Int)) : leastBid b bs ∈ b :: bs := by
  induction bs generalizing b with
  | nil => exact List.mem_singleton_self b
  | cons c cs ih =>
    change leastBid (lesserBid b c) cs ∈ b :: c :: cs
    rcases List.mem_cons.1 (ih (lesserBid b c)) with h | h
    · rw [h, lesserBid]
      split
      · exact List.mem_cons_of_mem b List.mem_cons_self
      · exact List.mem_cons_self
    · exact List.mem_cons_of_mem b (List.mem_cons_of_mem c h)

/-- Bids are compared by their bidders and then by their heights. -/
theorem lesserBid_le (a b : Int × Int) :
    toLex (lesserBid a b) ≤ toLex a ∧ toLex (lesserBid a b) ≤ toLex b := by
  simp only [lesserBid, Prod.Lex.toLex_le_toLex]
  split <;> omega

theorem leastBid_le (b : Int × Int) (bs : List (Int × Int)) :
    ∀ c ∈ b :: bs, toLex (leastBid b bs) ≤ toLex c := by
  induction bs generalizing b with
  | nil =>
    intro c hc
    rw [List.mem_singleton.1 hc]
    exact le_refl _
  | cons d ds ih =>
    have hleast : toLex (leastBid (lesserBid b d) ds) ≤ toLex (lesserBid b d) :=
      ih (lesserBid b d) _ List.mem_cons_self
    have hd := lesserBid_le b d
    intro c hc
    change toLex (leastBid (lesserBid b d) ds) ≤ toLex c
    rcases List.mem_cons.1 hc with rfl | hc
    · exact hleast.trans hd.1
    · rcases List.mem_cons.1 hc with rfl | hc
      · exact hleast.trans hd.2
      · exact ih (lesserBid b d) c (List.mem_cons_of_mem _ hc)

theorem leastBid_fst_le (b : Int × Int) (bs : List (Int × Int)) :
    ∀ c ∈ b :: bs, (leastBid b bs).1 ≤ c.1 := by
  intro c hc
  have h := Prod.Lex.toLex_le_toLex.1 (leastBid_le b bs c hc)
  omega

theorem settle_eq_ok_iff {p : Int} {ls : List Int} :
    x.settle = .ok (y, p, ls) ↔ ∃ q b bs, x.tree = .candidate q ∧ x.suitors = b :: bs ∧
      y = x.cleared (.boundary (some (leastBid b bs).1) ((leastBid b bs).2 + 1)) ∧
      p = (leastBid b bs).1 ∧ ls = losers (leastBid b bs).1 (b :: bs) := by
  rw [settle, require_bind_eq_ok_iff, phase_candidate]
  cases hs : x.suitors with
  | nil => simp [throw, throwThe, MonadExceptOf.throw]
  | cons b bs =>
    simp [pure, Except.pure, leastBid, eq_comm]

theorem reject_eq_ok_iff :
    x.reject = .ok y ↔ (∃ p, x.tree = .candidate p) ∧ y = x.cleared .available := by
  rw [reject, require_bind_eq_ok_iff, phase_candidate, pure_eq_ok_iff]

theorem finish_eq_ok_iff :
    x.finish = .ok y ↔ ∃ p h, x.tree = .boundary p h ∧ y = { x with tree := .treeNode p h 0 } := by
  cases ht : x.tree <;> simp [finish, ht, eq_comm]

theorem markUp_eq_ok_iff {k : Int} :
    x.markUp = .ok (y, k) ↔ ∃ p h n, x.tree = .treeNode p h n ∧
      y = { x with tree := .treeNode p h (n + 1) } ∧ k = n + 1 := by
  cases ht : x.tree <;> simp [markUp, ht, eq_comm]

theorem calibrate_eq_ok_iff {n : Int} :
    x.calibrate n = .ok y ↔ ∃ p h, x.tree = .treeNode p h n ∧
      y = { x with tree := .calibrated p h } := by
  cases ht : x.tree with
  | treeNode p h k =>
    by_cases hk : k = n <;> simp [calibrate, ht, hk, eq_comm]
  | available | candidate | boundary | calibrated => simp [calibrate, ht]

inductive Step (x y : Vertex) : Prop
  | root (h : x.makeRoot = .ok y)
  | bid (b k : Int) (h : x.propose b k = some y)
  | settle (p : Int) (ls : List Int) (h : x.settle = .ok (y, p, ls))
  | reject (h : x.reject = .ok y)
  | finish (h : x.finish = .ok y)
  | markUp (n : Int) (h : x.markUp = .ok (y, n))
  | calibrate (n : Int) (h : x.calibrate n = .ok y)
  | clear (h : y = x.clear)

def heard (x : Vertex) (bidder height : Int) : Vertex := (x.propose bidder height).getD x

def heardAll (x : Vertex) (height : Int) (bidders : List Nat) : Vertex :=
  bidders.foldl (fun y (p : Nat) => y.heard p height) x

def settled (x : Vertex) : Vertex :=
  match x.settle with
  | .ok (y, _) => y
  | .error _ => x

def finished (x : Vertex) : Vertex :=
  match x.finish with
  | .ok y => y
  | .error _ => x

theorem heard_of_place? {l : Option Int × Int} (h : x.tree.place? = some l) (b k : Int) :
    x.heard b k = x := by
  cases ht : x.tree <;> simp_all [heard, propose, TreeState.place?, TreeState.height?]

theorem heardAll_cons (x : Vertex) (k : Int) (p : Nat) (ps : List Nat) :
    x.heardAll k (p :: ps) = (x.heard p k).heardAll k ps := rfl

theorem heardAll_of_place? {l : Option Int × Int} (h : x.tree.place? = some l) (k : Int)
    (ps : List Nat) : x.heardAll k ps = x := by
  induction ps with
  | nil => rfl
  | cons p ps ih => rw [heardAll_cons, heard_of_place? h, ih]

theorem exists_place? (ha : x.tree ≠ .available) (hc : x.phase ≠ .candidate) :
    ∃ l, x.tree.place? = some l := by
  cases ht : x.tree <;> simp_all [phase, TreeState.phase, TreeState.place?, TreeState.height?]

theorem settled_of_phase (h : x.phase ≠ .candidate) : x.settled = x := by
  rw [settled, settle, require, if_neg h]
  rfl

theorem finished_boundary {p : Option Int} {k : Int} (h : x.tree = .boundary p k) :
    x.finish = .ok x.finished ∧ x.finished = { x with tree := .treeNode p k 0 } := by
  simp [finished, finish, h]

theorem settle_of_suitors {c : Int} {b : Int × Int} {bs : List (Int × Int)}
    (ht : x.tree = .candidate c) (hs : x.suitors = b :: bs) :
    (∃ r, x.settle = .ok (x.settled, r)) ∧
      x.settled = x.cleared (.boundary (some (leastBid b bs).1) ((leastBid b bs).2 + 1)) := by
  have h : x.settle = .ok (x.cleared (.boundary (some (leastBid b bs).1) ((leastBid b bs).2 + 1)),
      (leastBid b bs).1, losers (leastBid b bs).1 (b :: bs)) :=
    settle_eq_ok_iff.2 ⟨c, b, bs, ht, hs, rfl, rfl, rfl⟩
  have hd : x.settled =
      x.cleared (.boundary (some (leastBid b bs).1) ((leastBid b bs).2 + 1)) := by
    rw [settled, h]
  exact ⟨⟨_, hd ▸ h⟩, hd⟩

end Vertex
end FactorForest
