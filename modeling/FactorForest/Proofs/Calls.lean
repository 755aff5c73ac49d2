import FactorForest.Proofs.Bids
import FactorForest.Proofs.Scope

set_option autoImplicit false

namespace FactorForest.Vertex

inductive Call
  | makeRoot
  | propose (bidder height : Int)
  | settle
  | reject
  | finish
  | markUp
  | calibrate (children : Int)
  | clear
  | recordUpdate
deriving DecidableEq, Repr

/-- The vertex that a transition gives, or the vertex as it was if the transition fails. -/
def kept (x : Vertex) (r : Except Fault Vertex) : Vertex := r.toOption.getD x

def call (x : Vertex) : Call → Vertex
  | .makeRoot => x.kept x.makeRoot
  | .propose b k => x.heard b k
  | .settle => x.kept (x.settle.map (·.1))
  | .reject => x.kept x.reject
  | .finish => x.kept x.finish
  | .markUp => x.kept (x.markUp.map (·.1))
  | .calibrate n => x.kept (x.calibrate n)
  | .clear => x.clear
  | .recordUpdate => x.recordUpdate

def calls (x : Vertex) (cs : List Call) : Vertex := cs.foldl call x

variable {x y : Vertex}

theorem kept_eq_or (x : Vertex) (r : Except Fault Vertex) : x.kept r = x ∨ r = .ok (x.kept r) := by
  cases r with
  | error e => exact .inl rfl
  | ok y => exact .inr rfl

theorem heard_eq_or (x : Vertex) (b k : Int) :
    x.heard b k = x ∨ x.propose b k = some (x.heard b k) := by
  unfold heard
  cases x.propose b k with
  | none => exact .inl rfl
  | some y => exact .inr rfl

theorem call_cases (x : Vertex) (c : Call) :
    x.call c = x ∨ x.Step (x.call c) ∨ x.call c = x.recordUpdate := by
  cases c with
  | makeRoot => exact (x.kept_eq_or _).imp_right fun h => .inl (.root h)
  | propose b k => exact (x.heard_eq_or b k).imp_right fun h => .inl (.bid b k h)
  | settle =>
    refine (x.kept_eq_or _).imp_right fun h => .inl ?_
    obtain ⟨⟨y, p, ls⟩, hy, hk⟩ := map_eq_ok_iff.1 h
    have hy' : x.call .settle = y := hk.symm
    exact .settle p ls (hy'.symm ▸ hy)
  | reject => exact (x.kept_eq_or _).imp_right fun h => .inl (.reject h)
  | finish => exact (x.kept_eq_or _).imp_right fun h => .inl (.finish h)
  | markUp =>
    refine (x.kept_eq_or _).imp_right fun h => .inl ?_
    obtain ⟨⟨y, n⟩, hy, hk⟩ := map_eq_ok_iff.1 h
    have hy' : x.call .markUp = y := hk.symm
    exact .markUp n (hy'.symm ▸ hy)
  | calibrate n => exact (x.kept_eq_or _).imp_right fun h => .inl (.calibrate n h)
  | clear => exact .inr (.inl (.clear rfl))
  | recordUpdate => exact .inr (.inr rfl)

theorem calls_induction {P : Vertex → Prop} (hstep : ∀ x y, P x → x.Step y → P y)
    (hupdate : ∀ x, P x → P x.recordUpdate) (hx : P x) (cs : List Call) : P (x.calls cs) := by
  induction cs generalizing x with
  | nil => exact hx
  | cons c cs ih =>
    apply ih
    rcases x.call_cases c with h | h | h
    · exact h.symm ▸ hx
    · exact hstep x _ hx h
    · exact h.symm ▸ hupdate x hx

/-- All that is not about the round and not the number of updates is the same. -/
def SameMatter (x y : Vertex) : Prop :=
  y = { x with tree := y.tree, bids := y.bids, suitors := y.suitors, updates := y.updates }

theorem SameMatter.trans {z : Vertex} (h : x.SameMatter y) (h' : y.SameMatter z) :
    x.SameMatter z := by
  unfold SameMatter at h h'
  rw [h] at h'
  exact h'

theorem Step.sameMatter (h : x.Step y) : x.SameMatter y := by
  cases h with
  | root h =>
    obtain ⟨-, rfl⟩ := makeRoot_eq_ok_iff.1 h
    rfl
  | bid b k h =>
    rcases propose_eq_some_iff.1 h with ⟨-, rfl⟩ | ⟨p, -, rfl⟩ <;> rfl
  | settle q ls h =>
    obtain ⟨p, b, bs, -, -, rfl, -⟩ := settle_eq_ok_iff.1 h
    rfl
  | reject h =>
    obtain ⟨-, rfl⟩ := reject_eq_ok_iff.1 h
    rfl
  | finish h =>
    obtain ⟨p, k, -, rfl⟩ := finish_eq_ok_iff.1 h
    rfl
  | markUp m h =>
    obtain ⟨p, k, n, -, rfl, -⟩ := markUp_eq_ok_iff.1 h
    rfl
  | calibrate n h =>
    obtain ⟨p, k, -, rfl⟩ := calibrate_eq_ok_iff.1 h
    rfl
  | clear h => exact h ▸ rfl

theorem SameMatter.refl (x : Vertex) : x.SameMatter x := rfl

theorem SameMatter.self_eq (h : x.SameMatter y) : y.self = x.self := by
  rw [SameMatter] at h
  rw [h]

theorem sameMatter_calls (x : Vertex) (cs : List Call) : x.SameMatter (x.calls cs) :=
  calls_induction (fun _ _ h hs => h.trans hs.sameMatter) (fun _ h => h.trans rfl) (.refl x) cs

theorem TracksBids.recordUpdate (hx : x.TracksBids) : x.recordUpdate.TracksBids :=
  ⟨hx.count, hx.bidder, hx.least, hx.quiet⟩

theorem TracksBids.calls (hx : x.TracksBids) (cs : List Call) : (x.calls cs).TracksBids :=
  calls_induction (fun _ _ h hs => h.step hs) (fun _ h => h.recordUpdate) hx cs

theorem TracksBids.suitors_ne_nil_iff (hx : x.TracksBids) :
    x.suitors ≠ [] ↔ x.phase = .candidate := by
  constructor
  · exact fun h => not_not.1 fun hp => h (hx.quiet hp)
  · intro h
    obtain ⟨p, hp⟩ := phase_candidate.1 h
    obtain ⟨k, hk⟩ := hx.bidder p hp
    exact List.ne_nil_of_mem hk

theorem TracksBids.bids_eq (hx : x.TracksBids) (hp : x.phase ≠ .candidate) : x.bids = {} := by
  have hc : x.bids.count = 0 := by rw [hx.count, hx.quiet hp]; rfl
  exact congrArg Tally.mk hc

theorem create_eq_ok {v : Variable} {ids : List Int} {sample : Option Assignment} {init : Double}
    {draws : Draws} {k : Nat} (h : create v ids sample init draws k = .ok x) :
    ∃ a, x = fresh v ids a init := by
  obtain ⟨a, -, h⟩ := bind_eq_ok_iff.1 h
  obtain ⟨-, -, h⟩ := bind_eq_ok_iff.1 h
  exact ⟨a, pure_eq_ok_iff.1 h⟩

/-- Whatever was called on a new vertex, its bids are counted, it has suitors exactly as a
candidate, and its tentative parent is the lowest of the bidders; that parent is the one that it
settles on, and nothing is left of the bids then. An available vertex is as it was when it was new,
but for its updates. -/
theorem bids_of_calls {v : Variable} {ids : List Int} {sample : Option Assignment} {init : Double}
    {draws : Draws} {k : Nat} (h : create v ids sample init draws k = .ok x) (cs : List Call) :
    (x.calls cs).bids.count = (x.calls cs).suitors.length ∧
      ((x.calls cs).suitors ≠ [] ↔ (x.calls cs).phase = .candidate) ∧
      (∀ p, (x.calls cs).tree = .candidate p →
        (∃ height, (p, height) ∈ (x.calls cs).suitors) ∧
        (∀ b ∈ (x.calls cs).suitors, p ≤ b.1) ∧
        ∃ y losers, (x.calls cs).settle = .ok (y, p, losers) ∧ y.tree.parent = some p ∧
          y.bids.count = 0 ∧ y.suitors = []) ∧
      ((x.calls cs).tree = .available →
        x.calls cs = { x with updates := (x.calls cs).updates }) := by
  obtain ⟨a, rfl⟩ := create_eq_ok h
  have ht := (tracksBids_fresh v ids a init).calls cs
  refine ⟨ht.count, ht.suitors_ne_nil_iff, fun p hp => ?_, fun havailable => ?_⟩
  · obtain ⟨height, losers, -, hs⟩ := ht.settle hp
    exact ⟨ht.bidder p hp, ht.least p hp, _, losers, hs, rfl, rfl, rfl⟩
  · have hphase : ((fresh v ids a init).calls cs).phase ≠ .candidate := by
      simp [phase, TreeState.phase, havailable]
    have hmatter := (fresh v ids a init).sameMatter_calls cs
    rw [SameMatter, havailable, ht.bids_eq hphase, ht.quiet hphase] at hmatter
    exact hmatter

/-- Two bids and two calls that are refused, a settlement, and a bid for a vertex that is taken;
after a reset, two bids again. -/
def mixedCalls : List Call :=
  [.propose 7 1, .makeRoot, .propose 4 3, .finish, .settle, .propose 2 0, .recordUpdate, .clear,
    .propose 9 2, .propose 5 6]

theorem bids_of_calls_mixed : ∃ x y losers,
    create (.upTo 3 1) [0] none .zero (Draws.ofList [1]) 0 = .ok x ∧
      (x.calls mixedCalls).tree = .candidate 5 ∧ (x.calls mixedCalls).bids.count = 2 ∧
      (x.calls mixedCalls).settle = .ok (y, 5, losers) := by
  have hmade : (create (.upTo 3 1) [0] none .zero (Draws.ofList [1]) 0).toOption.any fun x =>
      (x.calls mixedCalls).tree = .candidate 5 && (x.calls mixedCalls).suitors.length = 2 := by
    decide +kernel
  obtain ⟨x, hx, hrun⟩ := exists_ok_of_any hmade
  rw [Bool.and_eq_true, decide_eq_true_eq, decide_eq_true_eq] at hrun
  obtain ⟨hcount, -, hcandidate, -⟩ := bids_of_calls hx mixedCalls
  obtain ⟨-, -, y, losers, hs, -⟩ := hcandidate 5 hrun.1
  exact ⟨x, y, losers, hx, hrun.1, by rw [hcount, hrun.2]; rfl, hs⟩

end FactorForest.Vertex
