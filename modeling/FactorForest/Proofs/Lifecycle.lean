import FactorForest.Proofs.Scope
import FactorForest.Proofs.Vertex

/-!
The way of a vertex between two resets. A call that fails, or a bid that is told that it comes too
late, leaves the vertex as it was, although each call stores its fields one by one. A vertex that has
joined a tree only goes on from the frontier to the inside and from there to its calibration; its
parent and its height stay, no bid reaches it any more, and it is calibrated with the number of
children that have reported since it left the frontier.
-/

set_option autoImplicit false

namespace FactorForest

inductive Transition
  | makeRoot
  | propose (bidder height : Int)
  | restoreSuitor (bidder height : Int)
  | settle
  | reject
  | finish
  | markUp
  | calibrate (children : Int)
deriving DecidableEq, Repr

/-- From one phase to itself or to the next one inside a tree. -/
inductive Phase.Forward : Phase → Phase → Prop
  | stay (p : Phase) : Forward p p
  | inside : Forward .boundary .treeNode
  | calibrated : Forward .treeNode .calibrated

theorem TreeState.markedUp?_eq_some_iff {s : TreeState} {n : Int} :
    s.markedUp? = some n ↔ ∃ p h, s = .treeNode p h n := by
  cases s <;> simp [markedUp?]

namespace Vertex

/-- What a call comes to: a fault, the vertex that it gives, or nothing for a bid that comes too
late. -/
def outcome (x : Vertex) : Transition → Except Fault (Option Vertex)
  | .makeRoot => x.makeRoot.map some
  | .propose b k => .ok (x.propose b k)
  | .restoreSuitor b k => (x.restoreSuitor b k).map some
  | .settle => x.settle.map fun r => some r.1
  | .reject => x.reject.map some
  | .finish => x.finish.map some
  | .markUp => x.markUp.map fun r => some r.1
  | .calibrate n => (x.calibrate n).map some

/-- What each call asks of the vertex. -/
def Admits (x : Vertex) : Transition → Prop
  | .makeRoot => x.phase = .available
  | .propose _ _ => x.phase = .available ∨ x.phase = .candidate
  | .restoreSuitor b _ => x.tree = .candidate b
  | .settle => x.phase = .candidate ∧ x.suitors ≠ []
  | .reject => x.phase = .candidate
  | .finish => x.phase = .boundary
  | .markUp => x.phase = .treeNode
  | .calibrate n => x.tree.markedUp? = some n

/-- Reads and stores of fields in their order. What was stored before a fault stays stored. -/
abbrev Stores := EStateM Fault Vertex

namespace Stores

def check (c : Prop) [Decidable c] (e : Fault) : Stores Unit := if c then pure () else throw e

def require (p : Phase) : Stores Unit := do
  let x ← get
  check (x.phase = p) (.told (.wrongPhase x.self.id x.phase p))

def setTree (t : TreeState) : Stores Unit := modify fun x => { x with tree := t }

def addSuitor (bidder height : Int) : Stores Unit :=
  modify fun x => { x with suitors := x.suitors ++ [(bidder, height)] }

def countBid : Stores Unit := modify fun x => { x with bids := x.bids.raise 1 }

def dropBids : Stores Unit := do
  modify fun x => { x with suitors := [] }
  modify fun x => { x with bids := {} }

def prefer (bidder : Int) : Stores Unit :=
  modify fun x => if x.tree.parent.all (bidder < ·) then { x with tree := .candidate bidder } else x

def ofCall : Transition → Stores Bool
  | .makeRoot => do
    require .available
    setTree (.boundary none 0)
    return true
  | .propose b k => do
    let x ← get
    if x.phase = .available ∨ x.phase = .candidate then
      countBid
      addSuitor b k
      prefer b
      return true
    else return false
  | .restoreSuitor b k => do
    require .candidate
    let x ← get
    check (some b = x.tree.parent) (.told (.strangeSuitor x.self.id b x.tree.parentNumber))
    addSuitor b k
    return true
  | .settle => do
    require .candidate
    let x ← get
    match x.suitors with
    | [] => throw (.told (.noSuitors x.self.id))
    | s :: ss =>
      let best := ss.foldl lesserBid s
      setTree (.boundary (some best.1) (best.2 + 1))
      dropBids
      return true
  | .reject => do
    require .candidate
    setTree .available
    dropBids
    return true
  | .finish => do
    require .boundary
    let x ← get
    setTree (.treeNode x.tree.parent x.tree.height 0)
    return true
  | .markUp => do
    require .treeNode
    let x ← get
    setTree (.treeNode x.tree.parent x.tree.height (x.tree.markedUp + 1))
    return true
  | .calibrate n => do
    require .treeNode
    let x ← get
    check (x.tree.markedUp = n) (.told (.unreported x.self.id x.tree.markedUp n))
    setTree (.calibrated x.tree.parent x.tree.height)
    return true

/-- The answer to a call, with the vertex that it leaves behind. -/
def answer (x : Vertex) : Except Fault (Option Vertex) → EStateM.Result Fault Vertex Bool
  | .ok (some y) => .ok true y
  | .ok none => .ok false x
  | .error e => .error e x

theorem check_bind {α : Type} (c : Prop) [Decidable c] (e : Fault) (m : Stores α) (x : Vertex) :
    (do check c e; m : Stores α) x = if c then m x else .error e x := by
  by_cases h : c <;> simp only [check, h, if_true, if_false] <;> rfl

/-- Store by store a call does what it does at once, and leaves the vertex alone where it gives
none. -/
theorem ofCall_eq (x : Vertex) (t : Transition) : ofCall t x = answer x (x.outcome t) := by
  obtain ⟨self, sample, factorIds, belief, scratch, updates, tree, bids, suitors⟩ := x
  cases t with
  | makeRoot | reject | finish | markUp => cases tree <;> rfl
  | propose b k =>
    cases tree with
    | candidate p =>
      change EStateM.Result.ok true (if decide (b < p) then _ else _) = _
      by_cases h : b < p <;>
        simp only [outcome, propose, h, decide_true, decide_false, if_true, if_false] <;> rfl
    | available | boundary | treeNode | calibrated => rfl
  | restoreSuitor b k =>
    cases tree with
    | candidate p =>
      change (do
        check (some b = some p) (.told (.strangeSuitor self.id b p))
        addSuitor b k
        return true : Stores Bool) _ = _
      rw [check_bind]
      by_cases h : b = p <;>
        simp only [outcome, restoreSuitor, h, Option.some_inj, if_true, if_false] <;> rfl
    | available | boundary | treeNode | calibrated => rfl
  | settle => cases tree <;> cases suitors <;> rfl
  | calibrate n =>
    cases tree with
    | treeNode p k c =>
      change (do
        check (c = n) (.told (.unreported self.id c n))
        setTree (.calibrated p k)
        return true : Stores Bool) _ = _
      rw [check_bind]
      by_cases h : c = n <;> simp only [outcome, calibrate, h, if_true, if_false] <;> rfl
    | available | candidate | boundary | calibrated => rfl

end Stores

def next? (x : Vertex) (t : Transition) : Option Vertex := (x.outcome t).toOption.join

variable {x y : Vertex} {t : Transition} {p : Option Int} {h : Int}

theorem phase_treeNode : x.phase = .treeNode ↔ ∃ p h n, x.tree = .treeNode p h n := by
  cases h : x.tree <;> simp [phase, TreeState.phase, h]

theorem restoreSuitor_eq_ok_iff {b k : Int} : x.restoreSuitor b k = .ok y ↔
    x.tree = .candidate b ∧ y = { x with suitors := x.suitors ++ [(b, k)] } := by
  cases ht : x.tree with
  | candidate p =>
    by_cases hb : b = p <;> simp [restoreSuitor, ht, hb, eq_comm]
  | available | boundary | treeNode | calibrated => simp [restoreSuitor, ht]

theorem next?_eq_some_iff : x.next? t = some y ↔ x.outcome t = .ok (some y) := by
  rcases ho : x.outcome t with e | _ | z <;> simp [next?, ho, Except.toOption]

theorem next?_isSome_iff : (x.next? t).isSome ↔ x.Admits t := by
  simp only [Option.isSome_iff_exists, next?_eq_some_iff]
  cases t with
  | makeRoot => simp [outcome, Admits, map_eq_ok_iff, makeRoot_eq_ok_iff, phase_available]
  | propose b k =>
    simp only [outcome, Admits, Except.ok.injEq, propose_eq_some_iff, phase_available,
      phase_candidate]
    constructor
    · rintro ⟨y, ⟨h, -⟩ | ⟨q, h, -⟩⟩
      · exact .inl h
      · exact .inr ⟨q, h⟩
    · rintro (h | ⟨q, h⟩)
      · exact ⟨_, .inl ⟨h, rfl⟩⟩
      · exact ⟨_, .inr ⟨q, h, rfl⟩⟩
  | restoreSuitor b k => simp [outcome, Admits, map_eq_ok_iff, restoreSuitor_eq_ok_iff]
  | settle =>
    rw [Admits, phase_candidate, List.ne_nil_iff_exists_cons]
    simp only [outcome, map_eq_ok_iff]
    constructor
    · rintro ⟨-, ⟨z, q, ls⟩, hz, -⟩
      obtain ⟨c, b, bs, ht, hs, -⟩ := settle_eq_ok_iff.1 hz
      exact ⟨⟨c, ht⟩, b, bs, hs⟩
    · rintro ⟨⟨c, ht⟩, b, bs, hs⟩
      exact ⟨_, _, settle_eq_ok_iff.2 ⟨c, b, bs, ht, hs, rfl, rfl, rfl⟩, rfl⟩
  | reject => simp [outcome, Admits, map_eq_ok_iff, reject_eq_ok_iff, phase_candidate]
  | finish => simp [outcome, Admits, map_eq_ok_iff, finish_eq_ok_iff, phase_boundary]
  | markUp => simp [outcome, Admits, map_eq_ok_iff, markUp_eq_ok_iff, phase_treeNode]
  | calibrate n =>
    simp [outcome, Admits, map_eq_ok_iff, calibrate_eq_ok_iff, TreeState.markedUp?_eq_some_iff]

/-- A vertex in a tree leaves the frontier, counts a report or is calibrated, and does nothing
else. -/
theorem next?_of_place? (hp : x.tree.place? = some (p, h)) (hy : x.next? t = some y) :
    (t = .finish ∧ x.tree = .boundary p h ∧ y.tree = .treeNode p h 0) ∨
    (∃ n, t = .markUp ∧ x.tree = .treeNode p h n ∧ y.tree = .treeNode p h (n + 1)) ∨
    ∃ n, t = .calibrate n ∧ x.tree = .treeNode p h n ∧ y.tree = .calibrated p h := by
  have ht := TreeState.place?_eq_some_iff.1 hp
  have hadmits : x.Admits t := next?_isSome_iff.1 (Option.isSome_of_eq_some hy)
  rw [next?_eq_some_iff] at hy
  cases t with
  | finish =>
    obtain ⟨z, hz, hzy⟩ := map_eq_ok_iff.1 hy
    obtain ⟨q, k, hb, rfl⟩ := finish_eq_ok_iff.1 hz
    obtain rfl := Option.some.inj hzy
    simp_all
  | markUp =>
    obtain ⟨⟨z, n⟩, hz, hzy⟩ := map_eq_ok_iff.1 hy
    obtain ⟨q, k, n, hb, rfl, rfl⟩ := markUp_eq_ok_iff.1 hz
    obtain rfl := Option.some.inj hzy
    simp_all
  | calibrate n =>
    obtain ⟨z, hz, hzy⟩ := map_eq_ok_iff.1 hy
    obtain ⟨q, k, hb, rfl⟩ := calibrate_eq_ok_iff.1 hz
    obtain rfl := Option.some.inj hzy
    simp_all
  | makeRoot | propose | restoreSuitor | settle | reject =>
    rcases ht with ht | ⟨n, ht⟩ | ht <;> simp [Admits, phase, TreeState.phase, ht] at hadmits

/-- A vertex with the calls that it has accepted, the latest first. -/
structure Course where
  vertex : Vertex
  accepted : List Transition := []

namespace Course

def call (c : Course) (t : Transition) : Course :=
  match c.vertex.next? t with
  | none => c
  | some y => ⟨y, t :: c.accepted⟩

def calls (c : Course) (ts : List Transition) : Course := ts.foldl call c

/-- The reports of children since the vertex left the frontier. -/
def reports (c : Course) : Nat := (c.accepted.takeWhile (· ≠ .finish)).count .markUp

/-- The course of a vertex in a tree at a parent and a height, with its reports counted. -/
structure At (p : Option Int) (h : Int) (c : Course) : Prop where
  place : c.vertex.tree.place? = some (p, h)
  counted : ∀ n, c.vertex.tree.markedUp? = some n → n = c.reports

theorem At.call {c : Course} (hc : c.At p h) (t : Transition) :
    (c.call t).At p h ∧ Phase.Forward c.vertex.phase (c.call t).vertex.phase := by
  rw [Course.call]
  split
  · exact ⟨hc, .stay _⟩
  · rename_i y hy
    rcases next?_of_place? hc.place hy with ⟨rfl, hx, hy⟩ | ⟨n, rfl, hx, hy⟩ | ⟨n, rfl, hx, hy⟩
    · refine ⟨⟨by rw [hy]; rfl, fun m hm => ?_⟩, by rw [phase, phase, hx, hy]; exact .inside⟩
      rw [hy] at hm
      cases hm
      simp [reports]
    · refine ⟨⟨by rw [hy]; rfl, fun m hm => ?_⟩, by rw [phase, phase, hx, hy]; exact .stay _⟩
      have hn : n = c.reports := hc.counted n (by rw [hx]; rfl)
      rw [hy] at hm
      cases hm
      simp [reports, hn]
    · refine ⟨⟨by rw [hy]; rfl, fun m hm => ?_⟩, by rw [phase, phase, hx, hy]; exact .calibrated⟩
      rw [hy] at hm
      cases hm

theorem At.calls {c : Course} (hc : c.At p h) (ts : List Transition) : (c.calls ts).At p h := by
  induction ts generalizing c with
  | nil => exact hc
  | cons t ts ih => exact ih (hc.call t).1

theorem At.calibrate_iff {c : Course} (hc : c.At p h) (n : Int) :
    (∃ y, c.vertex.calibrate n = .ok y) ↔ c.vertex.phase = .treeNode ∧ n = c.reports := by
  simp only [calibrate_eq_ok_iff, phase_treeNode]
  constructor
  · rintro ⟨-, q, k, ht, -⟩
    exact ⟨⟨q, k, n, ht⟩, hc.counted n (by rw [ht]; rfl)⟩
  · rintro ⟨⟨q, k, m, ht⟩, rfl⟩
    have hm : m = c.reports := hc.counted m (by rw [ht]; rfl)
    exact ⟨_, q, k, hm ▸ ht, rfl⟩

end Course

theorem propose_of_place? (hp : x.tree.place? = some (p, h)) (b k : Int) :
    x.propose b k = none := by
  rcases TreeState.place?_eq_some_iff.1 hp with ht | ⟨n, ht⟩ | ht <;> simp [propose, ht]

/-- A call is accepted where the vertex admits it, and otherwise leaves all fields as they were. From
the frontier a vertex goes on as `Phase.Forward` tells, at its place, deaf to bids; it is calibrated
with the reports that it has counted and with no other number. -/
theorem calls_between_resets :
    (∀ (x : Vertex) (t : Transition),
      ((x.next? t).isSome ↔ x.Admits t) ∧
      ∀ y, (Stores.ofCall t x = .ok true y ↔ x.next? t = some y) ∧
        ((∃ e, Stores.ofCall t x = .error e y) ∨ Stores.ofCall t x = .ok false y ↔
          x.next? t = none ∧ y = x)) ∧
    ∀ (x : Vertex) (p : Option Int) (h : Int), x.tree = .boundary p h → ∀ ts : List Transition,
      let c := Course.calls ⟨x, []⟩ ts
      c.vertex.tree.place? = some (p, h) ∧
      (∀ b k, c.vertex.propose b k = none) ∧
      (∀ t, Phase.Forward c.vertex.phase (c.call t).vertex.phase) ∧
      ∀ n, (∃ y, c.vertex.calibrate n = .ok y) ↔ c.vertex.phase = .treeNode ∧ n = c.reports := by
  refine ⟨fun x t => ⟨next?_isSome_iff, fun y => ?_⟩, fun x p h hx ts => ?_⟩
  · rw [Stores.ofCall_eq, next?]
    rcases x.outcome t with e | _ | z <;> simp [Stores.answer, Except.toOption, eq_comm]
  · have hstart : Course.At p h ⟨x, []⟩ :=
      ⟨by rw [hx]; rfl, fun n hn => by rw [hx] at hn; cases hn⟩
    have hc := hstart.calls ts
    exact ⟨hc.place, propose_of_place? hc.place, fun t => (hc.call t).2, hc.calibrate_iff⟩

/-- Two reports of children among calls that are refused. -/
def refusedCalls : List Transition :=
  [.markUp, .propose 4 0, .finish, .markUp, .reject, .restoreSuitor 2 5, .finish, .calibrate 3,
    .markUp, .settle, .makeRoot]

theorem calls_between_resets_refused :
    let x : Vertex :=
      { Vertex.fresh (.upTo 3 1) [0] (Assignment.first (Scope.single (.upTo 3 1))) .zero with
        tree := .boundary (some 2) 1 }
    let c := Course.calls ⟨x, []⟩ refusedCalls
    c.vertex.tree = .treeNode (some 2) 1 2 ∧
      ∀ n, (∃ y, c.vertex.calibrate n = .ok y) ↔ n = 2 := by
  intro x c
  have htree : c.vertex.tree = .treeNode (some 2) 1 2 := by decide +kernel
  have hreports : c.reports = 2 := by decide +kernel
  refine ⟨htree, fun n => ?_⟩
  obtain ⟨-, -, -, hcalibrate⟩ := calls_between_resets.2 x (some 2) 1 rfl refusedCalls
  rw [hcalibrate n, hreports, and_iff_right (phase_treeNode.2 ⟨_, _, _, htree⟩)]
  rfl

end Vertex
end FactorForest
