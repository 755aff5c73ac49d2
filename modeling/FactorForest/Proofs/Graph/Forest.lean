import FactorForest.Proofs.Graph.Clique
import FactorForest.Proofs.Graph.Moves

/-!
Whatever the order of moves, the vertices in trees form a forest. What carries the invariant
through a move is a fact about bids in flight: a bidder is in a tree at the height that it told,
and its place there does not change before the next reset.
-/

set_option autoImplicit false

namespace FactorForest.Graph

def place? (g : Graph) (v : Nat) : Option (Option Int × Int) :=
  (g.vertices[v]?).bind (·.tree.place?)

/-- A root at height zero, or one higher than a parent in a tree that an edge joins to it. -/
def Attached (g : Graph) (v : Nat) (p : Option Int) (h : Int) : Prop :=
  p = none ∧ h = 0 ∨
    ∃ (q : Nat) (r : Option Int), p = some (q : Int) ∧ g.place? q = some (r, h - 1) ∧ g.hasEdge q v

/-- A bid by a neighbour that is in a tree at the height of the bid. -/
def BidFor (g : Graph) (v : Nat) (b : Int × Int) : Prop :=
  ∃ (q : Nat) (r : Option Int), b.1 = q ∧ g.place? q = some (r, b.2) ∧ g.hasEdge q v

/-- What every move keeps: each vertex in a tree is attached to it, and bids are told truly. -/
structure Grown (g : Graph) : Prop where
  attached : ∀ v p h, g.place? v = some (p, h) → g.Attached v p h
  nonneg : ∀ v p h, g.place? v = some (p, h) → 0 ≤ h
  suitors : ∀ (v : Nat) (x : Vertex), g.vertices[v]? = some x → ∀ b ∈ x.suitors,
    x.phase = .candidate ∧ g.BidFor v b

variable {g : Graph} {n : Nat} {x y : Vertex}

theorem place?_of_getElem? (hx : g.vertices[n]? = some x) : g.place? n = x.tree.place? := by
  rw [place?, hx, Option.bind_some]

theorem place?_setVertex (hx : g.vertices[n]? = some x) (y : Vertex) (v : Nat) :
    (g.setVertex n y).place? v = if v = n then y.tree.place? else g.place? v := by
  rw [place?, getElem?_setVertex hx]
  split <;> rfl

theorem place?_setVertex_of_keep (hx : g.vertices[n]? = some x)
    (hkeep : ∀ l, x.tree.place? = some l → y.tree.place? = some l) {v : Nat}
    {l : Option Int × Int} (hl : g.place? v = some l) : (g.setVertex n y).place? v = some l := by
  rw [place?_setVertex hx]
  by_cases hv : v = n
  · subst hv
    rw [if_pos rfl]
    exact hkeep l (place?_of_getElem? hx ▸ hl)
  · rwa [if_neg hv]

theorem Attached.mono {g' : Graph} (hp : ∀ v l, g.place? v = some l → g'.place? v = some l)
    (he : ∀ u v, g.hasEdge u v → g'.hasEdge u v) {v : Nat} {p : Option Int} {h : Int}
    (ha : g.Attached v p h) : g'.Attached v p h := by
  rcases ha with hroot | ⟨q, r, hq, hr, hedge⟩
  · exact .inl hroot
  · exact .inr ⟨q, r, hq, hp q _ hr, he _ _ hedge⟩

theorem BidFor.mono {g' : Graph} (hp : ∀ v l, g.place? v = some l → g'.place? v = some l)
    (he : ∀ u v, g.hasEdge u v → g'.hasEdge u v) {v : Nat} {b : Int × Int} (hb : g.BidFor v b) :
    g'.BidFor v b := by
  obtain ⟨q, r, hq, hr, hedge⟩ := hb
  exact ⟨q, r, hq, hp q _ hr, he _ _ hedge⟩

theorem BidFor.attached {v : Nat} {b : Int × Int} (hb : g.BidFor v b) :
    g.Attached v (some b.1) (b.2 + 1) := by
  obtain ⟨q, r, hq, hr, hedge⟩ := hb
  exact .inr ⟨q, r, congrArg some hq, by rwa [Int.add_sub_cancel], hedge⟩

theorem BidFor.nonneg {v : Nat} {b : Int × Int} (hb : g.BidFor v b) (hg : g.Grown) : 0 ≤ b.2 := by
  obtain ⟨q, r, -, hr, -⟩ := hb
  exact hg.nonneg q r b.2 hr

theorem Grown.setVertex (hg : g.Grown) (hx : g.vertices[n]? = some x)
    (hkeep : ∀ l, x.tree.place? = some l → y.tree.place? = some l)
    (hplace : ∀ p h, y.tree.place? = some (p, h) → g.Attached n p h ∧ 0 ≤ h)
    (hbids : ∀ b ∈ y.suitors, y.phase = .candidate ∧ g.BidFor n b) : (g.setVertex n y).Grown := by
  have hp : ∀ v l, g.place? v = some l → (g.setVertex n y).place? v = some l :=
    fun v l => place?_setVertex_of_keep hx hkeep
  have he : ∀ u v, g.hasEdge u v → (g.setVertex n y).hasEdge u v := fun u v => id
  have hnew : ∀ v p h, (g.setVertex n y).place? v = some (p, h) → g.Attached v p h ∧ 0 ≤ h := by
    intro v p h hv
    rw [place?_setVertex hx] at hv
    split at hv
    · rename_i hvn
      exact hvn ▸ hplace p h hv
    · exact ⟨hg.attached v p h hv, hg.nonneg v p h hv⟩
  refine ⟨fun v p h hv => (hnew v p h hv).1.mono hp he, fun v p h hv => (hnew v p h hv).2, ?_⟩
  intro v z hz b hb
  rw [getElem?_setVertex hx] at hz
  split at hz
  · rename_i hvn
    cases hz
    obtain ⟨hc, hf⟩ := hbids b hb
    exact ⟨hc, hvn ▸ hf.mono hp he⟩
  · obtain ⟨hc, hf⟩ := hg.suitors v z hz b hb
    exact ⟨hc, hf.mono hp he⟩

theorem Grown.suitors_eq_nil (hg : g.Grown) (hx : g.vertices[n]? = some x)
    (hc : x.phase ≠ .candidate) : x.suitors = [] := by
  cases hs : x.suitors with
  | nil => rfl
  | cons b bs => exact absurd (hg.suitors n x hx b (hs ▸ List.mem_cons_self)).1 hc

theorem Grown.advance (hg : g.Grown) (hx : g.vertices[n]? = some x)
    (hplace : y.tree.place? = x.tree.place?) (hc : x.phase ≠ .candidate)
    (hs : y.suitors = x.suitors) : (g.setVertex n y).Grown := by
  refine hg.setVertex hx (fun l hl => hplace ▸ hl) ?_ ?_
  · intro p h hy
    have hv : g.place? n = some (p, h) := by rw [place?_of_getElem? hx, ← hplace, hy]
    exact ⟨hg.attached n p h hv, hg.nonneg n p h hv⟩
  · intro b hb
    rw [hs, hg.suitors_eq_nil hx hc] at hb
    exact absurd hb List.not_mem_nil

theorem Grown.root (hg : g.Grown) (hx : g.vertices[n]? = some x) (hy : x.makeRoot = .ok y) :
    (g.setVertex n y).Grown := by
  obtain ⟨ht, rfl⟩ := Vertex.makeRoot_eq_ok_iff.1 hy
  refine hg.setVertex hx ?_ ?_ ?_
  · intro l hl
    simp [ht, TreeState.place?, TreeState.height?] at hl
  · intro p h hp
    cases hp
    exact ⟨.inl ⟨rfl, rfl⟩, Int.le_refl 0⟩
  · intro b hb
    have hc := (hg.suitors n x hx b hb).1
    simp [Vertex.phase, TreeState.phase, ht] at hc

theorem Grown.bid (hg : g.Grown) {p : Nat} {h : Int} {r : Option Int}
    (hp : g.place? p = some (r, h)) (he : g.hasEdge p n) (hx : g.vertices[n]? = some x)
    (hy : x.propose p h = some y) : (g.setVertex n y).Grown := by
  obtain ⟨q, rfl, hplace⟩ : ∃ q, y = x.noteBid p h q ∧ x.tree.place? = none := by
    rcases Vertex.propose_eq_some_iff.1 hy with ⟨ht, rfl⟩ | ⟨c, ht, rfl⟩ <;>
      exact ⟨_, rfl, by rw [ht]; rfl⟩
  refine hg.setVertex hx (fun l hl => ?_) (fun s k hs => ?_) fun b hb => ⟨rfl, ?_⟩
  · rw [hplace] at hl
    exact absurd hl (by simp)
  · exact absurd hs (by simp [Vertex.noteBid, TreeState.place?, TreeState.height?])
  · rcases List.mem_append.1 hb with hb | hb
    · exact (hg.suitors n x hx b hb).2
    · rw [List.mem_singleton.1 hb]
      exact ⟨p, r, rfl, hp, he⟩

theorem Grown.settle (hg : g.Grown) (hx : g.vertices[n]? = some x) {p : Int} {ls : List Int}
    (hy : x.settle = .ok (y, p, ls)) : (g.setVertex n y).Grown := by
  obtain ⟨q, b, bs, ht, hs, rfl, -, -⟩ := Vertex.settle_eq_ok_iff.1 hy
  have hbest : Vertex.leastBid b bs ∈ x.suitors := hs ▸ Vertex.leastBid_mem b bs
  obtain ⟨-, hbid⟩ := hg.suitors n x hx _ hbest
  refine hg.setVertex hx ?_ ?_ fun c hc => absurd hc List.not_mem_nil
  · intro l hl
    simp [ht, TreeState.place?, TreeState.height?] at hl
  · intro s k hk
    cases hk
    have h0 := hbid.nonneg hg
    exact ⟨hbid.attached, by omega⟩

theorem Grown.reject (hg : g.Grown) (hx : g.vertices[n]? = some x) (hy : x.reject = .ok y) :
    (g.setVertex n y).Grown := by
  obtain ⟨⟨p, ht⟩, rfl⟩ := Vertex.reject_eq_ok_iff.1 hy
  refine hg.setVertex hx ?_ ?_ fun c hc => absurd hc List.not_mem_nil
  · intro l hl
    simp [ht, TreeState.place?, TreeState.height?] at hl
  · intro s k hk
    exact absurd hk (by simp [Vertex.cleared, TreeState.place?, TreeState.height?])

theorem Grown.finish (hg : g.Grown) (hx : g.vertices[n]? = some x) (hy : x.finish = .ok y) :
    (g.setVertex n y).Grown := by
  obtain ⟨p, h, ht, rfl⟩ := Vertex.finish_eq_ok_iff.1 hy
  exact hg.advance hx (by rw [ht]; rfl) (by simp [Vertex.phase, TreeState.phase, ht]) rfl

theorem Grown.markUp (hg : g.Grown) (hx : g.vertices[n]? = some x) {k : Int}
    (hy : x.markUp = .ok (y, k)) : (g.setVertex n y).Grown := by
  obtain ⟨p, h, c, ht, rfl, -⟩ := Vertex.markUp_eq_ok_iff.1 hy
  exact hg.advance hx (by rw [ht]; rfl) (by simp [Vertex.phase, TreeState.phase, ht]) rfl

theorem Grown.calibrate (hg : g.Grown) (hx : g.vertices[n]? = some x) {c : Int}
    (hy : x.calibrate c = .ok y) : (g.setVertex n y).Grown := by
  obtain ⟨p, h, ht, rfl⟩ := Vertex.calibrate_eq_ok_iff.1 hy
  exact hg.advance hx (by rw [ht]; rfl) (by simp [Vertex.phase, TreeState.phase, ht]) rfl

theorem idle_clearTrees (g : Graph) : g.clearTrees.Idle := by
  intro x hx
  obtain ⟨y, -, rfl⟩ := Array.mem_map.1 hx
  exact ⟨rfl, rfl⟩

theorem Idle.grown (hg : g.Idle) : g.Grown := by
  have hnone : ∀ v l, g.place? v ≠ some l := by
    intro v l hl
    obtain ⟨x, hx, hplace⟩ := Option.bind_eq_some_iff.1 hl
    rw [(hg x (Array.mem_of_getElem? hx)).1] at hplace
    exact absurd hplace (by simp [TreeState.place?, TreeState.height?])
  refine ⟨fun v p h hv => absurd hv (hnone v _), fun v p h hv => absurd hv (hnone v _), ?_⟩
  intro v x hx b hb
  rw [(hg x (Array.mem_of_getElem? hx)).2] at hb
  exact absurd hb List.not_mem_nil

theorem Grown.move (hg : g.Grown) (m : Move) : (g.move m).Grown := by
  cases m with
  | root v => exact attempt_induction hg fun n x y hx hy => hg.root hx hy
  | bid p w =>
    apply bidFrom_induction hg
    intro x y z q h hx ht he hy hz
    exact hg.bid (by rw [place?_of_getElem? hx, ht]; rfl) he hy hz
  | settle v =>
    apply attempt_induction hg
    intro n x y hx hy
    obtain ⟨⟨z, p, ls⟩, hz, rfl⟩ := map_eq_ok_iff.1 hy
    exact hg.settle hx hz
  | reject v => exact attempt_induction hg fun n x y hx hy => hg.reject hx hy
  | finish v => exact attempt_induction hg fun n x y hx hy => hg.finish hx hy
  | markUp v =>
    apply attempt_induction hg
    intro n x y hx hy
    obtain ⟨⟨z, k⟩, hz, rfl⟩ := map_eq_ok_iff.1 hy
    exact hg.markUp hx hz
  | calibrate v c => exact attempt_induction hg fun n x y hx hy => hg.calibrate hx hy
  | clear => exact g.idle_clearTrees.grown

theorem Grown.moves (hg : g.Grown) (ms : List Move) : (g.moves ms).Grown := by
  induction ms generalizing g with
  | nil => exact hg
  | cons m ms ih => exact ih (hg.move m)

def parent? (g : Graph) (v : Nat) : Option Nat := (g.place? v).bind fun l => l.1.map Int.toNat

def ancestor? (g : Graph) : Nat → Nat → Option Nat
  | 0, v => some v
  | n + 1, v => (g.parent? v).bind (g.ancestor? n)

def IsRoot (g : Graph) (r : Nat) : Prop := ∃ h, g.place? r = some (none, h)

theorem Grown.parent?_eq_some (hg : g.Grown) {v q : Nat} (h : g.parent? v = some q) :
    ∃ k r, g.place? v = some (some (q : Int), k) ∧ g.place? q = some (r, k - 1) := by
  obtain ⟨⟨p, k⟩, hv, hp⟩ := Option.bind_eq_some_iff.1 h
  obtain ⟨i, rfl, rfl⟩ := Option.map_eq_some_iff.1 hp
  rcases hg.attached v _ k hv with ⟨hn, -⟩ | ⟨u, r, hu, hr, -⟩
  · exact absurd hn (by simp)
  · cases Option.some.inj hu
    exact ⟨k, r, hv, hr⟩

theorem Grown.height_ancestor (hg : g.Grown) {n v u : Nat} {p : Option Int} {h : Int}
    (hv : g.place? v = some (p, h)) (ha : g.ancestor? n v = some u) :
    ∃ r, g.place? u = some (r, h - n) := by
  induction n generalizing v p h with
  | zero =>
    cases ha
    exact ⟨p, by simpa using hv⟩
  | succ n ih =>
    obtain ⟨q, hq, hu⟩ := Option.bind_eq_some_iff.1 ha
    obtain ⟨k, r, hk, hr⟩ := hg.parent?_eq_some hq
    cases hv.symm.trans hk
    obtain ⟨s, hs⟩ := ih hr hu
    have hn : h - 1 - (n : Int) = h - ((n + 1 : Nat) : Int) := by omega
    exact ⟨s, hn ▸ hs⟩

theorem Grown.acyclic (hg : g.Grown) {n v : Nat} (ha : g.ancestor? n v = some v) : n = 0 := by
  cases n with
  | zero => rfl
  | succ n =>
    obtain ⟨q, hq, -⟩ := Option.bind_eq_some_iff.1 ha
    obtain ⟨k, r, hk, -⟩ := hg.parent?_eq_some hq
    obtain ⟨s, hs⟩ := hg.height_ancestor hk ha
    rw [hk, Option.some.injEq, Prod.mk.injEq] at hs
    omega

theorem Grown.root_height (hg : g.Grown) {r : Nat} {h : Int} (hr : g.place? r = some (none, h)) :
    h = 0 := by
  rcases hg.attached r none h hr with ⟨-, h0⟩ | ⟨q, s, hq, -⟩
  · exact h0
  · exact absurd hq (by simp)

theorem Grown.exists_root (hg : g.Grown) {v n : Nat} {p : Option Int}
    (hv : g.place? v = some (p, (n : Int))) : ∃ r, g.ancestor? n v = some r ∧ g.IsRoot r := by
  induction n generalizing v p with
  | zero =>
    rcases hg.attached v p _ hv with ⟨rfl, -⟩ | ⟨q, s, -, hs, -⟩
    · exact ⟨v, rfl, _, hv⟩
    · have h0 := hg.nonneg q s _ hs
      omega
  | succ n ih =>
    rcases hg.attached v p _ hv with ⟨-, h0⟩ | ⟨q, s, rfl, hs, -⟩
    · omega
    · have hn : ((n + 1 : Nat) : Int) - 1 = n := by omega
      obtain ⟨r, ha, hr⟩ := ih (hn ▸ hs)
      refine ⟨r, ?_, hr⟩
      have hq : g.parent? v = some q := by simp [parent?, hv]
      rw [ancestor?, hq]
      exact ha

theorem Grown.steps_to_root (hg : g.Grown) {v n r : Nat} {p : Option Int} {h : Int}
    (hv : g.place? v = some (p, h)) (ha : g.ancestor? n v = some r) (hr : g.IsRoot r) :
    (n : Int) = h := by
  obtain ⟨k, hk⟩ := hr
  obtain ⟨s, hs⟩ := hg.height_ancestor hv ha
  rw [hk, Option.some.injEq, Prod.mk.injEq] at hs
  have h0 := hg.root_height hk
  omega

/-- A vertex whose ancestors reach a root is in the tree of the root. -/
def InTreeOf (g : Graph) (r v : Nat) : Prop := g.IsRoot r ∧ ∃ n, g.ancestor? n v = some r

theorem steps_of_place?_eq_none {v n u : Nat} (hv : g.place? v = none)
    (ha : g.ancestor? n v = some u) : n = 0 := by
  cases n with
  | zero => rfl
  | succ n => simp [ancestor?, parent?, hv] at ha

theorem Grown.root_unique (hg : g.Grown) {v r s : Nat} (hr : g.InTreeOf r v)
    (hs : g.InTreeOf s v) : r = s := by
  obtain ⟨hr, n, hn⟩ := hr
  obtain ⟨hs, k, hk⟩ := hs
  have hnk : n = k := by
    cases hv : g.place? v with
    | none => rw [steps_of_place?_eq_none hv hn, steps_of_place?_eq_none hv hk]
    | some l =>
      obtain ⟨p, h⟩ := l
      have hn' := hg.steps_to_root hv hn hr
      have hk' := hg.steps_to_root hv hk hs
      omega
  rw [hnk, hk] at hn
  exact (Option.some.inj hn).symm

/-- Ways up end, each at one root after as many steps as the height tells, and no vertex is in two
trees. -/
structure Forest (g : Graph) : Prop extends Grown g where
  acyclic : ∀ v n, g.ancestor? n v = some v → n = 0
  rooted : ∀ v p h, g.place? v = some (p, h) →
    ∃ r, ∀ (n : Nat) (s : Nat), g.ancestor? n v = some s ∧ g.IsRoot s ↔ (n : Int) = h ∧ s = r
  disjoint : ∀ r s v, g.InTreeOf r v → g.InTreeOf s v → r = s

theorem Grown.forest (hg : g.Grown) : g.Forest := by
  refine ⟨hg, fun v n => hg.acyclic, ?_, fun r s v => hg.root_unique⟩
  intro v p h hv
  have h0 : (h.toNat : Int) = h := Int.toNat_of_nonneg (hg.nonneg v p h hv)
  obtain ⟨r, ha, hr⟩ := hg.exists_root (h0 ▸ hv)
  refine ⟨r, fun n s => ⟨fun ⟨hn, hs⟩ => ?_, fun ⟨hn, hs⟩ => ?_⟩⟩
  · exact ⟨hg.steps_to_root hv hn hs, hg.root_unique ⟨hs, n, hn⟩ ⟨hr, _, ha⟩⟩
  · have hk : n = h.toNat := by omega
    rw [hk, hs]
    exact ⟨ha, hr⟩

/-- From the clique graph of a model every sequence of moves leads to a forest on its edges. -/
theorem forest_of_moves {m : Model} {init : Double} {draws : Draws} {g : Graph}
    (h : ofModel m init draws = .ok g) (ms : List Move) :
    (g.moves ms).Forest ∧ ∀ u v : Int, (g.moves ms).hasEdge u v = g.hasEdge u v :=
  ⟨((idle_ofModel h).grown.moves ms).forest, hasEdge_moves g ms⟩

/-- Two trees that grow at once bid for the vertex between them. -/
def chainMoves : List Move := [.root 2, .root 0, .bid 2 1, .bid 0 1, .settle 1]

theorem forest_of_moves_chain :
    ∃ g, ofModel chainModel .zero (Draws.ofList [1, 0, 1]) = .ok g ∧
      (g.moves chainMoves).place? 1 = some (some 0, 1) ∧ (g.moves chainMoves).Forest ∧
      ∀ u v : Int, (g.moves chainMoves).hasEdge u v = g.hasEdge u v := by
  obtain ⟨g, hg, hplace⟩ : ∃ g, ofModel chainModel .zero (Draws.ofList [1, 0, 1]) = .ok g ∧
      (g.moves chainMoves).place? 1 = some (some 0, 1) := ⟨_, rfl, by decide⟩
  exact ⟨g, hg, hplace, forest_of_moves hg chainMoves⟩

end FactorForest.Graph
