import FactorForest.Graph.Growth
import FactorForest.Proofs.Graph.Edges
import FactorForest.Proofs.Vertex

set_option autoImplicit false

namespace FactorForest.Graph

inductive Move
  | root (v : Int)
  | bid (p w : Nat)
  | settle (v : Int)
  | reject (v : Int)
  | finish (v : Int)
  | markUp (v : Int)
  | calibrate (v children : Int)
  | clear
deriving DecidableEq, Repr

/-- A transition of one vertex. A vertex that is not there and a transition that is refused leave
the graph as it was. -/
def attempt (g : Graph) (i : Int) (f : Vertex → Except Fault Vertex) : Graph :=
  match g.vertexAt i with
  | .error _ => g
  | .ok (n, x) =>
    match f x with
    | .error _ => g
    | .ok y => g.setVertex n y

/-- A bid of a frontier vertex at its own height. Other vertices do not bid, and nobody bids but
for a neighbour. -/
def bidFrom (g : Graph) (p w : Nat) : Graph :=
  match g.vertices[p]? with
  | none => g
  | some x => if x.phase = .boundary ∧ w ∈ g.targets p then bid p x.tree.height g w else g

def move (g : Graph) : Move → Graph
  | .root v => g.attempt v Vertex.makeRoot
  | .bid p w => g.bidFrom p w
  | .settle v => g.attempt v fun x => x.settle.map (·.1)
  | .reject v => g.attempt v Vertex.reject
  | .finish v => g.attempt v Vertex.finish
  | .markUp v => g.attempt v fun x => x.markUp.map (·.1)
  | .calibrate v n => g.attempt v (·.calibrate n)
  | .clear => g.clearTrees

def moves (g : Graph) (ms : List Move) : Graph := ms.foldl move g

variable {g : Graph}

theorem attempt_induction {P : Graph → Prop} {i : Int} {f : Vertex → Except Fault Vertex} (hg : P g)
    (hf : ∀ (n : Nat) (x y : Vertex), g.vertices[n]? = some x → f x = .ok y → P (g.setVertex n y)) :
    P (g.attempt i f) := by
  rw [attempt]
  split
  · exact hg
  · rename_i n x hx
    split
    · exact hg
    · rename_i y hy
      exact hf n x y (getElem?_of_vertexAt hx) hy

theorem bidFrom_induction {P : Graph → Prop} {p w : Nat} (hg : P g)
    (hf : ∀ (x y z : Vertex) (q : Option Int) (h : Int), g.vertices[p]? = some x →
      x.tree = .boundary q h → g.hasEdge p w → g.vertices[w]? = some y → y.propose p h = some z →
        P (g.setVertex w z)) :
    P (g.bidFrom p w) := by
  rw [bidFrom]
  split
  · exact hg
  · rename_i x hx
    split
    · rename_i hb
      obtain ⟨q, h, hq⟩ := Vertex.phase_boundary.1 hb.1
      have hh : x.tree.height = h := by rw [hq]; rfl
      rw [bid, hh]
      split
      · exact hg
      · rename_i y hy
        split
        · rename_i z hz
          exact hf x y z q h hx hq (mem_targets.1 hb.2) hy hz
        · exact hg
    · exact hg

variable {P : Vertex → Prop}

theorem forall_setVertex (hg : ∀ x ∈ g.vertices, P x) {n : Nat} {y : Vertex} (hy : P y) :
    ∀ x ∈ (g.setVertex n y).vertices, P x := by
  intro x hx
  rcases Array.mem_or_eq_of_mem_setIfInBounds hx with hx | rfl
  · exact hg x hx
  · exact hy

theorem forall_attempt (hP : ∀ x y, P x → x.Step y → P y) (hg : ∀ x ∈ g.vertices, P x) {i : Int}
    {f : Vertex → Except Fault Vertex} (hf : ∀ x y, f x = .ok y → x.Step y) :
    ∀ x ∈ (g.attempt i f).vertices, P x :=
  attempt_induction (P := fun h => ∀ x ∈ h.vertices, P x) hg fun _ x y hx hy =>
    forall_setVertex hg (hP x y (hg x (Array.mem_of_getElem? hx)) (hf x y hy))

/-- What the steps of a vertex keep is kept, for all vertices, by the moves of a graph. -/
theorem forall_move (hP : ∀ x y, P x → x.Step y → P y) (hg : ∀ x ∈ g.vertices, P x) (m : Move) :
    ∀ x ∈ (g.move m).vertices, P x := by
  cases m with
  | root v => exact forall_attempt hP hg fun _ _ => .root
  | bid p w =>
    exact bidFrom_induction (P := fun h => ∀ x ∈ h.vertices, P x) hg fun _ y z _ h _ _ _ hy hz =>
      forall_setVertex hg (hP y z (hg y (Array.mem_of_getElem? hy)) (.bid p h hz))
  | settle v =>
    refine forall_attempt hP hg fun x y h => ?_
    obtain ⟨⟨z, p, ls⟩, hz, rfl⟩ := map_eq_ok_iff.1 h
    exact .settle p ls hz
  | reject v => exact forall_attempt hP hg fun _ _ => .reject
  | finish v => exact forall_attempt hP hg fun _ _ => .finish
  | markUp v =>
    refine forall_attempt hP hg fun x y h => ?_
    obtain ⟨⟨z, n⟩, hz, rfl⟩ := map_eq_ok_iff.1 h
    exact .markUp n hz
  | calibrate v n => exact forall_attempt hP hg fun _ _ => .calibrate n
  | clear =>
    intro x hx
    obtain ⟨y, hy, rfl⟩ := Array.mem_map.1 hx
    exact hP y _ (hg y hy) (.clear rfl)

theorem forall_moves (hP : ∀ x y, P x → x.Step y → P y) (hg : ∀ x ∈ g.vertices, P x)
    (ms : List Move) : ∀ x ∈ (g.moves ms).vertices, P x := by
  induction ms generalizing g with
  | nil => exact hg
  | cons m ms ih => exact ih (forall_move hP hg m)

theorem links_attempt (g : Graph) (i : Int) (f : Vertex → Except Fault Vertex) :
    (g.attempt i f).links = g.links :=
  attempt_induction (P := fun h => h.links = g.links) rfl fun _ _ _ _ _ => rfl

theorem links_bidFrom (g : Graph) (p w : Nat) : (g.bidFrom p w).links = g.links :=
  bidFrom_induction (P := fun h => h.links = g.links) rfl fun _ _ _ _ _ _ _ _ _ _ => rfl

theorem edge?_clearTrees (g : Graph) (u v : Int) :
    g.clearTrees.edge? u v = (g.edge? u v).map fun e => { e with exploring := false } := by
  by_cases h : 0 ≤ u ∧ 0 ≤ v
  · have hu : g.clearTrees.linksOf u.toNat =
        (g.linksOf u.toNat).mapValues fun e => { e with exploring := false } := by
      rw [linksOf, linksOf, clearTrees, IdMap.find?_mapValues]
      cases g.links.find? u.toNat <;> rfl
    simp only [edge?, h, and_self, if_true, hu, IdMap.find?_mapValues]
  · simp only [edge?, h, if_false, Option.map_none]

theorem hasEdge_clearTrees (g : Graph) (u v : Int) : g.clearTrees.hasEdge u v = g.hasEdge u v := by
  rw [hasEdge, edge?_clearTrees, Option.isSome_map, hasEdge]

theorem hasEdge_move (g : Graph) (m : Move) (u v : Int) :
    (g.move m).hasEdge u v = g.hasEdge u v := by
  cases m with
  | clear => exact hasEdge_clearTrees g u v
  | bid p w => exact hasEdge_congr (links_bidFrom g p w) u v
  | root i | settle i | reject i | finish i | markUp i | calibrate i n =>
    exact hasEdge_congr (links_attempt g i _) u v

theorem hasEdge_moves (g : Graph) (ms : List Move) (u v : Int) :
    (g.moves ms).hasEdge u v = g.hasEdge u v := by
  induction ms generalizing g with
  | nil => rfl
  | cons m ms ih => exact (ih (g.move m)).trans (hasEdge_move g m u v)

end FactorForest.Graph
