import FactorForest.Checkpoint
import FactorForest.Proofs.Archive.Stepwise

set_option autoImplicit false

namespace FactorForest.Checkpoint

open Archive

theorem stepwise_readWeight : Stepwise readWeight := by
  refine stepwise_bool.bind fun b => ?_
  split
  · exact stepwise_f64.bind fun _ => .pure _
  · exact .pure none

theorem stepwise_readIndexEntry : Stepwise readIndexEntry :=
  stepwise_u64.bind fun _ => stepwise_u64List.bind fun _ => .pure _

theorem stepwise_readModel : Stepwise readModel :=
  (stepwise_list stepwise_variableField).bind fun _ => (stepwise_list stepwise_factor).bind fun _ =>
    (stepwise_list stepwise_readIndexEntry).bind fun _ => stepwise_strList.bind fun _ =>
      (stepwise_list stepwise_readWeight).bind fun _ => .guarded rfl (.checked _)

theorem stepwise_readVertex : Stepwise readVertex :=
  stepwise_variableField.bind fun _ => stepwise_assignment.bind fun _ =>
    stepwise_u64List.bind fun _ => stepwise_factor.bind fun _ => stepwise_factor.bind fun _ =>
      stepwise_u64.bind fun _ => stepwise_i64.bind fun _ => stepwise_u32.bind fun _ =>
        stepwise_u64.bind fun _ => stepwise_u64.bind fun _ => .checked _

theorem stepwise_readEdge : Stepwise readEdge :=
  stepwise_f64.bind fun _ => stepwise_factor.bind fun _ => stepwise_factor.bind fun _ =>
    stepwise_bool.bind fun _ => .pure _

theorem stepwise_readVertices (g : Graph) (n : Nat) : Stepwise (readVertices g n) := by
  induction n generalizing g with
  | zero => exact .pure g
  | succ n ih =>
    exact stepwise_readVertex.bind fun x => .guarded rfl (ih (g.addVertex x))

theorem stepwise_readLinks (g : Graph) (n : Nat) : Stepwise (readLinks g n) := by
  induction n generalizing g with
  | zero => exact .pure g
  | succ n ih =>
    exact stepwise_u64.bind fun _ => stepwise_u64.bind fun _ => stepwise_readEdge.bind fun _ =>
      (Stepwise.checked _).bind fun h => ih h

theorem restoreSuitors_error {g : Graph} {ns : List Nat} {e : Fault}
    (h : restoreSuitors g ns = .error e) : e.kind = .archive := by
  -- a candidate takes its own tentative parent back, so only an unknown parent is refused
  induction ns generalizing g with
  | nil => exact nomatch h
  | cons n ns ih =>
    rw [restoreSuitors] at h
    split at h
    · exact ih h
    · rename_i x _
      split at h
      · rename_i p ht
        split at h
        · cases h
          rfl
        · rename_i parent _
          have hx : x.restoreSuitor p parent.tree.height =
              .ok { x with suitors := x.suitors ++ [(p, parent.tree.height)] } := by
            simp [Vertex.restoreSuitor, ht]
          rw [hx] at h
          exact ih h
      · exact ih h

theorem stepwise_liftExcept {α : Type} {x : Except Fault α}
    (h : ∀ e, x = .error e → e.kind = .archive) : Stepwise (readGraph.liftExcept x) := by
  cases x with
  | ok a => exact .pure a
  | error e => exact .throw (h e rfl)

theorem stepwise_readGraph : Stepwise readGraph :=
  stepwise_listLength.bind fun n => (stepwise_readVertices {} n).bind fun _ =>
    (stepwise_liftExcept fun _ => restoreSuitors_error).bind fun g =>
      stepwise_listLength.bind fun n => (stepwise_readLinks g n).bind fun _ => .pure _

/-- The header and the two sections, without a look at what follows them. -/
def readSections : Reader (Model × Graph) := do
  let _ ← Reader.header
  let m ← readModel
  let g ← readGraph
  pure (m, g)

def conclude (r : Model × Graph) : Reader (Model × Graph) := do
  if (← get) ≠ [] then throw .trailing
  if r.2.vertices.toList.map (·.self) ≠ r.1.vars.values then throw .verticesDisagree
  pure r

theorem readAll_eq : readAll = readSections >>= conclude := by
  simp only [readAll, readSections, conclude, bind_assoc, pure_bind]

theorem stepwise_readSections : Stepwise readSections :=
  stepwise_header.bind fun _ => stepwise_readModel.bind fun _ =>
    stepwise_readGraph.bind fun _ => .pure _

end FactorForest.Checkpoint
