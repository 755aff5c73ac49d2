import FactorForest.Checkpoint
import FactorForest.Proofs.Archive.Storable
import FactorForest.Proofs.Model.Parts

set_option autoImplicit false

namespace FactorForest

/-- A state as its fields tell it, without the reports of children. -/
def TreeState.unmarked : TreeState → TreeState
  | .treeNode p h _ => .treeNode p h 0
  | t => t

theorem TreeState.phase_unmarked (t : TreeState) : t.unmarked.phase = t.phase := by
  cases t <;> rfl

theorem TreeState.parent_unmarked (t : TreeState) : t.unmarked.parent = t.parent := by
  cases t <;> rfl

theorem TreeState.height_unmarked (t : TreeState) : t.unmarked.height = t.height := by
  cases t <;> rfl

/-- The fields of a state make the state again, unless its parent is the number that stands for
none. -/
theorem TreeState.ofFields_own {t : TreeState} (h : t.parent ≠ some noParent) :
    ofFields t.phase.number t.parentNumber t.height 0 = .ok t.unmarked := by
  have hn : (if t.parentNumber = noParent then none else some t.parentNumber) = t.parent := by
    cases hp : t.parent with
    | none => simp [parentNumber, hp]
    | some p =>
      have hne : p ≠ noParent := fun he => h (he ▸ hp)
      simp [parentNumber, hp, hne]
  simp only [ofFields, hn]
  cases t <;> rfl

/-- The part of a vertex that has fields in an archive. -/
def Vertex.stored (x : Vertex) : Vertex := { x with tree := x.tree.unmarked, suitors := [] }

structure Model.Storable (bound : Nat) (m : Model) : Prop where
  vars : m.vars.size < 2 ^ 64
  count : m.factors.size < 2 ^ 64
  factors : ∀ f ∈ m.factors, f.Storable bound
  nameCount : m.names.length < 2 ^ 64
  names : ∀ s ∈ m.names, (Text.Utf8.encode s).length < bound

structure Vertex.Storable (bound : Nat) (x : Vertex) : Prop where
  self : x.self.Storable
  sample : x.sample.Storable
  someFactor : x.factorIds ≠ []
  idCount : x.factorIds.length < 2 ^ 64
  ids : ∀ i ∈ x.factorIds, Archive.Word i
  belief : x.belief.Storable bound
  scratch : x.scratch.Storable bound
  updates : Archive.Word x.updates
  parent : ∀ p, x.tree.parent = some p → 0 ≤ p ∧ p < 2 ^ 63
  height : Archive.Word x.tree.height
  bids : Archive.Word x.bids.count

/-- As before, but the parent may be any number of its field except the one that stands for none. -/
structure Vertex.Writable (bound : Nat) (x : Vertex) : Prop where
  /-- The fields of all but the state. -/
  record : Vertex.Storable bound { x with tree := .available }
  parent : ∀ p, x.tree.parent = some p → -2 ^ 63 ≤ p ∧ p < 2 ^ 63 ∧ p ≠ TreeState.noParent
  height : Archive.Word x.tree.height

theorem Vertex.Storable.writable {bound : Nat} {x : Vertex} (h : x.Storable bound) :
    x.Writable bound := by
  have hzero : Archive.Word 0 := by decide
  refine ⟨⟨h.self, h.sample, h.someFactor, h.idCount, h.ids, h.belief, h.scratch, h.updates,
    fun p hp => (nomatch hp), hzero, h.bids⟩, ?_, h.height⟩
  intro p hp
  have hrange := h.parent p hp
  unfold TreeState.noParent
  omega

structure Edge.Storable (bound : Nat) (e : Edge) : Prop where
  message : ∃ f, e.message = some f ∧ f.Storable bound
  pairFactor : ∃ f, e.pairFactor = some f ∧ f.Storable bound

namespace Checkpoint

open Archive

variable {bound : Nat}

theorem readsBack_weight (w : Option Double) : ReadsBack bound (writeWeight w) readWeight w := by
  cases w with
  | none => exact (readsBack_bool false).last (.pure none)
  | some x => exact (readsBack_bool true).bind ((readsBack_f64 x).last (.pure (some x)))

theorem readsBack_indexEntry {e : Nat × List Nat} (hk : e.1 < 2 ^ 64)
    (hl : e.2.length < 2 ^ 64) (hi : ∀ i ∈ e.2, i < 2 ^ 64) :
    ReadsBack bound (writeIndexEntry e) readIndexEntry e :=
  (readsBack_u64 hk).bind ((readsBack_u64List hl hi).last (.pure e))

theorem storable_registered {m : Model} (hr : m.Registered) (hs : m.Storable bound) {v : Variable}
    (hv : v ∈ m.vars.values) : v.Storable := by
  obtain ⟨id, hid⟩ := IdMap.mem_values.1 hv
  obtain ⟨-, f, hf, hvf⟩ := (hr.vars id v).1 hid
  exact (hs.factors f hf).1.2 v hvf

/-- A variable of a model whose tables can be stored has room for a table of its own. -/
theorem checkRoom_registered {m : Model} (hr : m.Registered) (hb : bound ≤ countBound)
    (hs : m.Storable bound) {v : Variable} (hv : v ∈ m.vars.values) :
    Factor.checkRoom (Scope.single v) = .ok () := by
  obtain ⟨id, hid⟩ := IdMap.mem_values.1 hv
  obtain ⟨-, f, hf, hvf⟩ := (hr.vars id v).1 hid
  have hsub : (Scope.single v).vars.Sublist f.scope.vars := List.singleton_sublist.2 hvf
  have hle : (Scope.single v).size ≤ f.table.size := f.size_eq ▸ Scope.volume_le_of_sublist hsub
  have hbytes := (hs.factors f hf).2
  refine if_pos ?_
  rw [countBound] at hb
  rw [Factor.cellLimit]
  omega

theorem readsBack_registered {m : Model} (hr : m.Registered) (hs : m.Storable bound)
    {e : Nat × List Nat} (he : e ∈ m.index.entries) :
    ReadsBack bound (writeIndexEntry e) readIndexEntry e := by
  have hk : e.1 ∈ m.index.keys := List.mem_map_of_mem he
  rw [hr.keys_index] at hk
  obtain ⟨v, hv⟩ := IdMap.mem_keys.1 hk
  have hid := ((hr.vars e.1 v).1 hv).1
  have hlt := (storable_registered hr hs (IdMap.mem_values.2 ⟨e.1, hv⟩)).1
  refine readsBack_indexEntry (hid ▸ hlt) ?_ ?_
  · rw [hr.entry_index he]
    exact Nat.lt_of_le_of_lt (Model.length_touching_le m e.1) hs.count
  · intro i hi
    rw [hr.entry_index he] at hi
    exact Nat.lt_trans (Model.lt_of_mem_touching hi) hs.count

theorem readsBack_model {m : Model} (hb : bound ≤ countBound) (hm : m.Built)
    (hs : m.Storable bound) : ReadsBack bound (writeModel m) readModel m := by
  have hr := hm.registered
  have hweights : m.weights.toList.length = m.factors.toList.length := hr.weights
  have hlv : m.vars.values.length < 2 ^ 64 := by
    rw [IdMap.values, List.length_map]
    exact hs.vars
  have hli : m.index.entries.length < 2 ^ 64 := hr.size_index.trans_lt hs.vars
  rw [writeModel]
  simp only [Written.append_assoc]
  refine (readsBack_list_id hlv fun v hv =>
    readsBack_variableField (storable_registered hr hs hv)).bind ?_
  refine (readsBack_list_id hs.count fun f hf =>
    readsBack_factor hb (hs.factors f (Array.mem_toList_iff.1 hf))).bind ?_
  refine (readsBack_list_id hli fun e => readsBack_registered hr hs).bind ?_
  refine (readsBack_strList hb hs.nameCount hs.names).bind ?_
  refine (readsBack_list_id (hweights ▸ hs.count) fun w _ => readsBack_weight w).last ?_
  simp only [hweights, ne_eq, not_true_eq_false, if_false]
  exact .checked (Model.reassemble_own hm)

theorem assemble_own {x : Vertex} (hs : x.Writable bound)
    (hroom : Factor.checkRoom (Scope.single x.self) = .ok ()) :
    assemble x.self x.sample (x.factorIds.map Int.toNat) x.belief x.scratch
      x.updates.toNat x.tree.parentNumber x.phase.number x.tree.height.toNat x.bids.count.toNat =
        .ok x.stored := by
  have hids : (x.factorIds.map Int.toNat).map Int.ofNat = x.factorIds :=
    map_ofNat_toNat fun i hi => (hs.record.ids i hi).1
  have hne : x.factorIds.map Int.toNat ≠ [] := by simpa using hs.record.someFactor
  have hh : (x.tree.height.toNat : Int) = x.tree.height := Int.toNat_of_nonneg hs.height.1
  have hu : (x.updates.toNat : Int) = x.updates := Int.toNat_of_nonneg hs.record.updates.1
  have hc : (x.bids.count.toNat : Int) = x.bids.count := Int.toNat_of_nonneg hs.record.bids.1
  have hp : x.tree.parent ≠ some TreeState.noParent := fun hp => (hs.parent _ hp).2.2 rfl
  rw [assemble, if_neg hne]
  simp only [hroom, hids, hh, hu, hc, Vertex.phase,
    TreeState.ofFields_own hp]
  rfl

theorem readsBack_vertex {x : Vertex} (hb : bound ≤ countBound) (hs : x.Writable bound)
    (hroom : Factor.checkRoom (Scope.single x.self) = .ok ()) :
    ReadsBack bound (writeVertex x) readVertex x.stored := by
  have hparent : -2 ^ 63 ≤ x.tree.parentNumber ∧ x.tree.parentNumber < 2 ^ 63 := by
    rw [TreeState.parentNumber]
    cases hp : x.tree.parent with
    | none => decide
    | some p => exact ⟨(hs.parent p hp).1, (hs.parent p hp).2.1⟩
  have hphase : x.phase.number < 2 ^ 32 := by cases x.phase <;> decide
  rw [writeVertex]
  simp only [Written.append_assoc]
  refine (readsBack_variableField hs.record.self).bind ?_
  refine (readsBack_assignment hs.record.sample).bind ?_
  refine (readsBack_list hs.record.idCount fun i hi =>
    readsBack_u64_of_word (hs.record.ids i hi)).bind ?_
  refine (readsBack_factor hb hs.record.belief).bind ?_
  refine (readsBack_factor hb hs.record.scratch).bind ?_
  refine (readsBack_u64_of_word hs.record.updates).bind ?_
  refine (readsBack_i64 hparent.1 hparent.2).bind ?_
  refine (readsBack_u32 hphase).bind ?_
  refine (readsBack_u64_of_word hs.height).bind ?_
  exact (readsBack_u64_of_word hs.record.bids).last (.checked (assemble_own hs hroom))

theorem readsBack_edge {e : Edge} (hb : bound ≤ countBound) (hs : e.Storable bound) :
    ReadsBack bound (writeEdge e) readEdge e := by
  obtain ⟨f, hf, hfs⟩ := hs.message
  obtain ⟨p, hp, hps⟩ := hs.pairFactor
  rw [writeEdge, hf, hp]
  simp only [Written.append_assoc]
  refine (readsBack_f64 e.weight).bind ((readsBack_factor hb hfs).bind
    ((readsBack_factor hb hps).bind ((readsBack_bool e.exploring).last ?_)))
  rw [← hf, ← hp]
  exact .pure e

end Checkpoint
end FactorForest
