import FactorForest.Proofs.Assignment
import FactorForest.Proofs.Checkpoint.Fresh
import FactorForest.Proofs.Graph.Recoloring
import FactorForest.Report

set_option autoImplicit false

namespace FactorForest

theorem Double.greater_self (x : Double) : x.greater x = x := by
  rw [greater]
  split
  · rfl
  · split <;> rfl

theorem Factor.peak_constant (s : Scope) (x : Double) : (constant s x).peak = x := by
  have hfold : ∀ n, (List.replicate n x).foldl Double.greater x = x := fun n => by
    induction n with
    | zero => rfl
    | succ n ih => rw [List.replicate_succ, List.foldl_cons, Double.greater_self, ih]
  have hfirst : (constant s x).table.getD 0 .zero = x := by
    have hpos : 0 < s.size := Assignment.volume_pos s.vars
    simp [constant, hpos]
  rw [peak, hfirst, constant, Array.toList_replicate, hfold]

namespace Report

variable {precision : Int}

theorem fault_ofLines {α : Type} {line : α → Except Fault String} {as : List α}
    (h : ∀ a ∈ as, ∃ s, line a = .ok s) : (ofLines line as).fault = none := by
  induction as with
  | nil => rfl
  | cons a as ih =>
    obtain ⟨hhead, htail⟩ := List.forall_mem_cons.1 h
    obtain ⟨s, hs⟩ := hhead
    rw [ofLines, hs]
    exact ih htail

theorem mapM_cell (h0 : 0 ≤ precision) (h : precision ≤ maxPrecision) (ps : List Double) :
    ps.mapM (cell precision) = .ok (ps.map (·.general precision.toNat)) := by
  have hcell : cell precision = fun x => pure (x.general precision.toNat) := by
    funext x
    have hlong : ¬ 2 ^ 63 ≤ precision := not_le.2 (h.trans_lt (by decide))
    rw [cell, if_neg (not_lt.2 h0), if_neg hlong, if_neg (not_lt.2 h)]
    rfl
  rw [hcell, List.mapM_pure]
  rfl

theorem exists_beliefLine {x : Vertex} (hpeak : x.belief.peak ≠ .negInfinity)
    (hupdates : Fault.writable x.updates) (h0 : 0 ≤ precision) (h : precision ≤ maxPrecision) :
    ∃ s, beliefLine precision x = .ok s := by
  have hnormal : ∃ ps, x.belief.probabilities = .ok ps := by
    rw [Factor.probabilities, Factor.normalize, if_neg hpeak]
    exact ⟨_, rfl⟩
  obtain ⟨ps, hps⟩ := hnormal
  rw [beliefLine, hps, Fault.writeOut_one hupdates]
  exact ⟨_, bind_eq_ok_iff.2 ⟨_, rfl, bind_eq_ok_iff.2 ⟨_, rfl,
    bind_eq_ok_iff.2 ⟨_, mapM_cell h0 h ps, rfl⟩⟩⟩⟩

end Report

namespace Graph.Cooccurrence

open Report

variable {bound : Nat} {m : Model} {init : Double} {draws : Draws} {g : Graph} {precision : Int}

theorem fault_beliefs (h : g.Cooccurrence m init draws) (hinit : init ≠ .negInfinity)
    (h0 : 0 ≤ precision) (hmax : precision ≤ maxPrecision) :
    (beliefs g precision).fault = none := by
  refine fault_ofLines fun x hx => ?_
  obtain ⟨i, hi⟩ := List.mem_iff_getElem?.1 hx
  obtain ⟨-, hstart⟩ := h.starts (Array.getElem?_toList ▸ hi)
  have hpeak : x.belief.peak ≠ .negInfinity := by
    rwa [hstart.belief, Factor.peak_constant]
  have hupdates : Fault.writable x.updates := by
    rw [hstart.updates]
    exact Fault.writable_of_natAbs_lt (by decide)
  exact exists_beliefLine hpeak hupdates h0 hmax

theorem fault_samples (h : g.Cooccurrence m init draws) (hm : m.Registered)
    (hs : m.Storable bound) : (samples g).fault = none := by
  -- the place of a vertex is the id of its variable, and its sample is over that variable
  refine fault_ofLines fun p hp => ?_
  have hplace : g.vertices[p.2]? = some p.1 := by
    simpa using List.mem_zipIdx_iff_getElem?.1 hp
  obtain ⟨hfind, hstart⟩ := h.starts hplace
  have hid : p.1.self.id = p.2 := ((hm.vars _ _).1 hfind).1
  have hmem : p.1.self ∈ p.1.sample.scope.vars := by simp [hstart.sampleScope, Scope.single]
  obtain ⟨value, hget, hlt⟩ := Assignment.get_mem hmem
  have hsmall : Fault.writable value :=
    Fault.writable_of_natAbs_lt (hlt.trans (h.storable_vertex hm hs hplace).self.2)
  rw [hid] at hget
  exact ⟨_, bind_eq_ok_iff.2 ⟨value, hget, Fault.writeOut_one hsmall _⟩⟩

theorem fault_treeStates (h : g.Cooccurrence m init draws) : (treeStates g).fault = none := by
  refine fault_ofLines fun p hp => ?_
  have hplace : g.vertices[p.2]? = some p.1 := by
    simpa using List.mem_zipIdx_iff_getElem?.1 hp
  have hparent : Fault.writable p.1.tree.parentNumber := by
    rw [(h.starts hplace).2.tree]
    exact Fault.writable_of_natAbs_lt (by decide)
  exact ⟨_, Fault.writeOut_one hparent _⟩

end Graph.Cooccurrence

theorem Report.fault_colors {g : Graph} (h : g.recolor = g) : (colors g).fault = none := by
  refine fault_ofLines fun n hn => ?_
  have hsize : g.colors.size = g.vertices.size := by
    rw [← h]
    exact g.size_greedyColors
  obtain ⟨c, hc⟩ := Graph.exists_colorOf_iff.2 ⟨n, rfl, hsize ▸ List.mem_range.1 hn⟩
  exact ⟨_, bind_eq_ok_iff.2 ⟨c, hc, rfl⟩⟩

end FactorForest
