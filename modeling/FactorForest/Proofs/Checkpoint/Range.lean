import FactorForest.Proofs.Archive.Range
import FactorForest.Proofs.Checkpoint.Accepted
import Mathlib.Data.List.Perm.Subperm

set_option autoImplicit false

namespace FactorForest

theorem TreeState.parentOf_eq_some {p q : Int} (h : parentOf p = some q) :
    q = p ∧ q ≠ noParent := by
  unfold parentOf at h
  split_ifs at h with hp
  cases h
  exact ⟨rfl, hp⟩

theorem TreeState.parent_ofFields {n p h q : Int} {t : TreeState} (ht : ofFields n p h 0 = .ok t)
    (hq : t.parent = some q) : q = p ∧ q ≠ noParent := by
  apply parentOf_eq_some
  rcases ofFields_eq_ok ht with rfl | ⟨r, hr, rfl⟩ | rfl | rfl | rfl
  · cases hq
  · exact hr.trans hq
  · exact hq
  · exact hq
  · exact hq

theorem TreeState.height_ofFields {n p h : Int} {t : TreeState} (ht : ofFields n p h 0 = .ok t) :
    t.height = h ∨ t.height = 0 := by
  rcases ofFields_eq_ok ht with rfl | ⟨r, -, rfl⟩ | rfl | rfl | rfl
  · exact .inr rfl
  · exact .inr rfl
  · exact .inl rfl
  · exact .inl rfl
  · exact .inl rfl

theorem Vertex.Writable.rejoined {bound : Nat} {x : Vertex} (h : x.Writable bound)
    (heights : Int → Int) : (x.rejoined heights).Writable bound := by
  rw [rejoined_eq]
  exact ⟨{ h.record with }, h.parent, h.height⟩

namespace Graph

theorem Tight.linked {g : Graph} (hg : g.Tight) (ls : List (Nat × Nat × Edge)) :
    (g.linked ls).Tight := by
  induction ls generalizing g with
  | nil => exact hg
  | cons l ls ih => exact ih (hg.setLink l.1 l.2.1 l.2.2)

theorem mem_of_mem_edges_linked {g : Graph} {ls : List (Nat × Nat × Edge)} {l : Nat × Nat × Edge}
    (h : l ∈ (g.linked ls).edges) : l ∈ ls ∨ l ∈ g.edges := by
  induction ls generalizing g with
  | nil => exact .inr h
  | cons k ls ih =>
    rcases ih h with hl | hl
    · exact .inl (List.mem_cons_of_mem k hl)
    · obtain ⟨u, v, e⟩ := l
      rw [mem_edges, edge?_setLink] at hl
      split at hl
      · rename_i huv
        obtain ⟨rfl, rfl⟩ := huv
        cases hl
        exact .inl List.mem_cons_self
      · exact .inr (mem_edges.2 hl)

theorem edges_linked_subset {g : Graph} (hg : g.links = {}) (ls : List (Nat × Nat × Edge)) :
    (g.linked ls).edges ⊆ ls := by
  intro l hl
  refine (mem_of_mem_edges_linked hl).resolve_right fun hl => ?_
  rw [mem_edges, edge?_of_no_links hg] at hl
  exact nomatch hl

theorem edgeCount_linked_le {g : Graph} (hg : g.links = {}) (ls : List (Nat × Nat × Edge)) :
    (g.linked ls).edgeCount ≤ ls.length :=
  (List.Nodup.subperm (g.linked ls).nodup_edges (edges_linked_subset hg ls)).length_le

theorem writable_linked {bound : Nat} {g : Graph} (hlinks : g.links = {})
    (hcount : g.vertices.size < 2 ^ 64) (hvs : ∀ x ∈ g.vertices, x.Writable bound)
    {ls : List (Nat × Nat × Edge)} (hlength : ls.length < 2 ^ 64)
    (hls : ∀ l ∈ ls, l.2.2.Storable bound) : (g.linked ls).Writable bound := by
  have hedges := edges_linked_subset hlinks ls
  refine ⟨?_, ?_, ?_, fun l hl => hls l (hedges hl)⟩
  · rw [vertices_linked]
    exact hcount
  · rw [vertices_linked]
    exact hvs
  · exact (edgeCount_linked_le hlinks ls).trans_lt hlength

theorem Writable.recolor {bound : Nat} {g : Graph} (h : g.Writable bound) :
    g.recolor.Writable bound :=
  { h with }

end Graph

namespace Checkpoint

open Archive

variable {bound : Nat}

theorem yields_writableVertex : Yields bound readVertex (Vertex.Writable bound) := by
  refine yields_variableField.bind fun v hv => yields_assignment.bind fun sample hsample => ?_
  refine (yields_list yields_u64).bind fun ids ⟨hcount, hids⟩ => ?_
  refine yields_factor.bind fun belief hbelief => yields_factor.bind fun scratch hscratch => ?_
  refine yields_u64.bind fun updates hupdates => yields_i64.bind fun parent hparent => ?_
  refine .after fun phase => yields_u64.bind fun height hheight => ?_
  refine yields_u64.bind fun bids hbids => .checked fun x hx => ?_
  obtain ⟨hne, t, ht, rfl⟩ := assemble_eq_ok hx
  have hzero : Word 0 := by decide
  have hwords : ∀ i ∈ ids.map Int.ofNat, Word i := by
    intro i hi
    obtain ⟨k, hk, rfl⟩ := List.mem_map.1 hi
    exact word_natCast.2 (hids k hk)
  refine ⟨⟨hv, hsample, by simpa using hne, by simpa using hcount, hwords, hbelief, hscratch,
    word_natCast.2 hupdates, fun q hq => (nomatch hq), hzero, word_natCast.2 hbids⟩, ?_, ?_⟩
  · intro q hq
    obtain ⟨rfl, hne⟩ := TreeState.parent_ofFields ht hq
    exact ⟨hparent.1, hparent.2, hne⟩
  · rcases TreeState.height_ofFields ht with hh | hh
    · exact hh ▸ word_natCast.2 hheight
    · exact hh ▸ hzero

theorem yields_writableVertices (n : Nat) {g : Graph}
    (hg : ∀ x ∈ g.vertices, x.Writable bound) :
    Yields bound (readVertices g n) fun h =>
      h.vertices.size = g.vertices.size + n ∧ ∀ x ∈ h.vertices, x.Writable bound := by
  induction n generalizing g with
  | zero => exact .pure ⟨rfl, hg⟩
  | succ n ih =>
    refine yields_writableVertex.bind fun x hx => .guarded fun _ => ?_
    have hall : ∀ y ∈ (g.addVertex x).vertices, y.Writable bound := by
      intro y hy
      rcases Array.mem_push.1 hy with hy | rfl
      · exact hg y hy
      · exact hx
    refine (ih hall).mono fun h ⟨hsize, hh⟩ => ⟨?_, hh⟩
    rw [hsize, Graph.addVertex, Array.size_push]
    omega

theorem yields_storableEdge : Yields bound readEdge (Edge.Storable bound) :=
  .after fun _ => yields_factor.bind fun f hf => yields_factor.bind fun p hp => .after fun _ =>
    .pure ⟨⟨f, rfl, hf⟩, p, rfl, hp⟩

theorem yields_linked (n : Nat) (g : Graph) :
    Yields bound (readLinks g n) fun h => ∃ ls, ls.length = n ∧
      (∀ l ∈ ls, l.2.2.Storable bound) ∧ h = g.linked ls := by
  induction n generalizing g with
  | zero => exact .pure ⟨[], rfl, fun l hl => absurd hl List.not_mem_nil, rfl⟩
  | succ n ih =>
    refine .after fun i => .after fun j => yields_storableEdge.bind fun e he => ?_
    refine (Yields.checked (P := fun h => ∃ u v, h = g.setLink u v e) fun h hadd => ?_).bind
      fun h ⟨u, v, hh⟩ => (ih h).mono fun h' ⟨ls, hl, hls, hh'⟩ => ?_
    · obtain ⟨u, v, -, -, -, -, -, rfl⟩ := Graph.addEdge_eq_ok_iff.1 hadd
      exact ⟨u, v, rfl⟩
    · refine ⟨(u, v, e) :: ls, congrArg (· + 1) hl, ?_, ?_⟩
      · exact List.forall_mem_cons.2 ⟨he, hls⟩
      · rw [hh', hh]
        rfl

theorem yields_writableGraph :
    Yields bound readGraph fun g => g.Writable bound ∧ g.Tight := by
  refine yields_listLength.bind fun n hn => ?_
  have hnone : ∀ x ∈ ({} : Graph).vertices, x.Writable bound := fun x hx => by simp at hx
  refine ((yields_readVertices n Graph.unlinked_empty).and
    (yields_writableVertices n hnone)).bind fun g ⟨hg, hsize, hvs⟩ => ?_
  refine (yields_liftExcept (P := (· = g.rejoined)) fun h hr =>
    (parentsKnown_of_restoreSuitors hr).2).bind fun h hh => yields_listLength.bind fun k hk => ?_
  refine (yields_linked k h).bind fun h' ⟨ls, hl, hls, hh'⟩ => .pure ?_
  have hlinks : h.links = {} := by rw [hh]; exact hg.links
  have hcount : h.vertices.size < 2 ^ 64 := by
    rw [hh, Graph.rejoined, Array.size_map, hsize]
    exact Nat.lt_of_le_of_lt (Nat.le_of_eq (Nat.zero_add n)) hn
  have hvertices : ∀ x ∈ h.vertices, x.Writable bound := by
    rw [hh, Graph.rejoined]
    intro x hx
    obtain ⟨y, hy, rfl⟩ := Array.mem_map.1 hx
    exact (hvs y hy).rejoined _
  subst hh'
  constructor
  · exact (Graph.writable_linked hlinks hcount hvertices (hl.trans_lt hk) hls).recolor
  · exact (Graph.tight_of_no_links hlinks).linked ls

theorem yields_storableModel : Yields bound readModel (Model.Storable bound) := by
  refine (yields_list yields_variableField).bind fun vars ⟨hvars, _⟩ => ?_
  refine (yields_list yields_factor).bind fun factors ⟨hcount, hfactors⟩ => .after fun index => ?_
  refine (yields_list yields_str).bind fun names ⟨hnameCount, hnames⟩ => .after fun weights => ?_
  refine .guarded fun _ => .checked fun m hm => ?_
  obtain ⟨hv, hf, hn⟩ := Model.parts_of_ofParts hm
  refine ⟨hv.trans_lt hvars, ?_, ?_, hn ▸ hnameCount, hn ▸ hnames⟩
  · rw [← Array.length_toList, hf]
    exact hcount
  · intro f hm
    exact hfactors f (hf ▸ Array.mem_toList_iff.2 hm)

theorem writable_of_load {bytes : List UInt8} {m : Model} {g : Graph}
    (h : load bytes = .ok (m, g)) :
    m.Storable fileCountBound ∧ g.Writable fileCountBound ∧ g.Tight := by
  have hyields : Yields fileCountBound readAll fun r => r.1.Storable fileCountBound ∧
      r.2.Writable fileCountBound ∧ r.2.Tight := by
    refine .after fun _ => yields_storableModel.bind fun m hm => ?_
    refine yields_writableGraph.bind fun g hg => ?_
    exact .after fun _ => .guarded fun _ => .guarded fun _ => .pure ⟨hm, hg⟩
  obtain ⟨rest, hr⟩ := load_eq_ok_iff.1 h
  exact hyields _ _ _ hr

end Checkpoint
end FactorForest
