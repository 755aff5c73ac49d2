import FactorForest.Proofs.Archive.Runs
import FactorForest.Proofs.Checkpoint.RoundTrip
import FactorForest.Proofs.Fault

set_option autoImplicit false

namespace FactorForest

/-- The parent that the parent number of a record stands for. -/
def TreeState.parentOf (p : Int) : Option Int := if p = noParent then none else some p

theorem TreeState.ofFields_eq_ok {n p h : Int} {t : TreeState} (ht : ofFields n p h 0 = .ok t) :
    t = .available ∨ (∃ q, parentOf p = some q ∧ t = .candidate q) ∨
      t = .boundary (parentOf p) h ∨ t = .treeNode (parentOf p) h 0 ∨
      t = .calibrated (parentOf p) h := by
  unfold ofFields at ht
  dsimp only at ht
  rw [← parentOf] at ht
  cases hp : Phase.ofNumber? n with
  | none =>
    rw [hp] at ht
    cases ht
  | some phase =>
    rw [hp] at ht
    cases phase with
    | available =>
      cases ht
      exact .inl rfl
    | candidate =>
      cases hq : parentOf p with
      | none =>
        rw [hq] at ht
        cases ht
      | some q =>
        rw [hq] at ht
        cases ht
        exact .inr (.inl ⟨q, rfl, rfl⟩)
    | boundary =>
      cases ht
      exact .inr (.inr (.inl rfl))
    | treeNode =>
      cases ht
      exact .inr (.inr (.inr (.inl rfl)))
    | calibrated =>
      cases ht
      exact .inr (.inr (.inr (.inr rfl)))

theorem TreeState.unmarked_ofFields {n p h : Int} {t : TreeState} (ht : ofFields n p h 0 = .ok t) :
    t.unmarked = t := by
  rcases ofFields_eq_ok ht with rfl | ⟨q, -, rfl⟩ | rfl | rfl | rfl <;> rfl

theorem TreeState.markedUp_unmarked (t : TreeState) : t.unmarked.markedUp = 0 := by
  cases t <;> rfl

namespace Graph

/-- Vertices as their records tell them, each in the place of its id, and no edges. -/
structure Unlinked (g : Graph) : Prop where
  ids : ∀ (i : Nat) (x : Vertex), g.vertices[i]? = some x → x.self.id = i
  someFactor : ∀ x ∈ g.vertices, x.factorIds ≠ []
  stored : ∀ x ∈ g.vertices, x.stored = x
  links : g.links = {}

/-- Every edge has both of its tables. -/
def Tabled (g : Graph) : Prop :=
  ∀ (u v : Nat) (e : Edge), g.edge? u v = some e → e.message.isSome ∧ e.pairFactor.isSome

theorem unlinked_empty : Unlinked {} := by
  refine ⟨?_, ?_, ?_, rfl⟩ <;> simp

theorem Unlinked.addVertex {g : Graph} (hg : g.Unlinked) {x : Vertex}
    (hid : x.self.id = g.vertices.size) (hf : x.factorIds ≠ []) (hs : x.stored = x) :
    (g.addVertex x).Unlinked := by
  refine ⟨?_, ?_, ?_, hg.links⟩
  · intro i y hy
    rw [Graph.addVertex, Array.getElem?_push] at hy
    split at hy
    · rename_i hi
      rw [← Option.some.inj hy, hid, hi]
    · exact hg.ids i y hy
  · intro y hy
    rcases Array.mem_push.1 hy with hy | rfl
    · exact hg.someFactor y hy
    · exact hf
  · intro y hy
    rcases Array.mem_push.1 hy with hy | rfl
    · exact hg.stored y hy
    · exact hs

theorem tabled_of_no_links {g : Graph} (h : g.links = {}) : g.Tabled := fun u v e he =>
  absurd he (by simp [edge?_of_no_links h])

theorem tabled_setLink {g : Graph} (hg : g.Tabled) {a b : Nat} {e : Edge}
    (he : e.message.isSome ∧ e.pairFactor.isSome) : (g.setLink a b e).Tabled := by
  intro u v d hd
  rw [edge?_setLink] at hd
  split at hd
  · exact Option.some.inj hd ▸ he
  · exact hg u v d hd

/-- What a graph that was read is sure to satisfy. -/
structure Restored (g : Graph) : Prop where
  ids : ∀ (i : Nat) (x : Vertex), g.vertices[i]? = some x → x.self.id = i
  someFactor : ∀ x ∈ g.vertices, x.factorIds ≠ []
  reports : ∀ x ∈ g.vertices, x.tree.markedUp = 0
  parents : g.ParentsKnown
  /-- A candidate has its tentative parent as its one suitor, at the height that the parent has. -/
  suitor : ∀ x ∈ g.vertices, ∀ p, x.tree = .candidate p → x.suitors = [(p, g.heightAt p)]
  quiet : ∀ x ∈ g.vertices, x.phase ≠ .candidate → x.suitors = []
  sound : g.Sound
  tabled : g.Tabled
  colored : g.recolor = g

theorem heightAt_map {g h : Graph} {f : Vertex → Vertex} (hv : h.vertices = g.vertices.map f)
    (hf : ∀ x, (f x).tree.height = x.tree.height) : h.heightAt = g.heightAt := by
  funext i
  simp only [heightAt, hv, Array.getElem?_map]
  split
  · cases g.vertices[i.toNat]? with
    | none => rfl
    | some x => simp [hf]
  · rfl

theorem restored_rejoined {g h : Graph} (hg : g.Unlinked) (hp : g.ParentsKnown)
    (hv : h.vertices = g.rejoined.vertices) (hs : h.Sound) (ht : h.Tabled)
    (hc : h.recolor = h) : h.Restored := by
  -- a vertex of `h` is one of `g` with its suitor back, and that is all that was done to it
  have hmem : ∀ x ∈ h.vertices, ∃ y ∈ g.vertices, y.rejoined g.heightAt = x := by
    rw [hv]
    exact fun x hx => Array.mem_map.1 hx
  have hheight : h.heightAt = g.heightAt :=
    heightAt_map hv fun x => by rw [Vertex.tree_rejoined]
  have hnone : ∀ y ∈ g.vertices, y.suitors = [] := fun y hy =>
    congrArg Vertex.suitors (hg.stored y hy).symm
  refine ⟨?_, ?_, ?_, ?_, ?_, ?_, hs, ht, hc⟩
  · intro i x hx
    rw [hv, rejoined, Array.getElem?_map] at hx
    obtain ⟨y, hy, rfl⟩ := Option.map_eq_some_iff.1 hx
    rw [Vertex.rejoined_eq]
    exact hg.ids i y hy
  · intro x hx
    obtain ⟨y, hy, rfl⟩ := hmem x hx
    rw [Vertex.rejoined_eq]
    exact hg.someFactor y hy
  · intro x hx
    obtain ⟨y, hy, rfl⟩ := hmem x hx
    rw [Vertex.tree_rejoined, ← hg.stored y hy]
    exact y.tree.markedUp_unmarked
  · intro x hx p hxp
    obtain ⟨y, hy, rfl⟩ := hmem x hx
    rw [Vertex.tree_rejoined] at hxp
    simpa [Graph.holds, hv, rejoined] using hp y hy p hxp
  · intro x hx p hxp
    obtain ⟨y, hy, rfl⟩ := hmem x hx
    rw [Vertex.tree_rejoined] at hxp
    simp [Vertex.rejoined, hxp, hnone y hy, hheight]
  · intro x hx hxp
    obtain ⟨y, hy, rfl⟩ := hmem x hx
    rw [Vertex.phase, Vertex.tree_rejoined] at hxp
    rw [Vertex.rejoined]
    split
    · rename_i p hyp
      exact absurd (by rw [hyp]; rfl) hxp
    · exact hnone y hy

end Graph

namespace Checkpoint

open Archive

variable {bound : Nat}

theorem assemble_eq_ok {v : Variable} {sample : Assignment} {ids : List Nat}
    {belief scratch : Factor} {updates : Nat} {parent : Int}
    {phase height bids : Nat} {x : Vertex}
    (h : assemble v sample ids belief scratch updates parent phase height bids = .ok x) :
    ids ≠ [] ∧ ∃ t, TreeState.ofFields phase parent height 0 = .ok t ∧ x = {
      self := v, sample, factorIds := ids.map Int.ofNat, belief, scratch, updates, tree := t
      bids := ⟨bids⟩ } := by
  unfold assemble at h
  split at h
  · exact nomatch h
  · rename_i hids
    obtain ⟨-, -, h⟩ := bind_eq_ok_iff.1 h
    obtain ⟨t, ht, h⟩ := bind_eq_ok_iff.1 h
    exact ⟨hids, t, ht, (Except.ok.inj h).symm⟩

theorem yields_readVertex :
    Yields bound readVertex fun x => x.factorIds ≠ [] ∧ x.stored = x := by
  refine .after fun _ => .after fun _ => .after fun _ => .after fun _ => .after fun _ =>
    .after fun _ => .after fun _ => .after fun _ => .after fun _ => .after fun _ =>
      .checked fun x hx => ?_
  obtain ⟨hids, t, ht, rfl⟩ := assemble_eq_ok hx
  refine ⟨by simpa using hids, ?_⟩
  simp only [Vertex.stored, TreeState.unmarked_ofFields ht]

theorem yields_readVertices (n : Nat) {g : Graph} (hg : g.Unlinked) :
    Yields bound (readVertices g n) Graph.Unlinked := by
  induction n generalizing g with
  | zero => exact .pure hg
  | succ n ih =>
    refine yields_readVertex.bind fun x ⟨hf, hs⟩ => .guarded fun hid => ?_
    exact ih (hg.addVertex (not_not.1 hid) hf hs)

theorem holds_of_parent {g : Graph} {p : Int} {x : Vertex}
    (h : (if 0 ≤ p then g.vertices[p.toNat]? else none) = some x) : g.holds p := by
  split at h
  · rename_i h0
    exact Graph.holds_iff.2 ⟨p.toNat, (Int.toNat_of_nonneg h0).symm, Graph.lt_of_getElem? h⟩
  · exact nomatch h

theorem map_tree_setVertex {g : Graph} {n : Nat} {x y : Vertex} (hx : g.vertices[n]? = some x)
    (ht : y.tree = x.tree) : (g.setVertex n y).vertices.map (·.tree) = g.vertices.map (·.tree) := by
  apply Array.ext_getElem?
  intro i
  rw [Array.getElem?_map, Array.getElem?_map, Graph.getElem?_setVertex hx]
  by_cases hi : i = n
  · rw [if_pos hi, hi, hx, Option.map_some, Option.map_some, ht]
  · rw [if_neg hi]

theorem restoreSuitors_cons_ok {g h : Graph} {n : Nat} {ns : List Nat}
    (hr : restoreSuitors g (n :: ns) = .ok h) :
    (∀ x p, g.vertices[n]? = some x → x.tree = .candidate p → g.holds p) ∧
      ∃ g', restoreSuitors g' ns = .ok h ∧
        g'.vertices.map (·.tree) = g.vertices.map (·.tree) := by
  unfold restoreSuitors at hr
  split at hr
  · rename_i hnone
    refine ⟨fun x p hx => ?_, g, hr, rfl⟩
    cases hnone.symm.trans hx
  · rename_i z hz
    split at hr
    · rename_i q hq
      split at hr
      · cases hr
      · rename_i parent hparent
        obtain ⟨y, hy, hrest⟩ := bind_eq_ok_iff.1 hr
        have htree : y.tree = z.tree := by
          simp only [Vertex.restoreSuitor, hq, if_true] at hy
          cases hy
          exact hq ▸ rfl
        refine ⟨fun x p hx hp => ?_, _, hrest, map_tree_setVertex hz htree⟩
        cases hz.symm.trans hx
        cases hq.symm.trans hp
        exact holds_of_parent hparent
    · rename_i hother
      refine ⟨fun x p hx hp => ?_, g, hr, rfl⟩
      cases hz.symm.trans hx
      exact absurd hp (hother p)

theorem holds_of_restoreSuitors {g h : Graph} {ns : List Nat} (hr : restoreSuitors g ns = .ok h)
    {n : Nat} (hn : n ∈ ns) {x : Vertex} (hx : g.vertices[n]? = some x) {p : Int}
    (hp : x.tree = .candidate p) : g.holds p := by
  -- the graph changes along the list, but neither its size nor a state does
  induction ns generalizing g x with
  | nil => exact absurd hn List.not_mem_nil
  | cons k ks ih =>
    obtain ⟨hfirst, g', hrest, htrees⟩ := restoreSuitors_cons_ok hr
    rcases List.mem_cons.1 hn with rfl | hn
    · exact hfirst x p hx hp
    · have hn' : (g'.vertices.map (·.tree))[n]? = some x.tree := by
        rw [htrees, Array.getElem?_map, hx, Option.map_some]
      rw [Array.getElem?_map] at hn'
      obtain ⟨x', hx', hx'p⟩ := Option.map_eq_some_iff.1 hn'
      have hsize : g'.vertices.size = g.vertices.size := by simpa using congrArg Array.size htrees
      have hold := ih hrest hn hx' (hx'p.trans hp)
      rwa [Graph.holds, hsize] at hold

theorem parentsKnown_of_restoreSuitors {g h : Graph}
    (hr : restoreSuitors g (List.range g.vertices.size) = .ok h) :
    g.ParentsKnown ∧ h = g.rejoined := by
  have hp : g.ParentsKnown := by
    intro x hx p ht
    obtain ⟨n, hn⟩ := Array.mem_iff_getElem?.1 hx
    exact holds_of_restoreSuitors hr (List.mem_range.2 (Graph.lt_of_getElem? hn)) hn ht
  refine ⟨hp, ?_⟩
  rw [restoreSuitors_range hp] at hr
  exact (Except.ok.inj hr).symm

theorem yields_liftExcept {α : Type} {x : Except Fault α} {P : α → Prop}
    (h : ∀ a, x = .ok a → P a) : Yields bound (readGraph.liftExcept x) P := by
  cases x with
  | ok a => exact .pure (h a rfl)
  | error e => exact fun _ _ _ hr => nomatch hr

theorem yields_readEdge : Yields bound readEdge fun e => e.message.isSome ∧ e.pairFactor.isSome :=
  .after fun _ => .after fun _ => .after fun _ => .after fun _ => .pure ⟨rfl, rfl⟩

theorem yields_readLinks (n : Nat) {g : Graph} (hg : g.Sound) (ht : g.Tabled) :
    Yields bound (readLinks g n) fun h => h.vertices = g.vertices ∧ h.Sound ∧ h.Tabled := by
  induction n generalizing g with
  | zero => exact .pure ⟨rfl, hg, ht⟩
  | succ n ih =>
    refine .after fun u => .after fun v => yields_readEdge.bind fun e he => ?_
    refine (Yields.checked (P := fun h => h.vertices = g.vertices ∧ h.Sound ∧ h.Tabled)
      fun h hadd => ?_).bind fun h ⟨hv, hs, htab⟩ => ?_
    · -- adding an edge keeps all three, so the rest starts as this one did
      obtain ⟨a, b, -, -, -, -, -, rfl⟩ := Graph.addEdge_eq_ok_iff.1 hadd
      exact ⟨rfl, hg.addEdge hadd, Graph.tabled_setLink ht he⟩
    · exact hv ▸ ih hs htab

theorem yields_bareLinks (n : Nat) {g : Graph} (hl : g.links = {}) :
    Yields bound (readLinks g n) fun h => h.vertices = g.vertices ∧ h.Sound ∧ h.Tabled :=
  yields_readLinks n (Graph.sound_of_no_links hl) (Graph.tabled_of_no_links hl)

theorem yields_readGraph : Yields bound readGraph Graph.Restored := by
  refine .after fun n => (yields_readVertices n Graph.unlinked_empty).bind fun g hg => ?_
  refine (yields_liftExcept (P := fun h => g.ParentsKnown ∧ h = g.rejoined)
    fun h => parentsKnown_of_restoreSuitors).bind fun h ⟨hp, hh⟩ => .after fun k => ?_
  have hlinks : h.links = {} := by rw [hh]; exact hg.links
  refine (yields_bareLinks k hlinks).bind fun h' ⟨hv, hs, ht⟩ => .pure ?_
  exact Graph.restored_rejoined hg hp (g := g) (h := h'.recolor) (hh ▸ hv) hs ht rfl

theorem yields_readModel : Yields bound readModel Model.Built :=
  .after fun _ => .after fun _ => .after fun _ => .after fun _ => .after fun _ =>
    .guarded fun _ => .checked fun _ => Model.built_of_ofParts

theorem load_eq_ok_iff {bytes : List UInt8} {r : Model × Graph} :
    load bytes = .ok r ↔ ∃ rest, readAll.start fileCountBound bytes = (.ok r, rest) := by
  rw [load]
  cases readAll.start fileCountBound bytes with
  | mk first rest => simp

theorem restored_of_load {bytes : List UInt8} {m : Model} {g : Graph}
    (h : load bytes = .ok (m, g)) :
    m.Built ∧ g.Restored ∧ g.vertices.toList.map (·.self) = m.vars.values := by
  have hyields : Yields fileCountBound readAll fun r => r.1.Built ∧ r.2.Restored ∧
      r.2.vertices.toList.map (·.self) = r.1.vars.values := by
    refine .after fun _ => yields_readModel.bind fun m hm => yields_readGraph.bind fun g hg => ?_
    exact .after fun _ => .guarded fun _ => .guarded fun hself => .pure ⟨hm, hg, not_not.1 hself⟩
  obtain ⟨rest, hr⟩ := load_eq_ok_iff.1 h
  exact hyields _ _ _ hr

end Checkpoint
end FactorForest
