import FactorForest.Proofs.Checkpoint.Stable
import FactorForest.Proofs.Graph.Clique

set_option autoImplicit false

namespace FactorForest

instance : Std.Antisymm fun v w : Variable => v.id < w.id :=
  ⟨fun _ _ h k => absurd h (Nat.lt_asymm k)⟩

theorem Scope.sublist_of_subset {s t : Scope} (h : s.vars ⊆ t.vars) : s.vars.Sublist t.vars :=
  List.sublist_of_subperm_of_pairwise
    ((List.Nodup.of_map _ s.ids_nodup).subperm h) s.ascending t.ascending

theorem Factor.storable_constant {bound : Nat} {f : Factor} (hf : f.Storable bound) {s : Scope}
    (h : s.vars ⊆ f.scope.vars) (x : Double) : (Factor.constant s x).Storable bound := by
  have hsub := Scope.sublist_of_subset h
  have hsize : s.size ≤ f.table.size := f.size_eq ▸ Scope.volume_le_of_sublist hsub
  refine ⟨⟨hsub.length_le.trans_lt hf.1.1, fun v hv => hf.1.2 v (h hv)⟩, ?_⟩
  have hlt := hf.2
  simp only [Factor.constant, Array.size_replicate]
  omega

namespace Graph.Cooccurrence

variable {bound : Nat} {m : Model} {init : Double} {draws : Draws} {g : Graph}

theorem factorIds_ne_nil (h : g.Cooccurrence m init draws) (hm : m.Registered) {i : Nat}
    {x : Vertex} (hx : g.vertices[i]? = some x) : x.factorIds ≠ [] := by
  obtain ⟨hfind, hstart⟩ := h.starts hx
  have hid := ((hm.vars i x.self).1 hfind).1
  simpa [hstart.factorIds] using (factorIds_registered hm (hid ▸ hfind)).2

theorem storable_vertex (h : g.Cooccurrence m init draws) (hm : m.Registered)
    (hs : m.Storable bound) {i : Nat} {x : Vertex} (hx : g.vertices[i]? = some x) :
    x.Storable bound := by
  obtain ⟨hfind, hstart⟩ := h.starts hx
  obtain ⟨rfl, f, hf, hv⟩ := (hm.vars i x.self).1 hfind
  have hself : x.self.Storable := (hs.factors f hf).1.2 x.self hv
  have htable : (Factor.constant (Scope.single x.self) init).Storable bound :=
    Factor.storable_constant (hs.factors f hf) (by simpa [Scope.single] using hv) init
  have hcount := Model.length_touching_le m x.self.id
  have hzero : Archive.Word 0 := by decide
  exact {
    self := hself
    sample := by
      rw [Assignment.Storable, hstart.sampleScope]
      exact htable.1
    someFactor := h.factorIds_ne_nil hm hx
    idCount := by simpa [hstart.factorIds] using hcount.trans_lt hs.count
    ids := fun k hk => by
      rw [hstart.factorIds] at hk
      obtain ⟨n, hn, rfl⟩ := List.mem_map.1 hk
      exact Archive.word_natCast.2 ((Model.lt_of_mem_touching hn).trans hs.count)
    belief := hstart.belief ▸ htable
    scratch := hstart.scratch ▸ htable
    updates := hstart.updates ▸ hzero
    parent := fun p hp => by
      rw [hstart.tree] at hp
      cases hp
    height := by
      rw [hstart.tree]
      exact hzero
    bids := hstart.bids ▸ hzero }

theorem storable_edge (h : g.Cooccurrence m init draws) (hs : m.Storable bound) {u v : Nat}
    {e : Edge} (he : g.edge? u v = some e) (hm : m.Registered) : e.Storable bound := by
  obtain ⟨-, f, hf, hu, hv⟩ := (h.joined u v).1 (hasEdge_iff.2 ⟨e, he⟩)
  obtain ⟨a, b, s, ha, hb, hmem, rfl⟩ := h.record u v e he
  -- the factor that holds both ids holds the registered variables of these ids
  have hin : ∀ (k : Nat) (w : Variable), f.scope.contains k → m.vars.find? k = some w →
      w ∈ f.scope.vars := fun k w hk hw => by
    obtain ⟨z, hz, rfl⟩ := Scope.contains_iff.1 hk
    rwa [Option.some.inj (hw.symm.trans (hm.find?_vars hf hz))]
  have hpair : s.vars ⊆ f.scope.vars := fun w hw => by
    rcases (hmem w).1 hw with rfl | rfl
    · exact hin u w hu ha
    · exact hin v w hv hb
  have hsingle : (Scope.single b).vars ⊆ f.scope.vars := by
    simpa [Scope.single] using hin v b hv hb
  exact ⟨⟨_, rfl, Factor.storable_constant (hs.factors f hf) hsingle .zero⟩,
    ⟨_, rfl, Factor.storable_constant (hs.factors f hf) hpair .zero⟩⟩

theorem storable (h : g.Cooccurrence m init draws) (hm : m.Registered) (hs : m.Storable bound)
    (he : g.edgeCount < 2 ^ 64) : g.Storable bound where
  count := h.size ▸ hs.vars
  vertices x hx := by
    obtain ⟨i, hi⟩ := Array.mem_iff_getElem?.1 hx
    exact h.storable_vertex hm hs hi
  parents x hx p hp := by
    obtain ⟨i, hi⟩ := Array.mem_iff_getElem?.1 hx
    rw [(h.starts hi).2.tree] at hp
    exact nomatch hp
  edgeCount := he
  edges l hl := h.storable_edge hs (mem_edges.1 hl) hm

theorem sound (h : g.Cooccurrence m init draws) (hm : m.Registered) (hdense : m.Dense) :
    g.Sound := by
  intro u v huv
  obtain ⟨hne, f, hf, hu, hv⟩ := (h.joined u v).1 huv
  rw [h.size]
  exact ⟨(hdense u).1 (hm.mem_keys_vars.2 ⟨f, hf, hu⟩), (hdense v).1 (hm.mem_keys_vars.2 ⟨f, hf, hv⟩),
    hne⟩

/-- A vertex at the start of a round has no state that its record would lose. -/
theorem restored (h : g.Cooccurrence m init draws) (hm : m.Registered) (hdense : m.Dense)
    (hcolored : g.recolor = g) : g.Restored := by
  have hstarts : ∀ x ∈ g.vertices, x.factorIds ≠ [] ∧ m.Starts init draws x.self x := fun x hx => by
    obtain ⟨i, hi⟩ := Array.mem_iff_getElem?.1 hx
    exact ⟨h.factorIds_ne_nil hm hi, (h.starts hi).2⟩
  have hquiet : ∀ x ∈ g.vertices, ∀ p, x.tree ≠ .candidate p := fun x hx p hp => by
    rw [(hstarts x hx).2.tree] at hp
    exact nomatch hp
  exact {
    ids := fun i x hx => ((hm.vars i x.self).1 (h.starts hx).1).1
    someFactor := fun x hx => (hstarts x hx).1
    reports := fun x hx => by
      rw [(hstarts x hx).2.tree]
      rfl
    parents := fun x hx p hp => absurd hp (hquiet x hx p)
    suitor := fun x hx p hp => absurd hp (hquiet x hx p)
    quiet := fun x hx _ => (hstarts x hx).2.suitors
    sound := h.sound hm hdense
    tabled := fun u v e he => by
      obtain ⟨a, b, s, -, -, -, rfl⟩ := h.record u v e he
      exact ⟨rfl, rfl⟩
    colored := hcolored }

end Graph.Cooccurrence

theorem Graph.cooccurrence_of_ofModel {m : Model} (hm : m.Registered) {init : Double}
    {draws : Draws} (hd : ∀ v ∈ m.vars.values, 0 ≤ draws v.id v.arity ∧ draws v.id v.arity < v.arity)
    {g : Graph} (hg : ofModel m init draws = .ok g) : m.Dense ∧ g.Cooccurrence m init draws := by
  have hdense : m.Dense := by
    by_contra hdense
    obtain ⟨e, herr, -⟩ := ofModel_of_not_dense hdense init draws
    rw [herr] at hg
    exact nomatch hg
  obtain ⟨g', hg', hco⟩ := cooccurrence_of_dense hm hdense init hd
  cases hg.symm.trans hg'
  exact ⟨hdense, hco⟩

namespace Checkpoint

open Archive

/-- A graph that was just built comes back from a checkpoint as it is. -/
theorem load_save_fresh {m : Model} (hm : m.Built) (hs : m.Storable fileCountBound) {init : Double}
    {draws : Draws} (hd : ∀ v ∈ m.vars.values, 0 ≤ draws v.id v.arity ∧ draws v.id v.arity < v.arity)
    {g : Graph} (hg : Graph.ofModel m init draws = .ok g) (he : g.edgeCount < 2 ^ 64) :
    (save m g).fault = none ∧ load (save m g).bytes = .ok (m, g) := by
  have hr := hm.registered
  obtain ⟨hdense, hco⟩ := Graph.cooccurrence_of_ofModel hr hd hg
  have hrestored := hco.restored hr hdense (Graph.colored_ofModel hg)
  have hloaded := load_save_eq hm hs hrestored.sound (hco.storable hr hs he) (hco.selfs hr hdense)
    hrestored.ids
  rwa [hrestored.reloaded_eq (Graph.tight_ofModel hg)] at hloaded

end Checkpoint

end FactorForest
