import FactorForest.Proofs.Checkpoint.Accepted
import FactorForest.Proofs.Graph.Clique

set_option autoImplicit false

namespace FactorForest

/-- The vertices and edges of a graph are about the variables and factors of the model. -/
structure Graph.Fits (g : Graph) (m : Model) : Prop where
  sample : ∀ x ∈ g.vertices, x.sample.scope = Scope.single x.self
  belief : ∀ x ∈ g.vertices, x.belief.scope = Scope.single x.self
  scratch : ∀ x ∈ g.vertices, x.scratch.scope = Scope.single x.self
  factorIds : ∀ x ∈ g.vertices, ∃ ids, m.factorIds x.self.id = .ok ids ∧
    x.factorIds = ids.map Int.ofNat
  message : ∀ (u v : Nat) (e : Edge), g.edge? u v = some e → ∃ y f, g.vertices[v]? = some y ∧
    e.message = some f ∧ f.scope = Scope.single y.self
  pairFactor : ∀ (u v : Nat) (e : Edge), g.edge? u v = some e → ∃ x y f,
    g.vertices[u]? = some x ∧ g.vertices[v]? = some y ∧ e.pairFactor = some f ∧
      ∀ w, w ∈ f.scope.vars ↔ w = x.self ∨ w = y.self
  parents : ∀ (i : Nat) (x : Vertex) (p : Int), g.vertices[i]? = some x →
    x.tree.parent = some p → g.holds p ∧ p ≠ i

theorem Graph.Cooccurrence.fits {m : Model} (hm : m.Registered) (hdense : m.Dense) {init : Double}
    {draws : Draws} {g : Graph} (h : g.Cooccurrence m init draws) : g.Fits m := by
  have hstarts : ∀ x ∈ g.vertices, m.Starts init draws x.self x := by
    intro x hx
    obtain ⟨i, hi⟩ := Array.mem_iff_getElem?.1 hx
    exact (h.starts hi).2
  have hat : ∀ (i : Nat) (v : Variable), m.vars.find? i = some v →
      ∃ x, g.vertices[i]? = some x ∧ x.self = v := by
    intro i v hv
    obtain ⟨w, x, hw, hx, hs⟩ := h.vertex i ((hdense i).1 (IdMap.mem_keys.2 ⟨v, hv⟩))
    cases hv.symm.trans hw
    exact ⟨x, hx, hs.self⟩
  refine ⟨fun x hx => (hstarts x hx).sampleScope, fun x hx => ?_, fun x hx => ?_, fun x hx => ?_,
    fun u v e he => ?_, fun u v e he => ?_, fun i x p hx hp => ?_⟩
  · rw [(hstarts x hx).belief]
    rfl
  · rw [(hstarts x hx).scratch]
    rfl
  · obtain ⟨i, hi⟩ := Array.mem_iff_getElem?.1 hx
    have hfind := (h.starts hi).1
    have hid := ((hm.vars i x.self).1 hfind).1
    exact ⟨_, (factorIds_registered hm (hid.symm ▸ hfind)).1, (hstarts x hx).factorIds⟩
  · obtain ⟨a, b, s, -, hb, -, rfl⟩ := h.record u v e he
    obtain ⟨y, hy, rfl⟩ := hat v b hb
    exact ⟨y, _, hy, rfl, rfl⟩
  · obtain ⟨a, b, s, ha, hb, hs, rfl⟩ := h.record u v e he
    obtain ⟨x, hx, rfl⟩ := hat u a ha
    obtain ⟨y, hy, rfl⟩ := hat v b hb
    exact ⟨x, y, _, hx, hy, rfl, hs⟩
  · rw [(h.starts hx).2.tree] at hp
    exact nomatch hp

theorem Graph.Restored.dense {m : Model} (hm : m.Registered) {g : Graph} (hg : g.Restored)
    (hself : g.vertices.toList.map (·.self) = m.vars.values) : m.Dense := by
  have hsize : m.vars.size = g.vertices.size := by
    rw [← IdMap.length_keys, ← hm.ids_values, ← hself]
    simp
  rw [Model.dense_iff, ← List.range_eq_range', ← hm.ids_values, ← hself, hsize]
  apply List.ext_getElem
  · simp
  · intro i hi _
    have hlt : i < g.vertices.size := by simpa using hi
    simpa using hg.ids i _ (Array.getElem?_eq_getElem hlt)

namespace Checkpoint

/-- What the two sections of an accepted checkpoint are sure to agree on. -/
theorem load_consistent {bytes : List UInt8} {m : Model} {g : Graph}
    (h : load bytes = .ok (m, g)) :
    m.Built ∧ m.Dense ∧ g.Restored ∧ g.vertices.toList.map (·.self) = m.vars.values := by
  obtain ⟨hm, hg, hself⟩ := restored_of_load h
  exact ⟨hm, hg.dense hm.registered hself, hg, hself⟩

theorem load_consistent_pair : ∃ h, load (save pairModel pairGraph).bytes = .ok (pairModel, h) ∧
    pairModel.Built ∧ pairModel.Dense ∧ h.Restored ∧
      h.vertices.toList.map (·.self) = pairModel.vars.values := by
  have hmodel : (load (save pairModel pairGraph).bytes).toOption.any (·.1 = pairModel) := by
    decide +kernel
  obtain ⟨⟨m, h⟩, hl, hm⟩ := exists_ok_of_any hmodel
  cases of_decide_eq_true hm
  exact ⟨h, hl, load_consistent hl⟩

/-- A vertex that holds nothing about its own variable: its sample and its tables are over another
one, its factor does not exist, and it is its own parent. -/
def strayVertex (v : Variable) : Vertex :=
  let other := Factor.zero (Scope.single ⟨5, 7, by decide⟩)
  { self := v
    sample := Assignment.first other.scope
    factorIds := [7]
    belief := other
    scratch := other
    tree := .boundary (some v.id) 0 }

/-- The tables of the edge are over the other variable too. -/
def strayGraph : Graph :=
  let x := strayVertex (.upTo 0 1)
  let y := strayVertex (.upTo 1 2)
  ((({} : Graph).addVertex x).addVertex y).setLink 0 1
    { message := some x.belief, pairFactor := some y.belief }

/-- More is not checked: a graph of stray vertices is accepted with its model. -/
theorem load_strayGraph : ¬ ∀ bytes m g, load bytes = .ok (m, g) → g.Fits m := by
  intro h
  have hstray : (load (save pairModel strayGraph).bytes).toOption.any fun r =>
      r.2.vertices.any fun x => x.sample.scope ≠ Scope.single x.self := by decide +kernel
  obtain ⟨⟨m, g⟩, hl, hany⟩ := exists_ok_of_any hstray
  obtain ⟨x, hx, hne⟩ := Array.any_eq_true'.1 hany
  exact of_decide_eq_true hne ((h _ m g hl).sample x hx)

end Checkpoint
end FactorForest
