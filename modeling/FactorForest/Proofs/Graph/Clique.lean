import FactorForest.Proofs.Fault
import FactorForest.Proofs.Graph.Edges
import FactorForest.Proofs.Model.Partners
import FactorForest.Proofs.Union

set_option autoImplicit false

namespace FactorForest

namespace Model

variable {m : Model}

/-- The record of a variable at the start of a round, its sample drawn under its own number. -/
structure Starts (m : Model) (init : Double) (draws : Draws) (v : Variable) (x : Vertex) :
    Prop where
  self : x.self = v
  sampleScope : x.sample.scope = Scope.single v
  sampleValue : x.sample.values = [(draws v.id v.arity).toNat]
  factorIds : x.factorIds = (m.touching v.id).map Int.ofNat
  belief : x.belief = Factor.constant (Scope.single v) init
  scratch : x.scratch = Factor.constant (Scope.single v) init
  updates : x.updates = 0
  tree : x.tree = .available
  bids : x.bids.count = 0
  suitors : x.suitors = []

/-- An edge at the start of a round: no weight, and tables of zeros over the registered variables
of the target and of both ends. -/
def Joins (m : Model) (u v : Nat) (e : Edge) : Prop :=
  ∃ a b s, m.vars.find? u = some a ∧ m.vars.find? v = some b ∧
    (∀ x, x ∈ s.vars ↔ x = a ∨ x = b) ∧
    e = {
      weight := .zero
      message := some (Factor.zero (Scope.single b))
      pairFactor := some (Factor.zero s)
      exploring := false }

theorem joining_registered {a b : Variable} (ha : m.vars.find? a.id = some a)
    (hb : m.vars.find? b.id = some b) (h : a.id ≠ b.id) :
    ∃ e, Edge.joining a b = .ok e ∧ m.Joins a.id b.id e := by
  obtain ⟨s, hs, hmem⟩ := Scope.union_single h
  refine ⟨_, ?_, a, b, s, ha, hb, hmem, rfl⟩
  rw [Edge.joining, hs]
  rfl

end Model

namespace Graph

variable {m : Model}

theorem firstSample_ok {v : Variable} {ids : List Int} (hids : ids ≠ []) {draws : Draws} {k : Nat}
    (h : 0 ≤ draws k v.arity ∧ draws k v.arity < v.arity) :
    ∃ a, Vertex.firstSample v ids none draws k = .ok a ∧ a.scope = Scope.single v ∧
      a.values = [(draws k v.arity).toNat] := by
  have hfits : Fits (Scope.single v).vars [(draws k v.arity).toNat] :=
    ⟨by omega, trivial⟩
  have hvalue : [draws k v.arity] = [(draws k v.arity).toNat].map Int.ofNat := by
    simp [Int.toNat_of_nonneg h.1]
  refine ⟨⟨Scope.single v, [(draws k v.arity).toNat], hfits⟩, ?_, rfl, rfl⟩
  rw [Vertex.firstSample, if_neg hids]
  change Assignment.ofValues (Scope.single v) [draws k v.arity] = _
  rw [hvalue]
  exact Assignment.ofValues_values ⟨Scope.single v, [(draws k v.arity).toNat], hfits⟩

theorem factorIds_registered (hm : m.Registered) {v : Variable}
    (hv : m.vars.find? v.id = some v) :
    m.factorIds v.id = .ok (m.touching v.id) ∧ m.touching v.id ≠ [] := by
  obtain ⟨-, f, hf, hvf⟩ := (hm.vars v.id v).1 hv
  have ht : m.touching v.id ≠ [] :=
    Model.touching_ne_nil_iff.2 ⟨f, hf, Scope.contains_iff.2 ⟨v, hvf, rfl⟩⟩
  exact ⟨(hm.factorIds v.id).trans (if_neg ht), ht⟩

theorem addVariables_ok (hm : m.Registered) (init : Double) {draws : Draws} {vs : List Variable}
    (hvs : ∀ v ∈ vs, m.vars.find? v.id = some v)
    (hd : ∀ v ∈ vs, 0 ≤ draws v.id v.arity ∧ draws v.id v.arity < v.arity) (g : Graph)
    (hid : vs.map (·.id) = List.range' g.vertices.size vs.length) :
    ∃ xs : List Vertex, addVariables m init draws g vs =
        .ok { g with vertices := g.vertices ++ xs.toArray } ∧
      List.Forall₂ (m.Starts init draws) vs xs := by
  induction vs generalizing g with
  | nil => exact ⟨[], by simp [addVariables], .nil⟩
  | cons v vs ih =>
    rw [List.map_cons, List.length_cons, List.range'_succ, List.cons.injEq] at hid
    obtain ⟨hfids, hne⟩ := factorIds_registered hm (hvs v List.mem_cons_self)
    have hids : (m.touching v.id).map Int.ofNat ≠ [] := by simpa using hne
    obtain ⟨a, ha, hscope, hvalue⟩ := firstSample_ok hids (hd v List.mem_cons_self)
    let x := Vertex.fresh v ((m.touching v.id).map Int.ofNat) a init
    obtain ⟨xs, hxs, hall⟩ := ih (fun w hw => hvs w (List.mem_cons_of_mem v hw))
      (fun w hw => hd w (List.mem_cons_of_mem v hw)) (g.addVertex x) (by
        rw [hid.2, addVertex, Array.size_push])
    refine ⟨x :: xs, ?_, .cons ⟨rfl, hscope, hvalue, rfl, rfl, rfl, rfl, rfl, rfl, rfl⟩ hall⟩
    rw [addVariables, hfids, ← hid.1]
    simp only [bind, Except.bind, ha, ne_eq, not_true_eq_false, if_false]
    refine hxs.trans ?_
    simp [addVertex]

def JoinedBy (m : Model) (g : Graph) : Prop :=
  ∀ (u v : Nat) (e : Edge), g.edge? u v = some e → m.Joins u v e

theorem JoinedBy.setLink {g : Graph} (hg : g.JoinedBy m) {a b : Nat} {e : Edge}
    (he : m.Joins a b e) : (g.setLink a b e).JoinedBy m := by
  intro u v d hd
  rw [edge?_setLink] at hd
  split at hd
  · rename_i huv
    rw [huv.1, huv.2, ← Option.some.inj hd]
    exact he
  · exact hg u v d hd

theorem addPartners_ok {g : Graph} (hg : g.JoinedBy m) {a : Variable}
    (ha : m.vars.find? a.id = some a) (hsize : ∀ k v, m.vars.find? k = some v → k < g.vertices.size)
    {vs : List Variable} (hvs : ∀ v ∈ vs, m.vars.find? v.id = some v ∧ v.id ≠ a.id) :
    ∃ h, addPartners g a vs = .ok h ∧ h.vertices = g.vertices ∧ h.JoinedBy m ∧
      ∀ u v : Nat, h.hasEdge u v ↔ g.hasEdge u v ∨ u = a.id ∧ ∃ w ∈ vs, w.id = v := by
  induction vs generalizing g with
  | nil => exact ⟨g, rfl, rfl, hg, fun u v => by simp⟩
  | cons b vs ih =>
    obtain ⟨hb, hne⟩ := hvs b List.mem_cons_self
    obtain ⟨e, he, hjoins⟩ := Model.joining_registered ha hb (Ne.symm hne)
    have hadd : g.addEdge a.id b.id e = .ok (g.setLink a.id b.id e) :=
      addEdge_eq_ok_iff.2
        ⟨a.id, b.id, rfl, rfl, hsize _ _ ha, hsize _ _ hb, Ne.symm hne, rfl⟩
    obtain ⟨h, hok, hv, hj, hedge⟩ := ih (hg.setLink hjoins) hsize fun w hw =>
      hvs w (List.mem_cons_of_mem b hw)
    refine ⟨h, ?_, hv, hj, ?_⟩
    · rw [addPartners, he]
      change (g.addEdge a.id b.id e >>= fun g' => addPartners g' a vs) = .ok h
      rw [hadd]
      exact hok
    · intro u v
      rw [hedge, hasEdge_setLink, List.exists_mem_cons_iff]
      constructor
      · rintro ((⟨rfl, rfl⟩ | h) | ⟨rfl, h⟩)
        · exact .inr ⟨rfl, .inl rfl⟩
        · exact .inl h
        · exact .inr ⟨rfl, .inr h⟩
      · rintro (h | ⟨rfl, rfl | h⟩)
        · exact .inl (.inr h)
        · exact .inl (.inl ⟨rfl, rfl⟩)
        · exact .inr ⟨rfl, h⟩

theorem addCliques_ok (hm : m.Registered) {g : Graph} (hg : g.JoinedBy m)
    (hsize : ∀ k v, m.vars.find? k = some v → k < g.vertices.size) {vs : List Variable}
    (hvs : ∀ v ∈ vs, m.vars.find? v.id = some v) :
    ∃ h, addCliques m g vs = .ok h ∧ h.vertices = g.vertices ∧ h.JoinedBy m ∧
      ∀ u v : Nat, h.hasEdge u v ↔ g.hasEdge u v ∨ (∃ a ∈ vs, a.id = u) ∧ m.Meets u v := by
  induction vs generalizing g with
  | nil => exact ⟨g, rfl, rfl, hg, fun u v => by simp⟩
  | cons a vs ih =>
    have hpartners : ∀ w ∈ (m.partners a.id (m.idsOf a.id)).values,
        m.vars.find? w.id = some w ∧ w.id ≠ a.id := fun w hw => by
      obtain ⟨hne, f, hf, -, hwf⟩ := (Model.mem_partners hm).1 hw
      exact ⟨hm.find?_vars hf hwf, hne⟩
    obtain ⟨h, hok, hv, hj, hedge⟩ :=
      addPartners_ok hg (hvs a List.mem_cons_self) hsize hpartners
    obtain ⟨h', hok', hv', hj', hedge'⟩ := ih hj (hv ▸ hsize) fun w hw =>
      hvs w (List.mem_cons_of_mem a hw)
    refine ⟨h', ?_, hv'.trans hv, hj', ?_⟩
    · rw [addCliques, hok]
      exact hok'
    · intro u v
      rw [hedge', hedge, List.exists_mem_cons_iff, or_and_right, or_assoc]
      refine or_congr_right (or_congr_left ?_)
      constructor
      · rintro ⟨rfl, hw⟩
        exact ⟨rfl, (Model.exists_partner_iff hm).1 hw⟩
      · rintro ⟨rfl, hw⟩
        exact ⟨rfl, (Model.exists_partner_iff hm).2 hw⟩

section Building

variable {P : Graph → Prop} {init : Double} {draws : Draws}

theorem addVariables_induction
    (hP : ∀ g v ids a, P g → P (g.addVertex (Vertex.fresh v ids a init))) {vs : List Variable}
    {g h : Graph} (hg : P g) (hh : addVariables m init draws g vs = .ok h) : P h := by
  induction vs generalizing g with
  | nil =>
    cases hh
    exact hg
  | cons v vs ih =>
    rw [addVariables] at hh
    obtain ⟨ids, -, hh⟩ := bind_eq_ok_iff.1 hh
    obtain ⟨a, -, hh⟩ := bind_eq_ok_iff.1 hh
    split at hh
    · exact absurd hh (by simp [throw, throwThe, MonadExceptOf.throw, bind, Except.bind])
    · exact ih (hP g v _ a hg) hh

theorem addPartners_induction (hP : ∀ (g : Graph) (u v : Nat) e, P g → P (g.setLink u v e))
    {a : Variable} {vs : List Variable} {g h : Graph} (hg : P g)
    (hh : addPartners g a vs = .ok h) : P h := by
  induction vs generalizing g with
  | nil =>
    cases hh
    exact hg
  | cons v vs ih =>
    obtain ⟨e, -, hh⟩ := bind_eq_ok_iff.1 hh
    obtain ⟨g', hadd, hh⟩ := bind_eq_ok_iff.1 hh
    obtain ⟨i, j, -, -, -, -, -, rfl⟩ := addEdge_eq_ok_iff.1 hadd
    exact ih (hP g i j e hg) hh

theorem addCliques_induction (hP : ∀ (g : Graph) (u v : Nat) e, P g → P (g.setLink u v e))
    {vs : List Variable} {g h : Graph} (hg : P g) (hh : addCliques m g vs = .ok h) : P h := by
  induction vs generalizing g with
  | nil =>
    cases hh
    exact hg
  | cons v vs ih =>
    obtain ⟨g', hadd, hh⟩ := bind_eq_ok_iff.1 hh
    exact ih (addPartners_induction hP hg hadd) hh

/-- A clique graph is built of fresh vertices and of edges, and coloured in the end. -/
theorem ofModel_induction (hempty : P {})
    (hvertex : ∀ g v ids a, P g → P (g.addVertex (Vertex.fresh v ids a init)))
    (hlink : ∀ (g : Graph) (u v : Nat) e, P g → P (g.setLink u v e)) {g : Graph}
    (h : ofModel m init draws = .ok g) : ∃ h, P h ∧ g = h.recolor := by
  obtain ⟨-, -, h⟩ := bind_eq_ok_iff.1 h
  obtain ⟨g₁, h₁, h⟩ := bind_eq_ok_iff.1 h
  obtain ⟨g₂, h₂, h⟩ := bind_eq_ok_iff.1 h
  cases h
  exact ⟨g₂, addCliques_induction hlink (addVariables_induction hvertex hempty h₁) h₂, rfl⟩

theorem forall_ofModel {Q : Vertex → Prop} (hQ : ∀ v ids a, Q (Vertex.fresh v ids a init))
    {g : Graph} (h : ofModel m init draws = .ok g) : ∀ x ∈ g.vertices, Q x := by
  obtain ⟨g₂, hall, rfl⟩ := ofModel_induction (P := fun g => ∀ x ∈ g.vertices, Q x)
    (fun x hx => absurd hx (Array.not_mem_empty x))
    (fun g v ids a hg x hx => (Array.mem_push.1 hx).elim (hg x) fun hx => hx ▸ hQ v ids a)
    (fun g u v e hg => hg) h
  exact hall

theorem tight_ofModel {g : Graph} (h : ofModel m init draws = .ok g) : g.Tight := by
  obtain ⟨g₂, htight, rfl⟩ := ofModel_induction (P := Tight) (tight_of_no_links rfl)
    (fun g v ids a hg => hg) (fun g u v e hg => hg.setLink u v e) h
  exact htight

theorem colored_ofModel {g : Graph} (h : ofModel m init draws = .ok g) : g.recolor = g := by
  obtain ⟨g₂, -, rfl⟩ := ofModel_induction (P := fun _ => True) trivial
    (fun _ _ _ _ _ => trivial) (fun _ _ _ _ _ => trivial) h
  rfl

end Building

theorem idle_ofModel {init : Double} {draws : Draws} {g : Graph}
    (h : ofModel m init draws = .ok g) : g.Idle :=
  forall_ofModel (fun _ _ _ => ⟨rfl, rfl⟩) h

theorem mem_values_of_meets (hm : m.Registered) {u v : Nat} (h : m.Meets u v) :
    ∃ a ∈ m.vars.values, a.id = u := by
  obtain ⟨-, f, hf, hu, -⟩ := h
  obtain ⟨a, ha, rfl⟩ := Scope.contains_iff.1 hu
  exact ⟨a, hm.mem_values.2 (hm.find?_vars hf ha), rfl⟩

/-- The graph with the variables of a model as its vertices and with an edge each way between any
two that share a factor. -/
structure Cooccurrence (m : Model) (init : Double) (draws : Draws) (g : Graph) : Prop where
  size : g.vertices.size = m.vars.size
  vertex : ∀ i < m.vars.size, ∃ v x, m.vars.find? i = some v ∧ g.vertices[i]? = some x ∧
    m.Starts init draws v x
  joined : ∀ u v : Nat, g.hasEdge u v ↔ m.Meets u v
  symmetric : ∀ u v : Nat, g.hasEdge u v → g.hasEdge v u
  distinct : (g.edges.map fun l => (l.1, l.2.1)).Nodup
  record : ∀ (u v : Nat) (e : Edge), g.edge? u v = some e → m.Joins u v e

theorem Cooccurrence.starts {init : Double} {draws : Draws} {g : Graph}
    (h : g.Cooccurrence m init draws) {i : Nat} {x : Vertex} (hx : g.vertices[i]? = some x) :
    m.vars.find? i = some x.self ∧ m.Starts init draws x.self x := by
  obtain ⟨v, y, hv, hy, hs⟩ := h.vertex i (h.size ▸ lt_of_getElem? hx)
  cases hx.symm.trans hy
  rw [hs.self]
  exact ⟨hv, hs⟩

theorem Cooccurrence.selfs {init : Double} {draws : Draws} {g : Graph}
    (h : g.Cooccurrence m init draws) (hm : m.Registered) (hdense : m.Dense) :
    g.vertices.toList.map (·.self) = m.vars.values := by
  have hcount : m.vars.values.length = m.vars.size := by simp [IdMap.values, IdMap.size]
  apply List.ext_getElem?
  intro i
  rw [List.getElem?_map, Array.getElem?_toList]
  by_cases hi : i < m.vars.size
  · obtain ⟨v, x, hv, hx, hs⟩ := h.vertex i hi
    rw [Model.find?_place hm hdense (hcount ▸ hi)] at hv
    rw [hx, Option.map_some, hs.self, ← hv, List.getElem?_eq_getElem]
  · rw [Array.getElem?_eq_none (h.size ▸ Nat.le_of_not_lt hi),
      List.getElem?_eq_none (hcount ▸ Nat.le_of_not_lt hi)]
    rfl

theorem starts_at {init : Double} {draws : Draws} (hm : m.Registered) (hdense : m.Dense)
    {xs : List Vertex} (hall : List.Forall₂ (m.Starts init draws) m.vars.values xs) {i : Nat}
    (hi : i < m.vars.size) :
    ∃ v x, m.vars.find? i = some v ∧ xs[i]? = some x ∧ m.Starts init draws v x := by
  have hlen : i < m.vars.values.length := by simpa [IdMap.values, IdMap.size] using hi
  have hx : i < xs.length := hall.length_eq ▸ hlen
  exact ⟨m.vars.values[i], xs[i], Model.find?_place hm hdense hlen, List.getElem?_eq_getElem hx,
    hall.get hlen hx⟩

theorem addVariables_dense (hm : m.Registered) (hdense : m.Dense) (init : Double) {draws : Draws}
    (hd : ∀ v ∈ m.vars.values, 0 ≤ draws v.id v.arity ∧ draws v.id v.arity < v.arity) :
    ∃ xs : List Vertex,
      addVariables m init draws {} m.vars.values = .ok { vertices := xs.toArray } ∧
        List.Forall₂ (m.Starts init draws) m.vars.values xs := by
  have hcount : m.vars.values.length = m.vars.size := by simp [IdMap.values, IdMap.size]
  have hids : m.vars.values.map (·.id) = List.range' 0 m.vars.values.length := by
    rw [hcount]
    exact hm.ids_values.trans (Model.dense_iff.1 hdense)
  obtain ⟨xs, hxs, hall⟩ := addVariables_ok hm init (fun v => hm.mem_values.1) hd {} hids
  exact ⟨xs, by simpa using hxs, hall⟩

theorem addCliques_bare (hm : m.Registered) {g : Graph} (hg : g.links = {})
    (hsize : ∀ k v, m.vars.find? k = some v → k < g.vertices.size) :
    ∃ h, addCliques m g m.vars.values = .ok h ∧ h.vertices = g.vertices ∧ h.JoinedBy m ∧
      ∀ u v : Nat, h.hasEdge u v ↔ m.Meets u v := by
  have hbare : ∀ u v : Nat, ¬ g.hasEdge u v := fun u v => not_hasEdge_of_no_links hg u v
  have hnone : g.JoinedBy m := fun u v e h => absurd (hasEdge_iff.2 ⟨e, h⟩) (hbare u v)
  obtain ⟨h, hok, hv, hjoins, hedge⟩ := addCliques_ok hm hnone hsize fun v => hm.mem_values.1
  refine ⟨h, hok, hv, hjoins, ?_⟩
  intro u v
  rw [hedge, or_iff_right (hbare u v)]
  exact and_iff_right_of_imp (mem_values_of_meets hm)

theorem cooccurrence_of_dense (hm : m.Registered) (hdense : m.Dense) (init : Double) {draws : Draws}
    (hd : ∀ v ∈ m.vars.values, 0 ≤ draws v.id v.arity ∧ draws v.id v.arity < v.arity) :
    ∃ g, ofModel m init draws = .ok g ∧ g.Cooccurrence m init draws := by
  obtain ⟨xs, hxs, hall⟩ := addVariables_dense hm hdense init hd
  have hlen : xs.length = m.vars.size :=
    hall.length_eq.symm.trans (by simp [IdMap.values, IdMap.size])
  have hsize : ∀ k v, m.vars.find? k = some v → k < xs.toArray.size := fun k v hk => by
    have hkey := (hdense k).1 (IdMap.mem_keys.2 ⟨v, hk⟩)
    simpa [hlen] using hkey
  obtain ⟨g, hg, hv, hjoins, hjoined⟩ :=
    addCliques_bare hm (g := { vertices := xs.toArray }) rfl hsize
  have hok : ofModel m init draws = .ok g.recolor := by
    rw [ofModel, Model.validate_of_dense hdense]
    change (addVariables m init draws {} m.vars.values >>= fun g =>
      addCliques m g m.vars.values >>= fun g => .ok g.recolor) = _
    rw [hxs]
    change (addCliques m _ m.vars.values >>= fun g => .ok g.recolor) = _
    rw [hg]
    rfl
  have hvertices : g.recolor.vertices = xs.toArray := hv
  refine ⟨g.recolor, hok, by simpa [hvertices] using hlen, ?_, hjoined, ?_,
    nodup_ends g.recolor, hjoins⟩
  · intro i hi
    obtain ⟨v, x, hfind, hx, hstarts⟩ := starts_at hm hdense hall hi
    exact ⟨v, x, hfind, by simpa [hvertices] using hx, hstarts⟩
  · intro u v h
    exact (hjoined v u).2 ((hjoined u v).1 h).symm

theorem ofModel_of_not_dense (hdense : ¬ m.Dense) (init : Double) (draws : Draws) :
    ∃ e, ofModel m init draws = .error e ∧ e.kind = .value := by
  obtain ⟨e, he, hkind⟩ := Model.validate_of_not_dense hdense
  refine ⟨e, ?_, hkind⟩
  rw [ofModel, he]
  rfl

/-- A model made of accepted factors has a clique graph if and only if its ids leave no gap, and
the clique graph tells exactly which variables share a factor. -/
theorem ofModel_cooccurrence {m : Model} (hm : m.Built) (init : Double) {draws : Draws}
    (hd : ∀ v ∈ m.vars.values, 0 ≤ draws v.id v.arity ∧ draws v.id v.arity < v.arity) :
    (¬ m.Dense → ∃ e, ofModel m init draws = .error e ∧ e.kind = .value) ∧
      (m.Dense → ∃ g, ofModel m init draws = .ok g ∧ g.Cooccurrence m init draws) := by
  exact ⟨fun hdense => ofModel_of_not_dense hdense init draws,
    fun hdense => cooccurrence_of_dense hm.registered hdense init hd⟩

/-- Three variables in a row, with a table for each pair of neighbours. -/
def chainModel : Model :=
  let binary (id : Nat) : Variable := ⟨id, 2, Nat.two_pos⟩
  let first := Factor.zero (.pair (binary 0) (binary 1) Nat.zero_lt_one)
  let second := Factor.zero (.pair (binary 1) (binary 2) Nat.one_lt_two)
  (({} : Model).extend first none).extend second none

theorem ofModel_cooccurrence_chain :
    ∃ g, ofModel chainModel .zero (Draws.ofList [1, 0, 1]) = .ok g ∧
      g.Cooccurrence chainModel .zero (Draws.ofList [1, 0, 1]) := by
  have hm : chainModel.Built := (Model.Built.empty.extend (by decide)).extend (by decide)
  have hdense : chainModel.Dense := Model.dense_iff.2 (by decide)
  exact (ofModel_cooccurrence hm .zero (by decide)).2 hdense

end Graph
end FactorForest
