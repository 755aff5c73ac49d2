import FactorForest.Proofs.Archive.Recovery
import FactorForest.Proofs.Checkpoint.Accepted

set_option autoImplicit false

namespace FactorForest.Checkpoint

open Archive

variable {bound : Nat}

theorem mirrors_weight (w : Option Double) : Mirrors bound (writeWeight w) readWeight (· = w) :=
  .of_readsBack (readsBack_weight w)

theorem mirrors_indexEntry (e : Nat × List Nat) :
    Mirrors bound (writeIndexEntry e) readIndexEntry (· = e) := by
  refine (mirrors_u64 _).bind fun id hid => (mirrors_u64List _).last fun ids hids => .pure ?_
  exact Prod.ext (Int.ofNat_inj.1 hid) (List.map_injective_iff.2 (fun _ _ => Int.ofNat_inj.1) hids)

theorem mirrors_model (m : Model) : Mirrors bound (writeModel m) readModel fun _ => True := by
  -- the model that is read does not matter here, only where its section ends
  rw [writeModel]
  simp only [Written.append_assoc]
  refine (mirrors_list_id fun v _ => mirrors_variableField v).bind fun vars _ => ?_
  refine (mirrors_list_id fun f _ => mirrors_factor f).bind fun factors _ => ?_
  refine (mirrors_list_id fun e _ => mirrors_indexEntry e).bind fun index _ => ?_
  refine (mirrors_strList _).bind fun names _ => ?_
  refine (mirrors_list_id fun w _ => mirrors_weight w).last fun weights _ => ?_
  exact .guarded fun _ => .checked fun _ _ => trivial

/-- A vertex as its record tells it, its state being one that the fields of the state make. -/
def Retold (x y : Vertex) : Prop :=
  ∃ t, TreeState.ofFields x.phase.number x.tree.parentNumber x.tree.height 0 = .ok t ∧
    y = { x.stored with tree := t }

theorem Retold.eq_stored {x y : Vertex} (h : Retold x y)
    (hp : ∀ p, x.tree.parent = some p → 0 ≤ p) : y = x.stored := by
  obtain ⟨t, ht, rfl⟩ := h
  have hne : x.tree.parent ≠ some TreeState.noParent := fun h => absurd (hp _ h) (by decide)
  rw [Vertex.phase, TreeState.ofFields_own hne] at ht
  rw [← Except.ok.inj ht]
  rfl

theorem mirrors_vertex (x : Vertex) :
    Mirrors bound (writeVertex x) readVertex (Retold x) := by
  rw [writeVertex]
  simp only [Written.append_assoc]
  refine (mirrors_variableField _).bind fun v hv => ?_
  refine (mirrors_assignment _).bind fun sample hsample => ?_
  refine (mirrors_u64List _).bind fun ids hids => ?_
  refine (mirrors_factor _).bind fun belief hbelief => ?_
  refine (mirrors_factor _).bind fun scratch hscratch => ?_
  refine (mirrors_u64 _).bind fun updates hupdates => ?_
  refine (mirrors_i64 _).bind fun parent hparent => ?_
  refine (mirrors_u32 _).bind fun phase hphase => ?_
  refine (mirrors_u64 _).bind fun height hheight => ?_
  refine (mirrors_u64 _).last fun bids hbids => .checked fun y hy => ?_
  obtain ⟨-, t, ht, rfl⟩ := assemble_eq_ok hy
  rw [hphase, hparent, hheight] at ht
  refine ⟨t, ht, ?_⟩
  rw [hv, hsample, hids, hbelief, hscratch, hupdates, hbids]
  rfl

theorem mirrors_vertices (xs : List Vertex) (g : Graph) :
    Mirrors bound (Written.concat (xs.map writeVertex)) (readVertices g xs.length) fun h =>
      ∃ ys, List.Forall₂ Retold xs ys ∧ h = { g with vertices := g.vertices ++ ys.toArray } := by
  induction xs generalizing g with
  | nil => exact .pure ⟨[], .nil, by simp⟩
  | cons x xs ih =>
    refine (mirrors_vertex x).bind fun y hy => .guarded fun _ => ?_
    refine (ih (g.addVertex y)).mono ?_
    rintro h ⟨ys, hys, rfl⟩
    exact ⟨y :: ys, .cons hy hys, by simp [Graph.addVertex]⟩

theorem recovers_vertices {xs : List Vertex}
    (hp : ∀ x ∈ xs, ∀ p, x.tree.parent = some p → 0 ≤ p) (g : Graph) :
    Recovers bound (Written.concat (xs.map writeVertex)) (readVertices g xs.length)
      (· = { g with vertices := g.vertices ++ (xs.map Vertex.stored).toArray }) := by
  refine ((mirrors_vertices xs g).mono ?_).recovers
  rintro h ⟨ys, hys, rfl⟩
  have hstored : List.Forall₂ (fun x y => y = x.stored) xs ys :=
    ((List.forall₂_and_left _ _).2 ⟨hp, hys⟩).imp fun x y h => h.2.eq_stored h.1
  have hall : ys = xs.map Vertex.stored := by
    rw [← List.forall₂_eq_eq_eq, List.forall₂_map_right_iff]
    exact hstored.flip
  rw [hall]

theorem mirrors_edge (e : Edge) : Mirrors bound (writeEdge e) readEdge fun _ => True := by
  -- an edge without both of its tables is refused before anything of its record is written
  rw [writeEdge]
  split
  · simp only [Written.append_assoc]
    refine (Mirrors.of_readsBack (readsBack_f64 _)).bind fun weight _ => ?_
    refine (mirrors_factor _).bind fun message _ => (mirrors_factor _).bind fun pairFactor _ => ?_
    exact (Mirrors.of_readsBack (readsBack_bool _)).last fun exploring _ => .pure trivial
  · refine .refused _ fun a left hr => ?_
    obtain ⟨weight, mid, hweight, -⟩ := Reader.start_bind_eq_ok_iff.1 hr
    exact start_tagged_nil .f64 _ weight mid hweight

theorem mirrors_links (ls : List (Nat × Nat × Edge)) (g : Graph) :
    Mirrors bound (Written.concat (ls.map writeLink)) (readLinks g ls.length) fun h =>
      h.vertices = g.vertices ∧
        ∀ u v : Nat, h.hasEdge u v ↔ g.hasEdge u v ∨ ∃ e, (u, v, e) ∈ ls := by
  induction ls generalizing g with
  | nil => exact .pure ⟨rfl, by simp⟩
  | cons l ls ih =>
    rw [List.map_cons, Written.concat, writeLink]
    simp only [Written.append_assoc]
    refine (mirrors_u64 _).bind fun source hsource => (mirrors_u64 _).bind fun target htarget => ?_
    refine (mirrors_edge l.2.2).bind fun e _ => (Mirrors.checked fun g' hadd => hadd).after
      fun g' hadd => (ih g').mono ?_
    obtain ⟨a, b, ha, hb, -, -, -, rfl⟩ := Graph.addEdge_eq_ok_iff.1 hadd
    obtain rfl : l.1 = a := Int.ofNat_inj.1 (hsource.symm.trans ha)
    obtain rfl : l.2.1 = b := Int.ofNat_inj.1 (htarget.symm.trans hb)
    rintro h ⟨hvertices, hedges⟩
    refine ⟨hvertices, fun u v => ?_⟩
    have hfirst : (∃ e, (u, v, e) = l) ↔ u = l.1 ∧ v = l.2.1 := by
      constructor
      · rintro ⟨e, rfl⟩
        exact ⟨rfl, rfl⟩
      · rintro ⟨rfl, rfl⟩
        exact ⟨l.2.2, rfl⟩
    rw [hedges, Graph.hasEdge_setLink]
    simp only [List.mem_cons, exists_or, hfirst]
    rw [or_assoc, or_left_comm]

theorem foretells_graph {g : Graph} (hp : ∀ x ∈ g.vertices, ∀ p, x.tree.parent = some p → 0 ≤ p)
    :
    Foretells bound (writeGraph g) readGraph fun h =>
      h.vertices = (Graph.rejoined { vertices := g.vertices.map Vertex.stored }).vertices := by
  rw [writeGraph, Archive.list]
  simp only [Written.append_assoc]
  refine (mirrors_listLength _).recovers.foretells fun count hcount => ?_
  rw [Int.ofNat_inj.1 hcount]
  refine (recovers_vertices (fun x hx => hp x (Array.mem_toList_iff.1 hx)) {}).foretells
    fun g₀ hg₀ => Yields.foretells ?_
  have hg : g₀ = { vertices := g.vertices.map Vertex.stored } := hg₀.trans (empty_append_stored g)
  refine (yields_liftExcept (P := (· = g₀.rejoined)) fun h hr =>
    (parentsKnown_of_restoreSuitors hr).2).bind fun h hh => .after fun k => ?_
  -- edges leave the vertices as they are, so nothing is asked of the bytes from here on
  have hlinks : h.links = {} := by rw [hh, hg]; rfl
  refine (yields_bareLinks k hlinks).bind fun h' hh' => .pure ?_
  rw [← hg, ← hh]
  exact hh'.1

theorem vertices_load_save {m m' : Model} {g h : Graph}
    (hp : ∀ x ∈ g.vertices, ∀ p, x.tree.parent = some p → 0 ≤ p)
    (hs : (save m g).fault = none) (hl : load (save m g).bytes = .ok (m', h)) :
    h.vertices = (Graph.rejoined { vertices := g.vertices.map Vertex.stored }).vertices := by
  have hforetells : Foretells fileCountBound (save m g) readAll fun r => r.2.vertices =
      (Graph.rejoined { vertices := g.vertices.map Vertex.stored }).vertices := by
    rw [save, Written.append_assoc]
    refine (Mirrors.of_readsBack readsBack_header).recovers.foretells fun _ _ => ?_
    refine (mirrors_model m).recovers.foretells fun m' _ => ?_
    refine (foretells_graph hp).yields fun h hh => ?_
    exact .after fun _ => .guarded fun _ => .guarded fun _ => .pure hh
  obtain ⟨rest, hr⟩ := load_eq_ok_iff.1 hl
  exact hforetells hs [] (m', h) rest (by rw [List.append_nil, hr])

end FactorForest.Checkpoint
