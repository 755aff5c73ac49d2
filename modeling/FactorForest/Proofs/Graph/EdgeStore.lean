import FactorForest.Proofs.Graph.Histories
import Mathlib.Data.Finset.Prod
import Mathlib.Data.List.TFAE

set_option autoImplicit false

namespace FactorForest.Graph

variable {g : Graph}

theorem edge_eq_ok_iff {i j : Int} {e : Edge} : g.edge i j = .ok e ↔ g.edge? i j = some e := by
  rw [edge]
  cases g.edge? i j <;> simp

theorem outNeighbours_natCast {u : Nat} (hu : u < g.vertices.size) :
    g.outNeighbours u = .ok (g.targets u) :=
  if_pos ((holds_natCast g u).2 hu)

theorem inNeighbours_natCast {v : Nat} (hv : v < g.vertices.size) :
    g.inNeighbours v = .ok (g.sources v) :=
  if_pos ((holds_natCast g v).2 hv)

/-- What a graph tells about its edges is one relation between its vertices. -/
structure OneRelation (g : Graph) : Prop where
  views : ∀ u v : Nat, u < g.vertices.size → v < g.vertices.size → ∃ outs ins,
    g.outNeighbours u = .ok outs ∧ g.inNeighbours v = .ok ins ∧
      [g.hasEdge u v = true, v ∈ outs, u ∈ ins, ∃ e, g.edge u v = .ok e,
        ∃ e, (u, v, e) ∈ g.edges].TFAE
  ascending : g.edges.Pairwise EdgeBefore
  listed : g.edges.length = g.edgeCount
  counted : g.edgeCount = ((Finset.range g.vertices.size ×ˢ Finset.range g.vertices.size).filter
    fun p => g.hasEdge p.1 p.2).card
  ends : ∀ l ∈ g.edges, l.1 < g.vertices.size ∧ l.2.1 < g.vertices.size ∧ l.1 ≠ l.2.1

theorem views_tfae (g : Graph) (u v : Nat) :
    [g.hasEdge u v = true, v ∈ g.targets u, u ∈ g.sources v, ∃ e, g.edge u v = .ok e,
      ∃ e, (u, v, e) ∈ g.edges].TFAE := by
  refine List.tfae_of_forall (g.hasEdge u v) _ ?_
  simp [mem_targets, mem_sources, edge_eq_ok_iff, mem_edges, hasEdge_iff]

theorem Sound.oneRelation (hg : g.Sound) : g.OneRelation where
  views u v hu hv := ⟨g.targets u, g.sources v, outNeighbours_natCast hu, inNeighbours_natCast hv,
    g.views_tfae u v⟩
  ascending := g.edges_ascending
  listed := rfl
  counted := by
    refine edgeCount_eq_card fun u v => ?_
    simp only [Finset.mem_filter, Finset.mem_product, Finset.mem_range]
    exact and_iff_right_of_imp fun h => ⟨(hg u v h).1, (hg u v h).2.1⟩
  ends := by
    rintro ⟨u, v, e⟩ hl
    exact hg u v (hasEdge_iff.2 ⟨e, mem_edges.1 hl⟩)

theorem exists_addEdge_iff {u v : Nat} {e : Edge} : (∃ h, g.addEdge u v e = .ok h) ↔
    u < g.vertices.size ∧ v < g.vertices.size ∧ u ≠ v := by
  constructor
  · rintro ⟨h, hok⟩
    obtain ⟨a, b, hua, hvb, ha, hb, hne, -⟩ := addEdge_eq_ok_iff.1 hok
    omega
  · rintro ⟨hu, hv, hne⟩
    exact ⟨_, addEdge_eq_ok_iff.2 ⟨u, v, rfl, rfl, hu, hv, hne, rfl⟩⟩

/-- A call is refused if an endpoint is unknown, and else if both endpoints are the same. -/
def Refused (g : Graph) (i j : Int) (d : Fault) : Prop :=
  ¬ (g.holds i ∧ g.holds j) ∧ d = .told (.unknownEndpoint i j) ∨
    (g.holds i ∧ g.holds j) ∧ i = j ∧ d = .selfEdge i

theorem addEdge_eq_error_iff {i j : Int} {e : Edge} {d : Fault} :
    g.addEdge i j e = .error d ↔ g.Refused i j d := by
  have hguard : (!(g.holds i && g.holds j)) ↔ ¬ (g.holds i ∧ g.holds j) := by
    rw [Bool.not_eq_true', ← Bool.not_eq_true, Bool.and_eq_true]
  rw [addEdge, Refused]
  by_cases hh : g.holds i ∧ g.holds j
  · rw [if_neg (hguard.not_left.2 hh)]
    by_cases hij : i = j
    · simpa [hh, hij] using eq_comm
    · simp [hh, hij]
  · rw [if_pos (hguard.2 hh)]
    simpa only [hh, not_false_eq_true, true_and, false_and, or_false, Except.error.injEq] using
      eq_comm

theorem change_of_error {i j : Int} {e : Edge} {d : Fault} (h : g.addEdge i j e = .error d) :
    g.change (.edge i j e) = g := by
  rw [change, h]

theorem edge?_change_other {u v : Nat} {c : Change} (hc : ∀ e, c ≠ .edge u v e) :
    (g.change c).edge? u v = g.edge? u v := by
  cases c with
  | vertex x => exact edge?_congr rfl u v
  | edge a b e =>
    rw [change_edge]
    split
    · rw [edge?_setLink, if_neg]
      rintro ⟨rfl, rfl⟩
      apply hc e
      congr 1 <;> omega
    · rfl
  | recolor => exact edge?_congr rfl u v
  | ask => exact edge?_congr (links_colored g) u v

theorem edge?_change_same (hg : g.Sound) {u v : Nat} {e e' : Edge} :
    (g.change (.edge u v e')).edge? u v = some e ↔ (∃ h, g.addEdge u v e' = .ok h) ∧ e' = e := by
  -- an edge that was there before a call for its pair tells that the call is accepted, so what is
  -- stored after the call is what it gave
  rw [exists_addEdge_iff, change_edge]
  by_cases hok : u < g.vertices.size ∧ v < g.vertices.size ∧ u ≠ v
  · rw [if_pos (by omega), edge?_setLink, if_pos ⟨rfl, rfl⟩, Option.some.injEq, and_iff_right hok]
  · rw [if_neg (by omega)]
    exact iff_of_false (fun h => hok (hg u v (hasEdge_iff.2 ⟨e, h⟩))) fun h => hok h.1

/-- In a history the last call for the pair `u`, `v` was accepted and gave the record `e`. -/
def LastAdded (cs : List Change) (u v : Nat) (e : Edge) : Prop :=
  ∃ pre post, cs = pre ++ .edge u v e :: post ∧ (∃ h, (made pre).addEdge u v e = .ok h) ∧
    ∀ e', .edge u v e' ∉ post

theorem lastAdded_concat_other {cs : List Change} {u v : Nat} {e : Edge} {c : Change}
    (hc : ∀ e, c ≠ .edge u v e) : LastAdded (cs ++ [c]) u v e ↔ LastAdded cs u v e := by
  constructor
  · rintro ⟨pre, post, hcs, hok, hpost⟩
    rcases post.eq_nil_or_concat' with rfl | ⟨post, d, rfl⟩
    · exact absurd (List.append_inj' hcs rfl).2 (by simpa using hc e)
    · rw [← List.cons_append, ← List.append_assoc] at hcs
      obtain ⟨rfl, -⟩ := List.append_inj' hcs rfl
      exact ⟨pre, post, rfl, hok, fun e' he => hpost e' (List.mem_append_left _ he)⟩
  · rintro ⟨pre, post, rfl, hok, hpost⟩
    refine ⟨pre, post ++ [c], by simp, hok, fun e' he => ?_⟩
    rcases List.mem_append.1 he with he | he
    · exact hpost e' he
    · exact hc e' (List.mem_singleton.1 he).symm

theorem lastAdded_concat_same {cs : List Change} {u v : Nat} {e e' : Edge} :
    LastAdded (cs ++ [.edge u v e']) u v e ↔ (∃ h, (made cs).addEdge u v e' = .ok h) ∧ e' = e := by
  constructor
  · rintro ⟨pre, post, hcs, hok, hpost⟩
    rcases post.eq_nil_or_concat' with rfl | ⟨post, d, rfl⟩
    · obtain ⟨rfl, hlast⟩ := List.append_inj' hcs rfl
      cases hlast
      exact ⟨hok, rfl⟩
    · rw [← List.cons_append, ← List.append_assoc] at hcs
      obtain ⟨-, hlast⟩ := List.append_inj' hcs rfl
      cases hlast
      exact absurd (List.mem_append_right _ (List.mem_singleton_self _)) (hpost e')
  · rintro ⟨hok, rfl⟩
    exact ⟨cs, [], rfl, hok, fun e' => List.not_mem_nil⟩

theorem edge?_made_iff (cs : List Change) {u v : Nat} {e : Edge} :
    (made cs).edge? u v = some e ↔ LastAdded cs u v e := by
  induction cs using List.reverseRecOn with
  | nil =>
    refine iff_of_false ?_ ?_
    · rw [edge?_of_no_links rfl]
      exact nofun
    · rintro ⟨pre, post, hcs, -⟩
      simp at hcs
  | append_singleton cs c ih =>
    rw [made_concat]
    by_cases hc : ∃ e', c = .edge u v e'
    · obtain ⟨e', rfl⟩ := hc
      rw [edge?_change_same (sound_made cs), lastAdded_concat_same]
    · have hother := not_exists.1 hc
      rw [edge?_change_other hother, ih, lastAdded_concat_other hother]

theorem made_of_error {cs : List Change} {i j : Int} {e : Edge} {d : Fault}
    (h : (made cs).addEdge i j e = .error d) (post : List Change) :
    made (cs ++ .edge i j e :: post) = made (cs ++ post) := by
  rw [made, made, changes, changes, List.foldl_append, List.foldl_append, List.foldl_cons]
  change ((made cs).change (.edge i j e)).changes post = (made cs).changes post
  rw [change_of_error h]

/-- After any history all views of the edges agree, each pair carries the record that was given for
it last, and a further call for an edge that is refused changes nothing, at once or later. -/
theorem edges_made (cs : List Change) :
    (made cs).OneRelation ∧
      (∀ u v e, (u, v, e) ∈ (made cs).edges ↔ LastAdded cs u v e) ∧
      (∀ i j e d, (made cs).addEdge i j e = .error d ↔ (made cs).Refused i j d) ∧
      ∀ i j e d post, (made cs).addEdge i j e = .error d →
        made (cs ++ .edge i j e :: post) = made (cs ++ post) := by
  refine ⟨(sound_made cs).oneRelation, fun u v e => ?_, fun i j e d => addEdge_eq_error_iff,
    fun i j e d post h => made_of_error h post⟩
  rw [mem_edges, edge?_made_iff]

end FactorForest.Graph
