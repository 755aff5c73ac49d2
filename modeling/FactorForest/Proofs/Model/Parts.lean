import FactorForest.Proofs.Fault
import FactorForest.Proofs.Model.Registration

set_option autoImplicit false

namespace FactorForest.Model

theorem rebuild_concat {fs : List Factor} {ws : List (Option Double)} (h : ws.length = fs.length)
    (m : Model) (f : Factor) (w : Option Double) :
    rebuild m (fs ++ [f]) (some (ws ++ [w])) =
      rebuild m fs (some ws) >>= fun m' => rebuild m' [f] (some [w]) := by
  induction fs generalizing m ws with
  | nil =>
    cases ws with
    | nil => rfl
    | cons x xs => exact absurd h (by simp)
  | cons g gs ih =>
    cases ws with
    | nil => exact absurd h (by simp)
    | cons x xs =>
      have hl : xs.length = gs.length := by simpa using h
      simp only [List.cons_append, rebuild]
      cases m.addFactor g x with
      | mk m' r =>
        cases r with
        | error e => rfl
        | ok n => exact ih hl m'

theorem enterAll_with_names (m : Model) (names : List String) (fid : Nat) (vs : List Variable) :
    enterAll { m with names } fid vs = { m.enterAll fid vs with names } := by
  induction vs generalizing m with
  | nil => rfl
  | cons v vs ih => exact ih (m.enter fid v)

theorem rebuild_own_factors {m : Model} (h : m.Built) :
    rebuild {} m.factors.toList (some m.weights.toList) = .ok { m with names := [] } := by
  induction h with
  | empty => rfl
  | @add m m' f w n hm ha ih =>
    obtain ⟨hacc, rfl, -⟩ := addFactor_eq_ok_iff.1 ha
    have hadd : addFactor { m with names := [] } f w =
        (extend { m with names := [] } f w, .ok m.factors.size) :=
      addFactor_eq_ok_iff.2 ⟨hacc, rfl, rfl⟩
    have hl : m.weights.toList.length = m.factors.toList.length := hm.registered.weights
    have hr : rebuild {} (m.extend f w).factors.toList (some (m.extend f w).weights.toList) =
        rebuild { m with names := [] } [f] (some [w]) := by
      rw [extend_factors, extend_weights, Array.toList_push, Array.toList_push,
        rebuild_concat hl, ih]
      rfl
    rw [hr]
    simp only [rebuild, hadd]
    exact congrArg Except.ok (enterAll_with_names
      { m with factors := m.factors.push f, weights := m.weights.push w } [] _ _)
  | name names _ ih => exact ih

theorem Registered.ofList_values {m : Model} (hm : m.Registered) :
    IdMap.ofList (m.vars.values.map fun v => (v.id, v)) = m.vars := by
  have he : m.vars.values.map (fun v => (v.id, v)) = m.vars.entries := by
    rw [IdMap.values, List.map_map]
    refine (List.map_congr_left ?_).trans (List.map_id _)
    intro e he
    exact Prod.ext (hm.key_eq he) rfl
  rw [he, IdMap.ofList_entries]

theorem indexMatches_own (m : Model) :
    m.indexMatches (m.index.entries.map fun e => ((e.1 : Int), e.2.map Int.ofNat)) := by
  have hl := IdMap.ofList_entries (m.index.mapValues fun ids : List Nat => ids.map Int.ofNat)
  rw [indexMatches, Bool.and_eq_true, List.all_eq_true, beq_iff_eq, List.map_map]
  refine ⟨?_, hl⟩
  intro e he
  obtain ⟨d, _, rfl⟩ := List.mem_map.1 he
  exact decide_eq_true (Int.natCast_nonneg d.1)

/-- The model put together again from its own parts, as an archive holds them. -/
def reassemble (m : Model) : Except Fault Model :=
  ofParts m.vars.values m.factors.toList
    (m.index.entries.map fun e => ((e.1 : Int), e.2.map Int.ofNat)) m.names (some m.weights.toList)

theorem reassemble_own {m : Model} (h : m.Built) : m.reassemble = .ok m := by
  have hv := h.registered.ofList_values
  have hi := indexMatches_own { m with names := [] }
  simp only [reassemble, ofParts, rebuild_own_factors h, bind, Except.bind]
  simp [hv, hi, pure, Except.pure]

theorem rebuild_cons_eq_ok {m m' : Model} {f : Factor} {fs : List Factor}
    {ws : Option (List (Option Double))} (h : m.rebuild (f :: fs) ws = .ok m') :
    ∃ m₁ w n ws', m.addFactor f w = (m₁, .ok n) ∧ m₁.rebuild fs ws' = .ok m' := by
  rcases ws with _ | _ | ⟨w, ws⟩
  · rw [Model.rebuild] at h
    split at h
    · exact ⟨_, _, _, _, ‹_›, h⟩
    · exact nomatch h
  · exact nomatch h
  · rw [Model.rebuild] at h
    split at h
    · exact ⟨_, _, _, _, ‹_›, h⟩
    · exact nomatch h

theorem Built.rebuild {m m' : Model} (hm : m.Built) {fs : List Factor}
    {ws : Option (List (Option Double))} (h : m.rebuild fs ws = .ok m') : m'.Built := by
  induction fs generalizing m ws with
  | nil =>
    rw [Model.rebuild] at h
    cases h
    exact hm
  | cons f fs ih =>
    obtain ⟨m₁, w, n, ws', ha, hrest⟩ := rebuild_cons_eq_ok h
    exact ih (hm.add ha) hrest

theorem factors_rebuild {m m' : Model} {fs : List Factor} {ws : Option (List (Option Double))}
    (h : m.rebuild fs ws = .ok m') : m'.factors.toList = m.factors.toList ++ fs := by
  induction fs generalizing m ws with
  | nil =>
    rw [Model.rebuild] at h
    cases h
    rw [List.append_nil]
  | cons f fs ih =>
    obtain ⟨m₁, w, n, ws', ha, hrest⟩ := rebuild_cons_eq_ok h
    obtain ⟨-, rfl, -⟩ := addFactor_eq_ok_iff.1 ha
    rw [ih hrest, extend_factors, Array.toList_push, List.append_assoc, List.singleton_append]

/-- A model of stored parts is made of its factors, whatever else the parts say. -/
theorem built_of_ofParts {vars : List Variable} {factors : List Factor}
    {index : List (Int × List Int)} {names : List String}
    {weights : Option (List (Option Double))} {m : Model}
    (h : ofParts vars factors index names weights = .ok m) : m.Built := by
  obtain ⟨m', hm', h⟩ := bind_eq_ok_iff.1 h
  obtain ⟨-, h⟩ := guarded_eq_ok_iff.1 h
  obtain ⟨-, h⟩ := guarded_eq_ok_iff.1 h
  cases h
  exact (Built.empty.rebuild hm').name names

theorem parts_of_ofParts {vars : List Variable} {factors : List Factor}
    {index : List (Int × List Int)} {names : List String}
    {weights : Option (List (Option Double))} {m : Model}
    (h : ofParts vars factors index names weights = .ok m) :
    m.vars.size ≤ vars.length ∧ m.factors.toList = factors ∧ m.names = names := by
  obtain ⟨m', hm', h⟩ := bind_eq_ok_iff.1 h
  obtain ⟨hvars, h⟩ := guarded_eq_ok_iff.1 h
  obtain ⟨-, h⟩ := guarded_eq_ok_iff.1 h
  cases h
  refine ⟨?_, factors_rebuild hm', rfl⟩
  have hsize := IdMap.size_ofList_le (vars.map fun v => (v.id, v))
  rw [not_not.1 hvars, List.length_map] at hsize
  exact hsize

end FactorForest.Model
