import FactorForest.Proofs.Fault
import FactorForest.Proofs.Scope
import Mathlib.Data.List.Sort

set_option autoImplicit false

namespace FactorForest

namespace Variable

variable {vs ws : List Variable}

theorem firstRepeat?_eq_findSome? (vs : List Variable) :
    firstRepeat? vs = ((vs.map (·.id)).zip (vs.map (·.id)).tail).findSome? fun p =>
      if p.1 = p.2 then some p.1 else none := by
  fun_induction firstRepeat? vs with
  | case1 v w rest h => simp [h]
  | case2 v w rest h ih => simpa [h] using ih
  | case3 vs h =>
    cases vs with
    | nil => rfl
    | cons v vs =>
      cases vs with
      | nil => rfl
      | cons w rest => exact absurd rfl (h v w rest)

theorem ids_sortById (h : vs.Perm ws) :
    (sortById vs).map (·.id) = (sortById ws).map (·.id) := by
  have hperm := ((sortById_perm vs).trans (h.trans (sortById_perm ws).symm)).map (·.id)
  exact hperm.eq_of_pairwise (fun _ _ _ _ hle hge => Nat.le_antisymm hle hge)
    (List.pairwise_map.2 (pairwise_sortById vs)) (List.pairwise_map.2 (pairwise_sortById ws))

theorem firstRepeat?_sortById (h : vs.Perm ws) :
    firstRepeat? (sortById vs) = firstRepeat? (sortById ws) := by
  rw [firstRepeat?_eq_findSome?, firstRepeat?_eq_findSome?, ids_sortById h]

end Variable

namespace Scope

open Variable (firstRepeat? sortById sortById_perm)

variable {s t u x : Scope} {v : Variable} {vs ws : List Variable}

/-- Every id that two scopes share has one arity in both. -/
def Compatible (s t : Scope) : Prop :=
  ∀ v ∈ s.vars, ∀ w ∈ t.vars, v.id = w.id → v.arity = w.arity

theorem ext_mem (h : ∀ v, v ∈ s.vars ↔ v ∈ t.vars) : s = t :=
  ext (List.Pairwise.eq_of_mem_iff (r := fun v w : Variable => v.id < w.id) s.ascending t.ascending
    fun v => h v)

theorem ofList_eq_ok_iff : ofList vs = .ok s ↔ s.vars.Perm vs := by
  constructor
  · intro h
    rw [vars_of_ofList h]
    exact sortById_perm vs
  · intro h
    obtain ⟨t, ht, hvars⟩ := ofList_of_nodup ((h.map _).nodup_iff.1 s.ids_nodup)
    have hperm : t.vars.Perm s.vars := hvars ▸ (sortById_perm vs).trans h.symm
    rw [ht, ext_mem fun v => hperm.mem_iff]

theorem ofList_eq_error_iff {e : Fault} : ofList vs = .error e ↔
    ∃ id, firstRepeat? (sortById vs) = some id ∧ e = .told (.duplicateId id) := by
  rw [ofList]
  split
  · rename_i id hid
    rw [hid, Except.error.injEq]
    simp [eq_comm]
  · rename_i hnone
    simp [hnone]

theorem exists_ofList_iff : (∃ s, ofList vs = .ok s) ↔ (vs.map (·.id)).Nodup := by
  constructor
  · rintro ⟨s, hs⟩
    exact ((ofList_eq_ok_iff.1 hs).map _).nodup_iff.1 s.ids_nodup
  · intro h
    obtain ⟨s, hs, -⟩ := ofList_of_nodup h
    exact ⟨s, hs⟩

/-- The order of a list shows neither in its scope nor in the id that is told if one is repeated. -/
theorem ofList_perm (h : vs.Perm ws) : ofList vs = ofList ws := by
  cases hs : ofList vs with
  | ok s => exact (ofList_eq_ok_iff.2 ((ofList_eq_ok_iff.1 hs).trans h)).symm
  | error e =>
    rw [ofList_eq_error_iff, Variable.firstRepeat?_sortById h] at hs
    exact (ofList_eq_error_iff.2 hs).symm

theorem Compatible.symm (h : s.Compatible t) : t.Compatible s :=
  fun v hv w hw hid => (h w hw v hv hid.symm).symm

theorem compatible_self (s : Scope) : s.Compatible s := by
  intro v hv w hw hid
  rw [List.inj_on_of_nodup_map s.ids_nodup hv hw hid]

theorem clash?_eq_none_iff : clash? s t = none ↔ s.Compatible t := by
  rw [clash?, List.findSome?_eq_none_iff]
  constructor
  · intro h v hv w hw hid
    have hw' := h w hw
    rw [find?_eq_some_iff.2 ⟨hv, hid⟩] at hw'
    by_contra hne
    exact nomatch hw'.symm.trans (if_neg hne)
  · intro h w hw
    split
    · rename_i v hv
      obtain ⟨hv, hid⟩ := find?_eq_some_iff.1 hv
      rw [if_pos (h v hv w hw hid)]
    · rfl

theorem nodup_merged (s t : Scope) :
    ((s.vars ++ t.vars.filter fun v => !s.contains v.id).map (·.id)).Nodup := by
  rw [List.map_append, List.nodup_append]
  refine ⟨s.ids_nodup, t.ids_nodup.sublist (List.filter_sublist.map _), ?_⟩
  intro i hi j hj hij
  obtain ⟨v, hv, rfl⟩ := List.mem_map.1 hi
  obtain ⟨w, hw, rfl⟩ := List.mem_map.1 hj
  have hnew := (List.mem_filter.1 hw).2
  rw [contains_iff.2 ⟨v, hv, hij⟩] at hnew
  exact nomatch hnew

theorem mem_merged (h : s.Compatible t) :
    v ∈ s.vars ++ t.vars.filter (fun v => !s.contains v.id) ↔ v ∈ s.vars ∨ v ∈ t.vars := by
  rw [List.mem_append, List.mem_filter]
  refine or_congr_right' fun hv => and_iff_left_of_imp fun ht => ?_
  rw [Bool.not_eq_true', Bool.eq_false_iff]
  intro hc
  obtain ⟨w, hw, hid⟩ := contains_iff.1 hc
  exact hv (Variable.ext_id_arity hid (h w hw v ht hid) ▸ hw)

theorem union_of_compatible (h : s.Compatible t) :
    ∃ u, s.union t = .ok u ∧ ∀ v, v ∈ u.vars ↔ v ∈ s.vars ∨ v ∈ t.vars := by
  obtain ⟨u, hu, hvars⟩ := ofList_of_nodup (nodup_merged s t)
  refine ⟨u, ?_, fun v => ?_⟩
  · rw [union, clash?_eq_none_iff.2 h]
    exact hu
  · rw [hvars, (sortById_perm _).mem_iff, mem_merged h]

theorem union_eq_ok_iff :
    s.union t = .ok u ↔ s.Compatible t ∧ ∀ v, v ∈ u.vars ↔ v ∈ s.vars ∨ v ∈ t.vars := by
  by_cases h : s.Compatible t
  · obtain ⟨x, hx, hmem⟩ := union_of_compatible h
    rw [hx, Except.ok.injEq]
    constructor
    · rintro rfl
      exact ⟨h, hmem⟩
    · rintro ⟨-, hu⟩
      exact ext_mem fun v => (hmem v).trans (hu v).symm
  · obtain ⟨e, he⟩ := Option.ne_none_iff_exists'.1 (mt clash?_eq_none_iff.1 h)
    rw [union, he]
    exact ⟨nofun, fun hu => absurd hu.1 h⟩

theorem exists_union_iff : (∃ u, s.union t = .ok u) ↔ s.Compatible t := by
  constructor
  · rintro ⟨u, hu⟩
    exact (union_eq_ok_iff.1 hu).1
  · intro h
    obtain ⟨u, hu, -⟩ := union_of_compatible h
    exact ⟨u, hu⟩

theorem union_single {v w : Variable} (h : v.id ≠ w.id) :
    ∃ u, (single v).union (single w) = .ok u ∧ ∀ x, x ∈ u.vars ↔ x = v ∨ x = w := by
  have hc : (single v).Compatible (single w) := by
    intro a ha b hb hid
    rw [List.mem_singleton.1 ha, List.mem_singleton.1 hb] at hid
    exact absurd hid h
  obtain ⟨u, hu, hmem⟩ := union_of_compatible hc
  exact ⟨u, hu, fun x => (hmem x).trans (or_congr List.mem_singleton List.mem_singleton)⟩

theorem union_comm_ok : s.union t = .ok u ↔ t.union s = .ok u := by
  rw [union_eq_ok_iff, union_eq_ok_iff]
  refine and_congr ⟨Compatible.symm, Compatible.symm⟩ (forall_congr' fun v => ?_)
  rw [or_comm (a := v ∈ s.vars)]

theorem compatible_union (h : s.union t = .ok x) :
    x.Compatible u ↔ s.Compatible u ∧ t.Compatible u := by
  obtain ⟨-, hx⟩ := union_eq_ok_iff.1 h
  constructor
  · intro hc
    exact ⟨fun v hv => hc v ((hx v).2 (.inl hv)), fun v hv => hc v ((hx v).2 (.inr hv))⟩
  · rintro ⟨hs, ht⟩ v hv
    rcases (hx v).1 hv with hv | hv
    · exact hs v hv
    · exact ht v hv

theorem union_union_eq_ok_iff {w : Scope} : (s.union t >>= fun x => x.union u) = .ok w ↔
    (s.Compatible t ∧ s.Compatible u ∧ t.Compatible u) ∧
      ∀ v, v ∈ w.vars ↔ v ∈ s.vars ∨ v ∈ t.vars ∨ v ∈ u.vars := by
  rw [bind_eq_ok_iff]
  constructor
  · rintro ⟨x, hx, hw⟩
    obtain ⟨hst, hmem⟩ := union_eq_ok_iff.1 hx
    obtain ⟨hxu, hmemw⟩ := union_eq_ok_iff.1 hw
    refine ⟨⟨hst, (compatible_union hx).1 hxu⟩, fun v => ?_⟩
    rw [hmemw, hmem, or_assoc]
  · rintro ⟨⟨hst, hsu, htu⟩, hmemw⟩
    obtain ⟨x, hx, hmem⟩ := union_of_compatible hst
    refine ⟨x, hx, union_eq_ok_iff.2 ⟨(compatible_union hx).2 ⟨hsu, htu⟩, fun v => ?_⟩⟩
    rw [hmemw, hmem, or_assoc]

theorem union_assoc_ok {w : Scope} : (s.union t >>= fun x => x.union u) = .ok w ↔
    (t.union u >>= fun x => s.union x) = .ok w := by
  have hswap : (t.union u >>= fun x => s.union x) = .ok w ↔
      (t.union u >>= fun x => x.union s) = .ok w := by
    simp only [bind_eq_ok_iff, union_comm_ok (s := s)]
  rw [hswap, union_union_eq_ok_iff, union_union_eq_ok_iff]
  refine and_congr ⟨fun ⟨hst, hsu, htu⟩ => ⟨htu, hst.symm, hsu.symm⟩,
    fun ⟨htu, hts, hus⟩ => ⟨hts.symm, hus.symm, htu⟩⟩ (forall_congr' fun v => ?_)
  rw [or_comm (a := v ∈ s.vars), or_assoc]

/-- Scopes are sets. Every order of a list of variables gives the same scope or the same failure; it
fails exactly if an id is repeated, and the scope has the variables of the list in ascending order.
Two scopes have a union exactly if they give every id that they share the same arity, and it has the
variables of both. Unions are idempotent, commutative and associative: if one way to put two or three
scopes together gives a scope then the other gives the same, so they also fail together. -/
theorem union_semilattice :
    (∀ vs ws : List Variable, vs.Perm ws → ofList vs = ofList ws) ∧
    (∀ vs : List Variable, (∃ e, ofList vs = .error e) ↔ ¬ (vs.map (·.id)).Nodup) ∧
    (∀ vs s, ofList vs = .ok s → s.vars.Perm vs ∧ s.vars.Pairwise fun v w => v.id < w.id) ∧
    (∀ s t : Scope, (∃ u, s.union t = .ok u) ↔
      ∀ v ∈ s.vars, ∀ w ∈ t.vars, v.id = w.id → v.arity = w.arity) ∧
    (∀ s t u : Scope, s.union t = .ok u → ∀ v, v ∈ u.vars ↔ v ∈ s.vars ∨ v ∈ t.vars) ∧
    (∀ s : Scope, s.union s = .ok s) ∧
    (∀ s t u : Scope, s.union t = .ok u ↔ t.union s = .ok u) ∧
    ∀ s t u w : Scope, (s.union t >>= fun x => x.union u) = .ok w ↔
      (t.union u >>= fun x => s.union x) = .ok w := by
  refine ⟨fun vs ws h => ofList_perm h, fun vs => ?_, fun vs s h => ?_,
    fun s t => exists_union_iff, fun s t u h => (union_eq_ok_iff.1 h).2, fun s => ?_,
    fun s t u => union_comm_ok, fun s t u w => union_assoc_ok⟩
  · rw [← exists_ofList_iff]
    cases ofList vs <;> simp
  · exact ⟨ofList_eq_ok_iff.1 h, s.ascending⟩
  · exact union_eq_ok_iff.2 ⟨compatible_self s, fun v => (or_self_iff).symm⟩

end Scope
end FactorForest
