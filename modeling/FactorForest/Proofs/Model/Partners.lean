import FactorForest.Graph.Clique
import FactorForest.Proofs.Model.Registration

set_option autoImplicit false

namespace FactorForest.Model

variable {m : Model}

/-- The registered ids are the numbers below their count. -/
def Dense (m : Model) : Prop := ∀ id, id ∈ m.vars.keys ↔ id < m.vars.size

theorem gap?_eq_none_iff {n : Nat} {ids : List Nat} :
    gap? n ids = none ↔ ids = List.range' n ids.length := by
  induction ids generalizing n with
  | nil => simp [gap?]
  | cons id ids ih =>
    rw [gap?, List.length_cons, List.range'_succ]
    by_cases h : id = n
    · rw [if_pos h, ih, h, List.cons.injEq, and_iff_right rfl]
    · simp [h]

theorem dense_iff : m.Dense ↔ m.vars.keys = List.range' 0 m.vars.size := by
  rw [← List.range_eq_range']
  constructor
  · intro h
    apply m.vars.keys_ascending.eq_of_mem_iff List.pairwise_lt_range
    intro id
    rw [h id, List.mem_range]
  · intro h id
    rw [h, List.mem_range]

theorem gap?_keys_eq_none_iff : gap? 0 m.vars.keys = none ↔ m.Dense := by
  rw [gap?_eq_none_iff, dense_iff, IdMap.length_keys]

theorem validate_of_dense (h : m.Dense) : m.validate = .ok () := by
  rw [validate, gap?_keys_eq_none_iff.2 h]

theorem validate_of_not_dense (h : ¬ m.Dense) : ∃ e, m.validate = .error e ∧ e.kind = .value := by
  rw [validate]
  cases hg : gap? 0 m.vars.keys with
  | none => exact absurd (gap?_keys_eq_none_iff.1 hg) h
  | some n => exact ⟨_, rfl, rfl⟩

theorem find?_place (hm : m.Registered) (hdense : m.Dense) {i : Nat}
    (hi : i < m.vars.values.length) : m.vars.find? i = some m.vars.values[i] := by
  have hids := hm.ids_values.trans (dense_iff.1 hdense)
  have hid : m.vars.values[i].id = i := by
    have h := List.getElem_of_eq hids (i := i) (by simpa using hi)
    simpa using h
  have hv := hm.mem_values.1 (List.getElem_mem hi)
  rwa [hid] at hv

/-- Two different ids are in the scope of one factor. -/
def Meets (m : Model) (u v : Nat) : Prop :=
  u ≠ v ∧ ∃ f ∈ m.factors, f.scope.contains u ∧ f.scope.contains v

theorem Meets.symm {u v : Nat} (h : m.Meets u v) : m.Meets v u := by
  obtain ⟨hne, f, hf, hu, hv⟩ := h
  exact ⟨Ne.symm hne, f, hf, hv, hu⟩

def Lists (m : Model) (d : IdMap Variable) : Prop :=
  ∀ k v, d.find? k = some v → m.vars.find? k = some v

theorem Lists.insert {d : IdMap Variable} (hd : m.Lists d) {v : Variable}
    (hv : m.vars.find? v.id = some v) : m.Lists (d.insert v.id v) := by
  intro k w hw
  rw [IdMap.find?_insert] at hw
  split at hw
  · rename_i hk
    rw [hk, hv, hw]
  · exact hd k w hw

theorem find?_insert_registered {d : IdMap Variable} (hd : m.Lists d) {v : Variable}
    (hv : m.vars.find? v.id = some v) {k : Nat} {w : Variable} :
    (d.insert v.id v).find? k = some w ↔ d.find? k = some w ∨ w = v ∧ w.id = k := by
  rw [IdMap.find?_insert]
  by_cases hk : k = v.id
  · subst hk
    rw [if_pos rfl, Option.some.injEq]
    constructor
    · rintro rfl
      exact .inr ⟨rfl, rfl⟩
    · rintro (hw | ⟨rfl, -⟩)
      · exact Option.some.inj (hv.symm.trans (hd v.id w hw))
      · rfl
  · have hn : ¬ (w = v ∧ w.id = k) := fun h => hk (by rw [← h.2, h.1])
    rw [if_neg hk, or_iff_left hn]

theorem find?_foldl_registered {vs : List Variable} (hvs : ∀ v ∈ vs, m.vars.find? v.id = some v)
    {d : IdMap Variable} (hd : m.Lists d) :
    m.Lists (vs.foldl (fun d v => d.insert v.id v) d) ∧ ∀ k w,
      (vs.foldl (fun d v => d.insert v.id v) d).find? k = some w ↔
        d.find? k = some w ∨ w ∈ vs ∧ w.id = k := by
  induction vs generalizing d with
  | nil => exact ⟨hd, fun k w => by simp⟩
  | cons v vs ih =>
    have hv := hvs v List.mem_cons_self
    obtain ⟨hl, hf⟩ := ih (fun w hw => hvs w (List.mem_cons_of_mem v hw)) (hd.insert hv)
    refine ⟨hl, ?_⟩
    intro k w
    rw [List.foldl_cons, hf, find?_insert_registered hd hv, List.mem_cons, or_and_right, or_assoc]

/-- The partners found so far, after the factors of further ids. -/
def partnersFrom (m : Model) (id : Nat) (d : IdMap Variable) (fids : List Nat) : IdMap Variable :=
  fids.foldl (fun found fid =>
    match m.factors[fid]? with
    | none => found
    | some f => (f.scope.vars.filter (·.id ≠ id)).foldl (fun d v => d.insert v.id v) found) d

theorem find?_partnersFrom (hm : m.Registered) (id : Nat) {d : IdMap Variable} (hd : m.Lists d)
    (fids : List Nat) (k : Nat) (w : Variable) :
    (m.partnersFrom id d fids).find? k = some w ↔ d.find? k = some w ∨
      (∃ fid ∈ fids, ∃ f, m.factors[fid]? = some f ∧ w ∈ f.scope.vars ∧ w.id ≠ id) ∧ w.id = k := by
  induction fids generalizing d with
  | nil => simp [partnersFrom]
  | cons fid fids ih =>
    rw [List.exists_mem_cons_iff]
    cases hf : m.factors[fid]? with
    | none =>
      have hs : m.partnersFrom id d (fid :: fids) = m.partnersFrom id d fids := by
        simp only [partnersFrom, List.foldl_cons, hf]
      rw [hs, ih hd]
      simp
    | some f =>
      have hvs : ∀ v ∈ f.scope.vars.filter (·.id ≠ id), m.vars.find? v.id = some v :=
        fun v hv => hm.find?_vars (Array.mem_of_getElem? hf) (List.mem_of_mem_filter hv)
      obtain ⟨hl, hfind⟩ := find?_foldl_registered hvs hd
      have hs : m.partnersFrom id d (fid :: fids) = m.partnersFrom id
          ((f.scope.vars.filter (·.id ≠ id)).foldl (fun d v => d.insert v.id v) d) fids := by
        simp only [partnersFrom, List.foldl_cons, hf]
      rw [hs, ih hl, hfind]
      simp [or_and_right, or_assoc]

theorem mem_partners (hm : m.Registered) {id : Nat} {w : Variable} :
    w ∈ (m.partners id (m.idsOf id)).values ↔
      w.id ≠ id ∧ ∃ f ∈ m.factors, f.scope.contains id ∧ w ∈ f.scope.vars := by
  have hids : m.idsOf id = m.touching id := by
    rw [idsOf, hm.index]
    by_cases ht : m.touching id = [] <;> simp [ht]
  change w ∈ (m.partnersFrom id {} (m.idsOf id)).values ↔ _
  simp only [IdMap.mem_values, find?_partnersFrom hm id (d := {}) (fun k v h => by simp at h),
    IdMap.find?_empty, hids, mem_touching]
  constructor
  · rintro ⟨k, h | ⟨⟨fid, ⟨f, hf, hc⟩, g, hg, hw, hne⟩, -⟩⟩
    · exact absurd h (by simp)
    · cases hf.symm.trans hg
      exact ⟨hne, f, Array.mem_of_getElem? hf, hc, hw⟩
  · rintro ⟨hne, f, hf, hc, hw⟩
    obtain ⟨fid, hfid⟩ := Array.mem_iff_getElem?.1 hf
    exact ⟨w.id, .inr ⟨⟨fid, ⟨f, hfid, hc⟩, f, hfid, hw, hne⟩, rfl⟩⟩

theorem exists_partner_iff (hm : m.Registered) {u v : Nat} :
    (∃ w ∈ (m.partners u (m.idsOf u)).values, w.id = v) ↔ m.Meets u v := by
  simp only [mem_partners hm, Meets, Scope.contains_iff]
  constructor
  · rintro ⟨w, ⟨hne, f, hf, hu, hw⟩, rfl⟩
    exact ⟨Ne.symm hne, f, hf, hu, w, hw, rfl⟩
  · rintro ⟨hne, f, hf, hu, w, hw, rfl⟩
    exact ⟨w, ⟨Ne.symm hne, f, hf, hu, hw⟩, rfl⟩

end FactorForest.Model
