import FactorForest.IdMap
import Mathlib.Data.List.Sort

set_option autoImplicit false

namespace FactorForest

variable {α : Type}

theorem lookup_cons_ite (e : Nat × α) (es : List (Nat × α)) (k : Nat) :
    (e :: es).lookup k = if k = e.1 then some e.2 else es.lookup k := by
  rw [List.lookup_cons]
  by_cases hk : k = e.1
  · simp [hk]
  · simp [hk, beq_eq_false_iff_ne.2 hk]

theorem lookup_bindEntry (k j : Nat) (a : α) (es : List (Nat × α)) :
    (bindEntry k a es).lookup j = if j = k then some a else es.lookup j := by
  induction es with
  | nil => simp [bindEntry, lookup_cons_ite]
  | cons e rest ih =>
    rw [bindEntry]
    split
    · simp only [lookup_cons_ite]
    · split
      · rename_i hk
        simp only [lookup_cons_ite, hk]
        split_ifs <;> rfl
      · rename_i hk
        simp only [lookup_cons_ite, ih]
        by_cases hj : j = k
        · have hi : j ≠ e.1 := hj ▸ hk
          simp [hj ▸ hi, hj]
        · simp [hj]

theorem lookup_eq_some_iff_mem {es : List (Nat × α)} (h : (es.map (·.1)).Nodup) {k : Nat} {a : α} :
    es.lookup k = some a ↔ (k, a) ∈ es := by
  induction es with
  | nil => simp
  | cons e rest ih =>
    obtain ⟨i, b⟩ := e
    obtain ⟨hi, hrest⟩ := List.nodup_cons.1 h
    rw [lookup_cons_ite]
    by_cases hk : k = i
    · subst hk
      have hnot : (k, a) ∉ rest := fun hm => hi (List.mem_map.2 ⟨_, hm, rfl⟩)
      simp [hnot, eq_comm]
    · simp [ih hrest, hk]

theorem length_bindEntry_le (k : Nat) (a : α) (es : List (Nat × α)) :
    (bindEntry k a es).length ≤ es.length + 1 := by
  induction es with
  | nil => exact Nat.le_refl 1
  | cons e rest ih =>
    rw [bindEntry]
    split_ifs <;> simp only [List.length_cons] <;> omega

namespace IdMap

@[simp]
theorem find?_empty (k : Nat) : ({} : IdMap α).find? k = none := rfl

@[simp]
theorem find?_insert (m : IdMap α) (k j : Nat) (a : α) :
    (m.insert k a).find? j = if j = k then some a else m.find? j :=
  lookup_bindEntry k j a m.entries

theorem find?_mapValues {β : Type} (f : α → β) (m : IdMap α) (k : Nat) :
    (m.mapValues f).find? k = (m.find? k).map f := by
  change (m.entries.map fun e => (e.1, f e.2)).lookup k = (m.entries.lookup k).map f
  induction m.entries with
  | nil => rfl
  | cons e es ih =>
    rw [List.map_cons, lookup_cons_ite, lookup_cons_ite, ih]
    split_ifs <;> rfl

@[simp]
theorem keys_mapValues {β : Type} (f : α → β) (m : IdMap α) : (m.mapValues f).keys = m.keys := by
  simp only [keys, mapValues, List.map_map]
  rfl

theorem keys_ascending (m : IdMap α) : m.keys.Pairwise (· < ·) :=
  List.pairwise_map.2 m.ascending

theorem keys_nodup (m : IdMap α) : m.keys.Nodup := m.keys_ascending.imp Nat.ne_of_lt

theorem mem_entries {m : IdMap α} {k : Nat} {a : α} :
    (k, a) ∈ m.entries ↔ m.find? k = some a :=
  (lookup_eq_some_iff_mem m.keys_nodup).symm

theorem mem_values {m : IdMap α} {a : α} : a ∈ m.values ↔ ∃ k, m.find? k = some a := by
  simp only [values, List.mem_map, Prod.exists, mem_entries, exists_eq_right]

theorem mem_keys {m : IdMap α} {k : Nat} : k ∈ m.keys ↔ ∃ a, m.find? k = some a := by
  simp only [keys, List.mem_map, Prod.exists, exists_and_right, exists_eq_right, mem_entries]

theorem length_keys (m : IdMap α) : m.keys.length = m.size := by
  simp [keys, size]

theorem ext_find? {m n : IdMap α} (h : ∀ k, m.find? k = n.find? k) : m = n := by
  have he : m.entries = n.entries := by
    apply List.Pairwise.eq_of_mem_iff (r := fun x y => x.1 < y.1) m.ascending n.ascending
    rintro ⟨k, a⟩
    rw [mem_entries, mem_entries, h k]
  cases m
  cases n
  cases he
  rfl

theorem insert_of_find? {m : IdMap α} {k : Nat} {a : α} (h : m.find? k = some a) :
    m.insert k a = m := by
  apply ext_find?
  intro j
  rw [find?_insert]
  split_ifs with hj
  · rw [hj, h]
  · rfl

theorem mapValues_insert {β : Type} (f : α → β) (m : IdMap α) (k : Nat) (a : α) :
    (m.insert k a).mapValues f = (m.mapValues f).insert k (f a) := by
  apply ext_find?
  intro j
  simp only [find?_mapValues, find?_insert]
  split_ifs <;> rfl

theorem mapValues_mapValues {β γ : Type} (f : α → β) (f' : β → γ) (m : IdMap α) :
    (m.mapValues f).mapValues f' = m.mapValues fun a => f' (f a) := by
  apply ext_find?
  intro k
  simp only [find?_mapValues, Option.map_map]
  rfl

theorem find?_foldl_insert (es : List (Nat × α)) (m : IdMap α) (k : Nat) :
    (es.foldl (fun m e => m.insert e.1 e.2) m).find? k = (es.reverse.lookup k).or (m.find? k) := by
  induction es generalizing m with
  | nil => rfl
  | cons e es ih =>
    rw [List.foldl_cons, ih, find?_insert, List.reverse_cons, List.lookup_append, Option.or_assoc,
      lookup_cons_ite]
    split_ifs <;> rfl

theorem find?_ofList (es : List (Nat × α)) (k : Nat) :
    (ofList es).find? k = es.reverse.lookup k := by
  rw [ofList, find?_foldl_insert, find?_empty, Option.or_none]

theorem ofList_entries (m : IdMap α) : ofList m.entries = m := by
  apply ext_find?
  intro k
  have hreverse : (m.entries.reverse.map (·.1)).Nodup := by
    rw [List.map_reverse, List.nodup_reverse]
    exact m.keys_nodup
  rw [find?_ofList]
  apply Option.ext
  intro a
  rw [lookup_eq_some_iff_mem hreverse, List.mem_reverse, mem_entries]

theorem size_foldl_insert_le (es : List (Nat × α)) (m : IdMap α) :
    (es.foldl (fun m e => m.insert e.1 e.2) m).size ≤ m.size + es.length := by
  induction es generalizing m with
  | nil => exact Nat.le_refl m.size
  | cons e es ih =>
    have hinsert : (m.insert e.1 e.2).size ≤ m.size + 1 := length_bindEntry_le e.1 e.2 m.entries
    have hrest := ih (m.insert e.1 e.2)
    rw [List.foldl_cons, List.length_cons]
    omega

theorem size_ofList_le (es : List (Nat × α)) : (ofList es).size ≤ es.length :=
  (size_foldl_insert_le es {}).trans (Nat.le_of_eq (Nat.zero_add es.length))

end IdMap
end FactorForest
