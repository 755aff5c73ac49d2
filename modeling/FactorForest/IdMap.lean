set_option autoImplicit false

namespace FactorForest

def bindEntry {α : Type} (k : Nat) (a : α) : List (Nat × α) → List (Nat × α)
  | [] => [(k, a)]
  | e :: rest =>
    if k < e.1 then (k, a) :: e :: rest
    else if k = e.1 then (k, a) :: rest
    else e :: bindEntry k a rest

theorem mem_bindEntry {α : Type} {k : Nat} {a : α} {e : Nat × α} {es : List (Nat × α)}
    (h : e ∈ bindEntry k a es) : e = (k, a) ∨ e ∈ es := by
  induction es with
  | nil => simpa [bindEntry] using h
  | cons d rest ih =>
    rw [bindEntry] at h
    split at h
    · simpa using h
    · split at h
      · rcases List.mem_cons.1 h with h | h
        · exact .inl h
        · exact .inr (List.mem_cons_of_mem _ h)
      · rcases List.mem_cons.1 h with h | h
        · exact .inr (h ▸ List.mem_cons_self)
        · exact (ih h).imp_right (List.mem_cons_of_mem _)

theorem pairwise_bindEntry {α : Type} {k : Nat} {a : α} {es : List (Nat × α)}
    (h : es.Pairwise fun x y => x.1 < y.1) :
    (bindEntry k a es).Pairwise fun x y => x.1 < y.1 := by
  induction es with
  | nil => simp [bindEntry]
  | cons d rest ih =>
    have hd := (List.pairwise_cons.1 h).1
    have hr := (List.pairwise_cons.1 h).2
    rw [bindEntry]
    split
    · rename_i hk
      refine List.pairwise_cons.2 ⟨fun e he => ?_, h⟩
      rcases List.mem_cons.1 he with he | he
      · exact he ▸ hk
      · exact Nat.lt_trans hk (hd e he)
    · split
      · rename_i hk
        exact List.pairwise_cons.2 ⟨fun e he => hk ▸ hd e he, hr⟩
      · rename_i h1 h2
        refine List.pairwise_cons.2 ⟨fun e he => ?_, ih hr⟩
        rcases mem_bindEntry he with he | he
        · subst he; omega
        · exact hd e he

structure IdMap (α : Type) where
  entries : List (Nat × α)
  ascending : entries.Pairwise (fun x y => x.1 < y.1)
deriving DecidableEq, Repr

namespace IdMap

variable {α : Type}

instance : EmptyCollection (IdMap α) := ⟨⟨[], .nil⟩⟩

instance : Inhabited (IdMap α) := ⟨{}⟩

def find? (m : IdMap α) (k : Nat) : Option α := m.entries.lookup k

def contains (m : IdMap α) (k : Nat) : Bool := (m.find? k).isSome

/-- The last binding of an id wins. -/
def insert (m : IdMap α) (k : Nat) (a : α) : IdMap α :=
  ⟨bindEntry k a m.entries, pairwise_bindEntry m.ascending⟩

def ofList (es : List (Nat × α)) : IdMap α := es.foldl (fun m e => m.insert e.1 e.2) {}

def keys (m : IdMap α) : List Nat := m.entries.map (·.1)

def values (m : IdMap α) : List α := m.entries.map (·.2)

def size (m : IdMap α) : Nat := m.entries.length

def mapValues {β : Type} (f : α → β) (m : IdMap α) : IdMap β :=
  ⟨m.entries.map fun e => (e.1, f e.2), List.pairwise_map.2 m.ascending⟩

end IdMap
end FactorForest
