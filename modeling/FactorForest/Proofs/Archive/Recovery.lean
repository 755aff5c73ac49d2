import FactorForest.Proofs.Archive.Runs

set_option autoImplicit false

namespace FactorForest.Archive

namespace Written

theorem fault_append_eq_none_iff {v w : Written} :
    (v ++ w).fault = none ↔ v.fault = none ∧ w.fault = none := by
  cases hv : v.fault with
  | none => simp [fault_append hv]
  | some e =>
    change (append v w).fault = none ↔ _
    simp [append, hv]

theorem append_of_broken {v : Written} (h : v.fault ≠ none) (w : Written) : v ++ w = v := by
  obtain ⟨e, he⟩ := Option.ne_none_iff_exists'.1 h
  change append v w = v
  rw [append, he]

end Written

/-- If `w` is complete and `r` gets through it, the value has the property and what follows is
left. -/
def Recovers {α : Type} (bound : Nat) (w : Written) (r : Reader α) (P : α → Prop) : Prop :=
  w.fault = none → ∀ rest a left, r.start bound (w.bytes ++ rest) = (.ok a, left) →
    P a ∧ left = rest

/-- The reader follows the writer field by field: it gets through what is complete, and it does not
get through what breaks off. -/
structure Mirrors {α : Type} (bound : Nat) (w : Written) (r : Reader α) (P : α → Prop) : Prop where
  recovers : Recovers bound w r P
  starves : w.fault ≠ none → ∀ a left, r.start bound w.bytes ≠ (.ok a, left)

namespace Mirrors

variable {α β : Type} {bound : Nat} {w w' : Written}

theorem of_complete {r : Reader α} {P : α → Prop} (hw : w.fault = none)
    (h : Recovers bound w r P) : Mirrors bound w r P :=
  ⟨h, fun hne => absurd hw hne⟩

theorem of_readsBack {r : Reader α} {a : α} (h : ReadsBack bound w r a) :
    Mirrors bound w r (· = a) := by
  refine of_complete h.complete fun _ rest b left hr => ?_
  rw [h.start rest] at hr
  cases hr
  exact ⟨rfl, rfl⟩

theorem refused {r : Reader α} {P : α → Prop} (e : Fault)
    (h : ∀ a left, r.start bound [] ≠ (.ok a, left)) : Mirrors bound (.refused e) r P :=
  ⟨fun hw => (nomatch hw), fun _ => h⟩

theorem mono {r : Reader α} {P Q : α → Prop} (h : Mirrors bound w r P) (hpq : ∀ a, P a → Q a) :
    Mirrors bound w r Q :=
  ⟨fun hw rest a left hr => (h.recovers hw rest a left hr).imp_left (hpq a), h.starves⟩

theorem pure {a : α} {P : α → Prop} (h : P a) : Mirrors bound {} (pure a) P := by
  refine of_complete rfl fun _ rest b left hr => ?_
  cases hr
  exact ⟨h, rfl⟩

theorem checked {x : Except Fault α} {P : α → Prop} (h : ∀ a, x = .ok a → P a) :
    Mirrors bound {} (Reader.checked x) P := by
  refine of_complete rfl fun _ rest a left hr => ?_
  obtain ⟨hx, rfl⟩ := Reader.start_checked_eq_ok_iff.1 hr
  exact ⟨h a hx, rfl⟩

theorem bind {r : Reader α} {f : α → Reader β} {P : α → Prop} {Q : β → Prop}
    (h : Mirrors bound w r P) (h' : ∀ a, P a → Mirrors bound w' (f a) Q) :
    Mirrors bound (w ++ w') (r >>= f) Q := by
  refine ⟨fun hw rest b left hr => ?_, fun hw b left hr => ?_⟩
  · obtain ⟨hv, hv'⟩ := Written.fault_append_eq_none_iff.1 hw
    rw [Written.bytes_append hv, List.append_assoc] at hr
    obtain ⟨a, mid, ha, hb⟩ := Reader.start_bind_eq_ok_iff.1 hr
    obtain ⟨hp, rfl⟩ := h.recovers hv _ a mid ha
    exact (h' a hp).recovers hv' rest b left hb
  · obtain ⟨a, mid, ha, hb⟩ := Reader.start_bind_eq_ok_iff.1 hr
    by_cases hv : w.fault = none
    · -- the first part is complete, so the second part is what breaks off
      rw [Written.bytes_append hv] at ha
      rw [Written.fault_append hv] at hw
      obtain ⟨hp, rfl⟩ := h.recovers hv _ a mid ha
      exact (h' a hp).starves hw b left hb
    · rw [Written.append_of_broken hv] at ha
      exact h.starves hv a mid ha

theorem last {r : Reader α} {f : α → Reader β} {P : α → Prop} {Q : β → Prop}
    (h : Mirrors bound w r P) (h' : ∀ a, P a → Mirrors bound {} (f a) Q) :
    Mirrors bound w (r >>= f) Q := by
  simpa using h.bind h'

theorem after {r : Reader α} {f : α → Reader β} {P : α → Prop} {Q : β → Prop}
    (h : Mirrors bound {} r P) (h' : ∀ a, P a → Mirrors bound w (f a) Q) :
    Mirrors bound w (r >>= f) Q :=
  h.bind h'

theorem guarded {c : Prop} [Decidable c] {e : Fault} {next : Unit → Reader α} {P : α → Prop}
    (h : ¬ c → Mirrors bound w (next ()) P) :
    Mirrors bound w (if c then throw e >>= next else next ()) P := by
  refine ⟨fun hw rest a left hr => ?_, fun hw a left hr => ?_⟩
  · obtain ⟨hc, hr⟩ := Reader.start_guarded_eq_ok_iff.1 hr
    exact (h hc).recovers hw rest a left hr
  · obtain ⟨hc, hr⟩ := Reader.start_guarded_eq_ok_iff.1 hr
    exact (h hc).starves hw a left hr

end Mirrors

/-- As before, but nothing is said of what is left, so `w` need only be the beginning. -/
def Foretells {α : Type} (bound : Nat) (w : Written) (r : Reader α) (P : α → Prop) : Prop :=
  w.fault = none → ∀ rest a left, r.start bound (w.bytes ++ rest) = (.ok a, left) → P a

section Prefixes

variable {α β : Type} {bound : Nat} {w w' : Written} {r : Reader α} {f : α → Reader β}
  {P : α → Prop} {Q : β → Prop}

theorem Yields.foretells (h : Yields bound r P) : Foretells bound w r P :=
  fun _ rest a left hr => h (w.bytes ++ rest) a left hr

theorem Recovers.foretells (h : Recovers bound w r P)
    (h' : ∀ a, P a → Foretells bound w' (f a) Q) : Foretells bound (w ++ w') (r >>= f) Q := by
  intro hw rest b left hr
  obtain ⟨hv, hv'⟩ := Written.fault_append_eq_none_iff.1 hw
  rw [Written.bytes_append hv, List.append_assoc] at hr
  obtain ⟨a, mid, ha, hb⟩ := Reader.start_bind_eq_ok_iff.1 hr
  obtain ⟨hp, rfl⟩ := h hv _ a mid ha
  exact h' a hp hv' rest b left hb

theorem Foretells.yields (h : Foretells bound w r P) (h' : ∀ a, P a → Yields bound (f a) Q) :
    Foretells bound w (r >>= f) Q := by
  intro hw rest b left hr
  obtain ⟨a, mid, ha, hb⟩ := Reader.start_bind_eq_ok_iff.1 hr
  exact h' a (h hw rest a mid ha) mid b left hb

end Prefixes

section Fields

variable {bound : Nat}

theorem start_tagged_nil {α : Type} (t : Tag) (f : Unit → Reader α) (a : α) (left : List UInt8) :
    (Reader.expect t >>= f).start bound [] ≠ (.ok a, left) := by
  -- a field starts with its tag, so there is none in no bytes
  intro hr
  obtain ⟨_, mid, ht, -⟩ := Reader.start_bind_eq_ok_iff.1 hr
  exact nomatch Reader.start_expect_eq_ok_iff.1 ht

theorem mirrors_unsigned (t : Tag) (width : Nat) (n : Int) :
    Mirrors bound (unsigned t width n) (Reader.expect t >>= fun _ => Reader.number width)
      (fun k => (k : Int) = n) := by
  by_cases hn : 0 ≤ n ∧ n < 256 ^ width
  · obtain ⟨m, rfl⟩ := Int.eq_ofNat_of_zero_le hn.1
    have hm : m < 256 ^ width := by exact_mod_cast hn.2
    rw [unsigned_natCast hm]
    exact (Mirrors.of_readsBack (.field t (start_number hm))).mono fun k hk => hk ▸ rfl
  · rw [unsigned, if_neg hn]
    exact .refused _ (start_tagged_nil t _)

theorem mirrors_u64 (n : Int) : Mirrors bound (u64 n) Reader.u64 (fun k => (k : Int) = n) :=
  mirrors_unsigned .u64 8 n

theorem mirrors_u32 (n : Int) : Mirrors bound (u32 n) Reader.u32 (fun k => (k : Int) = n) :=
  mirrors_unsigned .u32 4 n

theorem mirrors_listLength (n : Int) :
    Mirrors bound (listLength n) Reader.listLength (fun k => (k : Int) = n) :=
  mirrors_unsigned .list 8 n

theorem mirrors_i64 (n : Int) : Mirrors bound (i64 n) Reader.i64 (· = n) := by
  by_cases hn : -2 ^ 63 ≤ n ∧ n < 2 ^ 63
  · exact .of_readsBack (readsBack_i64 hn.1 hn.2)
  · rw [i64, if_neg hn]
    exact .refused _ (start_tagged_nil .i64 _)

theorem mirrors_counted {α : Type} (t : Tag) {n unit : Nat} {payload : List UInt8}
    (hl : payload.length = n * unit) {f : List UInt8 → Reader α} {P : α → Prop}
    (hf : Mirrors bound {} (f payload) P) :
    Mirrors bound (counted t n payload)
      (Reader.expect t >>= fun _ => Reader.number 8 >>= fun k => Reader.payload (k * unit) >>= f)
      P := by
  -- a payload is read in full or not at all, since its length is that of its own count
  rw [← bind_assoc]
  refine (mirrors_unsigned t 8 n).bind fun k hk => ?_
  cases Int.ofNat_inj.1 hk
  refine .of_complete rfl fun _ rest a left hr => ?_
  obtain ⟨front, mid, hp, ha⟩ := Reader.start_bind_eq_ok_iff.1 hr
  obtain ⟨-, hfront, hbytes⟩ := Reader.start_payload_eq_ok_iff.1 hp
  obtain ⟨rfl, rfl⟩ := List.append_inj hbytes (hl.trans hfront.symm)
  exact hf.recovers rfl _ a left ha

theorem mirrors_str (s : String) : Mirrors bound (str s) Reader.str (· = s) := by
  have hl : (Text.Utf8.encode s).length = (Text.Utf8.encode s).length * 1 := (Nat.mul_one _).symm
  have hf : Mirrors bound {} (Reader.decoded (Text.Utf8.encode s)) (· = s) := by
    rw [Reader.decoded, Text.Utf8.decode_encode]
    exact .pure String.ofList_toList
  have h := mirrors_counted .str hl hf
  simp only [Nat.mul_one] at h
  exact h

theorem mirrors_f64Array (xs : List Double) :
    Mirrors bound (f64Array xs) Reader.f64Array (· = xs) :=
  mirrors_counted .f64Array (length_flatMap_doubleBytes xs)
    (.pure (doubles_flatMap_doubleBytes xs))

/-- The values that are read need not be the written ones but stand for them under `g`. -/
theorem mirrors_times {α β : Type} {write : α → Written} {r : Reader β} {g : β → α}
    {xs : List α} (h : ∀ x ∈ xs, Mirrors bound (write x) r (fun b => g b = x)) :
    Mirrors bound (Written.concat (xs.map write)) (Reader.times r xs.length)
      (fun bs => bs.map g = xs) := by
  induction xs with
  | nil => exact .pure rfl
  | cons x xs ih =>
    have hxs := ih fun y hy => h y (List.mem_cons_of_mem x hy)
    refine (h x List.mem_cons_self).bind fun b hb => hxs.last fun bs hbs => .pure ?_
    rw [List.map_cons, hb, hbs]

theorem mirrors_list {α β : Type} {write : α → Written} {r : Reader β} {g : β → α}
    {xs : List α} (h : ∀ x ∈ xs, Mirrors bound (write x) r (fun b => g b = x)) :
    Mirrors bound (list write xs) (Reader.list r) (fun bs => bs.map g = xs) := by
  refine (mirrors_listLength _).bind fun k hk => ?_
  rw [Int.ofNat_inj.1 hk]
  exact mirrors_times h

theorem mirrors_list_id {α : Type} {write : α → Written} {r : Reader α} {xs : List α}
    (h : ∀ x ∈ xs, Mirrors bound (write x) r (· = x)) :
    Mirrors bound (list write xs) (Reader.list r) (· = xs) := by
  simpa using mirrors_list (g := id) h

theorem mirrors_u64List (ns : List Int) :
    Mirrors bound (u64List ns) Reader.u64List (fun ks => ks.map Int.ofNat = ns) :=
  mirrors_list fun n _ => mirrors_u64 n

theorem mirrors_strList (ss : List String) :
    Mirrors bound (strList ss) Reader.strList (· = ss) :=
  mirrors_list_id fun s _ => mirrors_str s

theorem mirrors_variableField (v : Variable) :
    Mirrors bound (variableField v) Reader.variableField (· = v) := by
  refine (mirrors_u64 _).bind fun id hid => (mirrors_u64 _).last fun arity harity => ?_
  rw [hid, harity, Variable.ofInts_natCast]
  exact .pure rfl

theorem mirrors_scope (s : Scope) : Mirrors bound (scope s) Reader.scope (· = s) := by
  refine (mirrors_list_id fun v _ => mirrors_variableField v).last fun vs hvs => ?_
  rw [hvs, Scope.ofList_vars]
  exact .pure rfl

theorem mirrors_assignment (a : Assignment) :
    Mirrors bound (assignment a) Reader.assignment (· = a) := by
  refine (mirrors_scope a.scope).bind fun s hs => (mirrors_u64List _).last fun xs hxs => ?_
  rw [hs, hxs, Assignment.ofValues_values]
  exact .pure rfl

theorem mirrors_factor (f : Factor) : Mirrors bound (factor f) Reader.factor (· = f) := by
  refine (mirrors_scope f.scope).bind fun s hs => (mirrors_f64Array _).last fun xs hxs => ?_
  rw [hs, hxs, Array.toArray_toList, Factor.ofTable_table]
  exact .pure rfl

end Fields
end FactorForest.Archive
