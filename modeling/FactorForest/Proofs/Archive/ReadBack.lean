import FactorForest.Archive.Reader
import FactorForest.Proofs.Scope
import FactorForest.Proofs.Text.Utf8

set_option autoImplicit false

namespace FactorForest.Archive

namespace Reader

variable {α β : Type} {bound : Nat} {bytes : List UInt8}

theorem start_pure (a : α) : (pure a : Reader α).start bound bytes = (.ok a, bytes) := rfl

theorem start_read : (read : Reader Nat).start bound bytes = (.ok bound, bytes) := rfl

theorem start_get : (get : Reader (List UInt8)).start bound bytes = (.ok bytes, bytes) := rfl

theorem start_bind (r : Reader α) (f : α → Reader β) :
    (r >>= f).start bound bytes =
      match r.start bound bytes with
      | (.ok a, rest) => (f a).start bound rest
      | (.error e, rest) => (.error e, rest) := by
  simp only [start, ReaderT.run_bind, ExceptT.run_bind, StateT.run_bind]
  cases ((r.run bound).run).run bytes with
  | mk res rest => cases res <;> rfl

theorem start_bind_ok {r : Reader α} {a : α} {rest : List UInt8}
    (h : r.start bound bytes = (.ok a, rest)) (f : α → Reader β) :
    (r >>= f).start bound bytes = (f a).start bound rest := by
  rw [start_bind, h]

theorem start_bind_error {r : Reader α} {e : Fault} (h : (r.start bound bytes).1 = .error e)
    (f : α → Reader β) : ((r >>= f).start bound bytes).1 = .error e := by
  rw [start_bind]
  cases hr : r.start bound bytes with
  | mk res rest =>
    rw [hr] at h
    cases h
    rfl

def decoded (bytes : List UInt8) : Reader String :=
  match Text.Utf8.decode bytes with
  | .ok cs => pure (String.ofList cs)
  | .error e => throw (.badText e)

theorem start_take (n : Nat) :
    (take n).start bound bytes =
      (if (bytes.take n).length = n then .ok (bytes.take n)
        else .error (.truncated n (bytes.take n).length), bytes.drop n) := by
  change (if (bytes.take n).length = n then (pure (bytes.take n) : Reader (List UInt8))
    else throw (.truncated n (bytes.take n).length)).start bound (bytes.drop n) = _
  split <;> rfl

theorem start_take_append {n : Nat} {front : List UInt8} (h : front.length = n)
    (rest : List UInt8) : (take n).start bound (front ++ rest) = (.ok front, rest) := by
  rw [start_take, List.take_left' h, List.drop_left' h, if_pos h]

end Reader

theorem length_littleEndian (width n : Nat) : (littleEndian width n).length = width := by
  induction width generalizing n with
  | zero => rfl
  | succ width ih => rw [littleEndian, List.length_cons, ih]

theorem ofLittleEndian_littleEndian {width n : Nat} (h : n < 256 ^ width) :
    Reader.ofLittleEndian (littleEndian width n) = n := by
  induction width generalizing n with
  | zero =>
    rw [Nat.pow_zero] at h
    rw [littleEndian, Reader.ofLittleEndian]
    omega
  | succ width ih =>
    have hq : n / 256 < 256 ^ width := Nat.div_lt_of_lt_mul (by rwa [Nat.pow_succ'] at h)
    have hb : (UInt8.ofNat (n % 256)).toNat = n % 256 :=
      UInt8.toNat_ofNat_of_lt' (Nat.mod_lt n (by decide))
    rw [littleEndian, Reader.ofLittleEndian, ih hq, hb]
    omega

theorem start_number {bound width n : Nat} (h : n < 256 ^ width) (rest : List UInt8) :
    (Reader.number width).start bound (littleEndian width n ++ rest) = (.ok n, rest) := by
  rw [Reader.number, Reader.start_bind_ok
    (Reader.start_take_append (length_littleEndian width n) rest)]
  rw [ofLittleEndian_littleEndian h, Reader.start_pure]

namespace Written

@[simp]
theorem empty_append (w : Written) : ({} : Written) ++ w = w := rfl

@[simp]
theorem append_empty (w : Written) : w ++ ({} : Written) = w := by
  cases w with
  | mk bytes fault =>
    cases fault with
    | none => exact congrArg (Written.mk · none) (List.append_nil bytes)
    | some e => rfl

theorem append_of_complete {v w : Written} (h : v.fault = none) :
    v ++ w = ⟨v.bytes ++ w.bytes, w.fault⟩ := by
  change append v w = _
  rw [append, h]

theorem bytes_append {v : Written} (h : v.fault = none) (w : Written) :
    (v ++ w).bytes = v.bytes ++ w.bytes := by
  rw [append_of_complete h]

theorem fault_append {v : Written} (h : v.fault = none) (w : Written) :
    (v ++ w).fault = w.fault := by
  rw [append_of_complete h]

theorem append_assoc (u v w : Written) : u ++ v ++ w = u ++ (v ++ w) := by
  cases u with
  | mk bytes fault =>
    cases fault with
    | some e => rfl
    | none =>
      cases v with
      | mk bytes' fault' =>
        cases fault' with
        | some e => rfl
        | none => exact congrArg (Written.mk · w.fault) (List.append_assoc _ _ _)

end Written

/-- What `w` puts out is complete, and `r` reads it as `a` whatever follows. -/
structure ReadsBack {α : Type} (bound : Nat) (w : Written) (r : Reader α) (a : α) : Prop where
  complete : w.fault = none
  start : ∀ rest, r.start bound (w.bytes ++ rest) = (.ok a, rest)

namespace ReadsBack

variable {α β : Type} {bound : Nat} {w w' : Written}

theorem pure (a : α) : ReadsBack bound {} (pure a) a := ⟨rfl, fun _ => rfl⟩

theorem bind {r : Reader α} {f : α → Reader β} {a : α} {b : β} (h : ReadsBack bound w r a)
    (h' : ReadsBack bound w' (f a) b) : ReadsBack bound (w ++ w') (r >>= f) b := by
  rw [Written.append_of_complete h.complete]
  refine ⟨h'.complete, ?_⟩
  intro rest
  rw [List.append_assoc, Reader.start_bind_ok (h.start _)]
  exact h'.start rest

theorem last {r : Reader α} {f : α → Reader β} {a : α} {b : β} (h : ReadsBack bound w r a)
    (h' : ReadsBack bound {} (f a) b) : ReadsBack bound w (r >>= f) b := by
  simpa using h.bind h'

theorem checked {a : α} {x : Except Fault α} (h : x = .ok a) :
    ReadsBack bound {} (Reader.checked x) a := by
  subst h
  exact .pure a

theorem expect (t : Tag) : ReadsBack bound ⟨[UInt8.ofNat t.number], none⟩ (Reader.expect t) () := by
  refine ⟨rfl, ?_⟩
  intro rest
  have hn : (Reader.number 1).start bound ([UInt8.ofNat t.number] ++ rest) =
      (.ok t.number, rest) := by
    have hb : [UInt8.ofNat t.number] = littleEndian 1 t.number := by cases t <;> rfl
    rw [hb]
    exact start_number (by cases t <;> decide) rest
  rw [Reader.expect, Reader.start_bind_ok hn]
  simp [Reader.start_pure]

theorem field {r : Reader α} {a : α} {payload : List UInt8} (t : Tag)
    (h : ∀ rest, r.start bound (payload ++ rest) = (.ok a, rest)) :
    ReadsBack bound (Archive.field t payload) (Reader.expect t >>= fun _ => r) a := by
  have hr : ReadsBack bound ⟨payload, none⟩ r a := ⟨rfl, h⟩
  exact (expect t).bind (f := fun _ => r) hr

end ReadsBack

def Word (n : Int) : Prop := 0 ≤ n ∧ n < 2 ^ 64

instance (n : Int) : Decidable (Word n) := inferInstanceAs (Decidable (_ ∧ _))

theorem word_natCast {n : Nat} : Word n ↔ n < 2 ^ 64 := by
  unfold Word
  omega

theorem map_ofNat_toNat {ns : List Int} (h : ∀ n ∈ ns, 0 ≤ n) :
    (ns.map Int.toNat).map Int.ofNat = ns := by
  rw [List.map_map]
  exact (List.map_congr_left fun n hn => Int.toNat_of_nonneg (h n hn)).trans (List.map_id _)

section Fields

variable {bound : Nat}

theorem unsigned_natCast {t : Tag} {width n : Nat} (h : n < 256 ^ width) :
    unsigned t width n = field t (littleEndian width n) := by
  have hc : 0 ≤ (n : Int) ∧ (n : Int) < 256 ^ width := ⟨by omega, by exact_mod_cast h⟩
  rw [unsigned, if_pos hc, Int.toNat_natCast]

theorem readsBack_u64 {n : Nat} (h : n < 2 ^ 64) : ReadsBack bound (u64 n) Reader.u64 n := by
  rw [u64, unsigned_natCast h]
  exact .field .u64 (start_number h)

theorem readsBack_u64_of_word {n : Int} (h : Word n) :
    ReadsBack bound (u64 n) Reader.u64 n.toNat := by
  have hn : (n.toNat : Int) = n := Int.toNat_of_nonneg h.1
  rw [← hn, Int.toNat_natCast]
  exact readsBack_u64 (word_natCast.1 (hn ▸ h))

theorem readsBack_u32 {n : Nat} (h : n < 2 ^ 32) : ReadsBack bound (u32 n) Reader.u32 n := by
  rw [u32, unsigned_natCast h]
  exact .field .u32 (start_number h)

theorem readsBack_i64 {n : Int} (h : -2 ^ 63 ≤ n) (h' : n < 2 ^ 63) :
    ReadsBack bound (i64 n) Reader.i64 n := by
  rw [i64, if_pos ⟨h, h'⟩]
  refine .field .i64 ?_
  intro rest
  rw [Reader.start_bind_ok (start_number (by omega) rest), Reader.start_pure]
  have hv : (if (n % 2 ^ 64).toNat < 2 ^ 63 then ((n % 2 ^ 64).toNat : Int)
      else ((n % 2 ^ 64).toNat : Int) - 2 ^ 64) = n := by
    split <;> omega
  rw [hv]

theorem readsBack_f64 (x : Double) : ReadsBack bound (f64 x) Reader.f64 x := by
  refine .field .f64 ?_
  intro rest
  have hx : x.bits.toNat < 256 ^ 8 := x.bits.toNat_lt
  rw [doubleBytes, Reader.start_bind_ok (start_number hx rest), Reader.start_pure,
    UInt64.ofNat_toNat]

theorem readsBack_bool (b : Bool) : ReadsBack bound (bool b) Reader.bool b := by
  refine .field .bool ?_
  intro rest
  rw [Reader.start_bind_ok (Reader.start_take_append (n := 1) rfl rest)]
  cases b <;> rfl

theorem readsBack_listLength {n : Nat} (h : n < 2 ^ 64) :
    ReadsBack bound (listLength n) Reader.listLength n := by
  rw [listLength, unsigned_natCast h]
  exact .field .list (start_number h)

theorem start_payload (bytes : List UInt8) (h : bytes.length < bound) (rest : List UInt8) :
    (Reader.payload bytes.length).start bound (bytes ++ rest) = (.ok bytes, rest) := by
  rw [Reader.payload, Reader.start_bind_ok Reader.start_read, if_pos h]
  exact Reader.start_take_append rfl rest

theorem counted_of_lt {t : Tag} {n : Nat} (h : n < 256 ^ 8) (payload : List UInt8) :
    counted t n payload = field t (littleEndian 8 n ++ payload) := by
  rw [counted, unsigned_natCast h]
  rfl

theorem readsBack_str {s : String} (hb : bound ≤ countBound)
    (h : (Text.Utf8.encode s).length < bound) : ReadsBack bound (str s) Reader.str s := by
  have hl : (Text.Utf8.encode s).length < 256 ^ 8 := by
    unfold countBound at hb
    omega
  simp only [str, counted_of_lt hl]
  refine .field .str ?_
  intro rest
  rw [List.append_assoc, Reader.start_bind_ok (start_number hl _),
    Reader.start_bind_ok (start_payload _ h rest), Text.Utf8.decode_encode]
  rw [Reader.start_pure, String.ofList_toList]

theorem length_flatMap_doubleBytes (xs : List Double) :
    (xs.flatMap doubleBytes).length = xs.length * 8 := by
  induction xs with
  | nil => rfl
  | cons x xs ih =>
    rw [List.flatMap_cons, List.length_append, ih, doubleBytes, length_littleEndian,
      List.length_cons]
    omega

theorem doubles_flatMap_doubleBytes (xs : List Double) :
    Reader.doubles (xs.flatMap doubleBytes) = xs := by
  induction xs with
  | nil => rfl
  | cons x xs ih =>
    have hx : Reader.ofLittleEndian (littleEndian 8 x.bits.toNat) = x.bits.toNat :=
      ofLittleEndian_littleEndian x.bits.toNat_lt
    rw [List.flatMap_cons]
    change (⟨UInt64.ofNat (Reader.ofLittleEndian (littleEndian 8 x.bits.toNat))⟩ : Double) ::
      Reader.doubles (xs.flatMap doubleBytes) = x :: xs
    rw [hx, ih, UInt64.ofNat_toNat]

theorem readsBack_f64Array {xs : List Double} (hb : bound ≤ countBound)
    (h : xs.length * 8 < bound) : ReadsBack bound (f64Array xs) Reader.f64Array xs := by
  have hl : xs.length < 256 ^ 8 := by
    unfold countBound at hb
    omega
  rw [f64Array, counted_of_lt hl]
  refine .field .f64Array ?_
  intro rest
  have hf := length_flatMap_doubleBytes xs
  have hp := start_payload (xs.flatMap doubleBytes) (hf ▸ h) rest
  rw [List.append_assoc, Reader.start_bind_ok (start_number hl _), ← hf,
    Reader.start_bind_ok hp, Reader.start_pure, doubles_flatMap_doubleBytes]

theorem readsBack_times {α β : Type} {write : α → Written} {r : Reader β} {f : α → β}
    {xs : List α} (h : ∀ x ∈ xs, ReadsBack bound (write x) r (f x)) :
    ReadsBack bound (Written.concat (xs.map write)) (Reader.times r xs.length) (xs.map f) := by
  induction xs with
  | nil => exact .pure []
  | cons x xs ih =>
    have hx := h x List.mem_cons_self
    have hxs := ih fun y hy => h y (List.mem_cons_of_mem x hy)
    exact hx.bind (hxs.last (.pure _))

theorem readsBack_list {α β : Type} {write : α → Written} {r : Reader β} {f : α → β}
    {xs : List α} (hl : xs.length < 2 ^ 64) (h : ∀ x ∈ xs, ReadsBack bound (write x) r (f x)) :
    ReadsBack bound (list write xs) (Reader.list r) (xs.map f) :=
  (readsBack_listLength hl).bind (readsBack_times h)

theorem readsBack_list_id {α : Type} {write : α → Written} {r : Reader α} {xs : List α}
    (hl : xs.length < 2 ^ 64) (h : ∀ x ∈ xs, ReadsBack bound (write x) r x) :
    ReadsBack bound (list write xs) (Reader.list r) xs := by
  simpa using readsBack_list (f := id) hl h

theorem readsBack_u64List {ns : List Nat} (hl : ns.length < 2 ^ 64) (h : ∀ n ∈ ns, n < 2 ^ 64) :
    ReadsBack bound (u64List (ns.map Int.ofNat)) Reader.u64List ns := by
  have hw : ReadsBack bound (u64List (ns.map Int.ofNat)) Reader.u64List
      ((ns.map Int.ofNat).map Int.toNat) := by
    apply readsBack_list (by simpa using hl)
    intro x hx
    obtain ⟨n, hn, rfl⟩ := List.mem_map.1 hx
    exact readsBack_u64 (h n hn)
  rw [List.map_map, show Int.toNat ∘ Int.ofNat = id from rfl, List.map_id] at hw
  exact hw

theorem readsBack_strList {ss : List String} (hb : bound ≤ countBound) (hl : ss.length < 2 ^ 64)
    (h : ∀ s ∈ ss, (Text.Utf8.encode s).length < bound) :
    ReadsBack bound (strList ss) Reader.strList ss :=
  readsBack_list_id hl fun s hs => readsBack_str hb (h s hs)

end Fields
end FactorForest.Archive
