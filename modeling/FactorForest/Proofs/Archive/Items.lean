import FactorForest.Proofs.Archive.Recovery
import FactorForest.Proofs.Archive.Storable

/-!
Archives of any items. What a list of items of any kinds puts out, readers of the same kinds take
off again in the same order. Every item is a run of plain fields, and the first field whose number
is out of range ends the writing.
-/

set_option autoImplicit false

namespace FactorForest.Archive

inductive Kind
  | u64
  | i64
  | u32
  | f64
  | bool
  | str
  | listLength
  | f64Array
  | u64List
  | strList
  | variableField
  | scope
  | assignment
  | factor
deriving DecidableEq

namespace Kind

@[reducible]
def Value : Kind → Type
  | .u64 | .i64 | .u32 | .listLength => Int
  | .f64 => Double
  | .bool => Bool
  | .str => String
  | .f64Array => List Double
  | .u64List => List Int
  | .strList => List String
  | .variableField => Variable
  | .scope => Scope
  | .assignment => Assignment
  | .factor => Factor

def write : (k : Kind) → k.Value → Written
  | .u64 => Archive.u64
  | .i64 => Archive.i64
  | .u32 => Archive.u32
  | .f64 => Archive.f64
  | .bool => Archive.bool
  | .str => Archive.str
  | .listLength => Archive.listLength
  | .f64Array => Archive.f64Array
  | .u64List => Archive.u64List
  | .strList => Archive.strList
  | .variableField => Archive.variableField
  | .scope => Archive.scope
  | .assignment => Archive.assignment
  | .factor => Archive.factor

def read : (k : Kind) → Reader k.Value
  | .u64 => Reader.u64 >>= fun n => pure (n : Int)
  | .i64 => Reader.i64
  | .u32 => Reader.u32 >>= fun n => pure (n : Int)
  | .f64 => Reader.f64
  | .bool => Reader.bool
  | .str => Reader.str
  | .listLength => Reader.listLength >>= fun n => pure (n : Int)
  | .f64Array => Reader.f64Array
  | .u64List => Reader.u64List >>= fun ns => pure (ns.map Int.ofNat)
  | .strList => Reader.strList
  | .variableField => Reader.variableField
  | .scope => Reader.scope
  | .assignment => Reader.assignment
  | .factor => Reader.factor

end Kind

abbrev Item := (k : Kind) × k.Value

def writeAll (items : List Item) : Written := Written.concat (items.map fun i => i.1.write i.2)

def readAll : List Kind → Reader (List Item)
  | [] => pure []
  | k :: ks => do
    let a ← k.read
    let items ← readAll ks
    pure (⟨k, a⟩ :: items)

inductive Field
  | u64 (n : Int)
  | i64 (n : Int)
  | u32 (n : Int)
  | f64 (x : Double)
  | bool (b : Bool)
  | str (s : String)
  | listLength (n : Int)
  | f64Array (xs : List Double)

namespace Field

def write : Field → Written
  | .u64 n => Archive.u64 n
  | .i64 n => Archive.i64 n
  | .u32 n => Archive.u32 n
  | .f64 x => Archive.f64 x
  | .bool b => Archive.bool b
  | .str s => Archive.str s
  | .listLength n => Archive.listLength n
  | .f64Array xs => Archive.f64Array xs

/-- The number that stands first in the field, if one does, fits its width. -/
def InRange : Field → Prop
  | .u64 n | .listLength n => Word n
  | .i64 n => -2 ^ 63 ≤ n ∧ n < 2 ^ 63
  | .u32 n => 0 ≤ n ∧ n < 2 ^ 32
  | .f64 _ | .bool _ => True
  | .str s => (Text.Utf8.encode s).length < 2 ^ 64
  | .f64Array xs => xs.length < 2 ^ 64

instance : DecidablePred InRange
  | .u64 n | .listLength n => inferInstanceAs (Decidable (Word n))
  | .i64 n => inferInstanceAs (Decidable (-2 ^ 63 ≤ n ∧ n < 2 ^ 63))
  | .u32 n => inferInstanceAs (Decidable (0 ≤ n ∧ n < 2 ^ 32))
  | .f64 _ | .bool _ => inferInstanceAs (Decidable True)
  | .str s => inferInstanceAs (Decidable ((Text.Utf8.encode s).length < 2 ^ 64))
  | .f64Array xs => inferInstanceAs (Decidable (xs.length < 2 ^ 64))

def payload? : Field → Option Nat
  | .str s => some (Text.Utf8.encode s).length
  | .f64Array xs => some (xs.length * 8)
  | _ => none

end Field

namespace Kind

def scopeFields (s : Scope) : List Field :=
  .listLength s.vars.length :: s.vars.flatMap fun v => [.u64 v.id, .u64 v.arity]

def u64Fields (ns : List Int) : List Field := .listLength ns.length :: ns.map .u64

def fields : (k : Kind) → k.Value → List Field
  | .u64, n => [.u64 n]
  | .i64, n => [.i64 n]
  | .u32, n => [.u32 n]
  | .f64, x => [.f64 x]
  | .bool, b => [.bool b]
  | .str, s => [.str s]
  | .listLength, n => [.listLength n]
  | .f64Array, xs => [.f64Array xs]
  | .u64List, ns => u64Fields ns
  | .strList, ss => .listLength ss.length :: ss.map .str
  | .variableField, v => [.u64 v.id, .u64 v.arity]
  | .scope, s => scopeFields s
  | .assignment, a => scopeFields a.scope ++ u64Fields (a.values.map Int.ofNat)
  | .factor, f => scopeFields f.scope ++ [.f64Array f.table.toList]

end Kind

def fieldsOf (items : List Item) : List Field := items.flatMap fun i => i.1.fields i.2

/-- Every text and every table is a byte string that can be asked for at once. No byte string is
longer than the bound for files, so that one excludes no text and no table that a program holds. -/
def Held (bound : Nat) (items : List Item) : Prop :=
  ∀ f ∈ fieldsOf items, ∀ n ∈ f.payload?, n < bound

instance (bound : Nat) (items : List Item) : Decidable (Held bound items) :=
  inferInstanceAs (Decidable (∀ f ∈ fieldsOf items, ∀ n ∈ f.payload?, n < bound))

def writeFields (fs : List Field) : Written := Written.concat (fs.map Field.write)

theorem Written.concat_append (vs ws : List Written) :
    Written.concat (vs ++ ws) = Written.concat vs ++ Written.concat ws := by
  induction vs with
  | nil => exact (Written.empty_append _).symm
  | cons v vs ih =>
    rw [List.cons_append, Written.concat, Written.concat, ih, Written.append_assoc]

theorem writeFields_append (fs gs : List Field) :
    writeFields (fs ++ gs) = writeFields fs ++ writeFields gs := by
  rw [writeFields, List.map_append, Written.concat_append]
  rfl

theorem writeFields_singleton (f : Field) : writeFields [f] = f.write := Written.append_empty _

theorem writeFields_cons (f : Field) (fs : List Field) :
    writeFields (f :: fs) = f.write ++ writeFields fs := rfl

theorem writeFields_flatMap {α : Type} {write : α → Written} {fields : α → List Field}
    (h : ∀ a, write a = writeFields (fields a)) (xs : List α) :
    Written.concat (xs.map write) = writeFields (xs.flatMap fields) := by
  induction xs with
  | nil => rfl
  | cons x xs ih =>
    rw [List.flatMap_cons, writeFields_append, ← h, ← ih]
    rfl

theorem u64List_eq (ns : List Int) : u64List ns = writeFields (Kind.u64Fields ns) := by
  rw [Kind.u64Fields, writeFields_cons, writeFields, List.map_map]
  rfl

theorem scope_eq (s : Scope) : scope s = writeFields (Kind.scopeFields s) := by
  have h : ∀ v : Variable, variableField v = writeFields [.u64 v.id, .u64 v.arity] := fun v => by
    rw [writeFields_cons, writeFields_singleton]
    rfl
  rw [Kind.scopeFields, writeFields_cons, ← writeFields_flatMap h]
  rfl

theorem Kind.write_eq (k : Kind) (a : k.Value) : k.write a = writeFields (k.fields a) := by
  cases k with
  | u64 | i64 | u32 | f64 | bool | str | listLength | f64Array =>
    rw [Kind.fields, writeFields_singleton]
    rfl
  | u64List => exact u64List_eq a
  | strList =>
    rw [Kind.fields, writeFields_cons, writeFields, List.map_map]
    rfl
  | variableField =>
    rw [Kind.fields, writeFields_cons, writeFields_singleton]
    rfl
  | scope => exact scope_eq a
  | assignment =>
    rw [Kind.fields, writeFields_append, ← scope_eq, ← u64List_eq]
    rfl
  | factor =>
    rw [Kind.fields, writeFields_append, ← scope_eq, writeFields_singleton]
    rfl

theorem writeAll_eq (items : List Item) : writeAll items = writeFields (fieldsOf items) :=
  writeFields_flatMap (fun i => i.1.write_eq i.2) items

theorem fault_unsigned {t : Tag} {width : Nat} {n : Int} (h : 0 ≤ n ∧ n < 256 ^ width) :
    (unsigned t width n).fault = none := by
  rw [unsigned, if_pos h]
  rfl

theorem Field.fault_write {f : Field} (h : f.InRange) : f.write.fault = none := by
  cases f with
  | u64 n | u32 n | listLength n => exact fault_unsigned h
  | i64 n =>
    have hn : -2 ^ 63 ≤ n ∧ n < 2 ^ 63 := h
    rw [Field.write, Archive.i64, if_pos hn]
    rfl
  | f64 | bool => rfl
  | str s =>
    rw [Field.write, Archive.str, counted_of_lt h]
    rfl
  | f64Array xs =>
    rw [Field.write, Archive.f64Array, counted_of_lt h]
    rfl

theorem counted_of_not_lt {t : Tag} {n : Nat} (h : ¬ n < 2 ^ 64) (payload : List UInt8) :
    counted t n payload = .refused .integerRange := by
  have hn : ¬ (0 ≤ (n : Int) ∧ (n : Int) < 256 ^ 8) := fun hn => h (by exact_mod_cast hn.2)
  rw [counted, unsigned, if_neg hn]
  rfl

/-- Nothing of a field is written if its number is out of range, not even the tag. -/
theorem Field.write_of_not_inRange {f : Field} (h : ¬ f.InRange) :
    f.write = .refused .integerRange := by
  cases f with
  | u64 n | u32 n | i64 n | listLength n => exact if_neg h
  | f64 | bool => exact absurd trivial h
  | str s => exact counted_of_not_lt h _
  | f64Array xs => exact counted_of_not_lt h _

theorem writeFields_eq (fs : List Field) :
    writeFields fs = ⟨(fs.takeWhile (·.InRange)).flatMap (·.write.bytes),
      if ∀ f ∈ fs, f.InRange then none else some .integerRange⟩ := by
  induction fs with
  | nil => rfl
  | cons f fs ih =>
    rw [writeFields_cons]
    by_cases hf : f.InRange
    · rw [Written.append_of_complete (Field.fault_write hf), ih]
      simp [hf]
    · rw [Field.write_of_not_inRange hf, List.takeWhile_cons_of_neg (by simpa using hf)]
      simp [hf, Written.refused]
      rfl

section Reading

variable {bound : Nat}

theorem inRange_scopeFields {s : Scope} (h : ∀ f ∈ Kind.scopeFields s, f.InRange) :
    s.Storable := by
  simp only [Kind.scopeFields, List.mem_cons, List.mem_flatMap, forall_eq_or_imp] at h
  refine ⟨word_natCast.1 h.1, fun v hv => ⟨word_natCast.1 (h.2 (.u64 v.id) ⟨v, hv, .inl rfl⟩),
    word_natCast.1 (h.2 (.u64 v.arity) ⟨v, hv, .inr (.inl rfl)⟩)⟩⟩

theorem readsBack_word {t : Tag} {width : Nat} {n : Int} (h : 0 ≤ n ∧ n < 256 ^ width) :
    ReadsBack bound (unsigned t width n)
      ((Reader.expect t >>= fun _ => Reader.number width) >>= fun k => pure (k : Int)) n := by
  obtain ⟨m, rfl⟩ := Int.eq_ofNat_of_zero_le h.1
  have hm : m < 256 ^ width := by exact_mod_cast h.2
  rw [unsigned_natCast hm]
  exact (ReadsBack.field t (start_number hm)).last (.pure (m : Int))

theorem readsBack_words {ns : List Int} (h : ∀ f ∈ Kind.u64Fields ns, f.InRange) :
    ReadsBack bound (u64List ns) (Reader.u64List >>= fun ks => pure (ks.map Int.ofNat)) ns := by
  simp only [Kind.u64Fields, List.mem_cons, List.mem_map, forall_eq_or_imp] at h
  have hn : ∀ n ∈ ns, Word n := fun n hn => h.2 (.u64 n) ⟨n, hn, rfl⟩
  obtain ⟨ks, rfl⟩ : ∃ ks : List Nat, ns = ks.map Int.ofNat :=
    ⟨_, (map_ofNat_toNat fun n hm => (hn n hm).1).symm⟩
  refine (readsBack_u64List (by simpa using word_natCast.1 h.1) fun k hk => ?_).last (.pure _)
  exact word_natCast.1 (hn k (List.mem_map_of_mem hk))

theorem Kind.readsBack (hb : bound ≤ countBound) (k : Kind) (a : k.Value)
    (hr : ∀ f ∈ k.fields a, f.InRange) (hh : ∀ f ∈ k.fields a, ∀ n ∈ f.payload?, n < bound) :
    ReadsBack bound (k.write a) k.read a := by
  cases k with
  | u64 | u32 | listLength => exact readsBack_word (hr _ List.mem_cons_self)
  | i64 =>
    have hn : -2 ^ 63 ≤ a ∧ a < 2 ^ 63 := hr _ List.mem_cons_self
    exact readsBack_i64 hn.1 hn.2
  | f64 => exact readsBack_f64 a
  | bool => exact readsBack_bool a
  | str => exact readsBack_str hb (hh _ List.mem_cons_self _ rfl)
  | f64Array => exact readsBack_f64Array hb (hh _ List.mem_cons_self _ rfl)
  | u64List => exact readsBack_words hr
  | strList =>
    refine readsBack_strList hb (word_natCast.1 (hr _ List.mem_cons_self)) fun s hs => ?_
    exact hh (.str s) (List.mem_cons_of_mem _ (List.mem_map_of_mem hs)) _ rfl
  | variableField =>
    exact readsBack_variableField ⟨word_natCast.1 (hr (.u64 a.id) List.mem_cons_self),
      word_natCast.1 (hr (.u64 a.arity) (List.mem_cons_of_mem _ List.mem_cons_self))⟩
  | scope => exact readsBack_scope (inRange_scopeFields hr)
  | assignment =>
    exact readsBack_assignment (inRange_scopeFields fun f hf => hr f (List.mem_append_left _ hf))
  | factor =>
    have hs := inRange_scopeFields fun f hf => hr f (List.mem_append_left _ hf)
    have ht := hh _ (List.mem_append_right _ List.mem_cons_self) _ rfl
    exact readsBack_factor hb ⟨hs, by simpa using ht⟩

theorem Kind.mirrors (k : Kind) (a : k.Value) : Mirrors bound (k.write a) k.read (· = a) := by
  cases k with
  | u64 | u32 | listLength => exact (mirrors_unsigned _ _ a).last fun n hn => .pure hn
  | i64 => exact mirrors_i64 a
  | f64 => exact .of_readsBack (readsBack_f64 a)
  | bool => exact .of_readsBack (readsBack_bool a)
  | str => exact mirrors_str a
  | f64Array => exact mirrors_f64Array a
  | u64List => exact (mirrors_u64List a).last fun ns hns => .pure hns
  | strList => exact mirrors_strList a
  | variableField => exact mirrors_variableField a
  | scope => exact mirrors_scope a
  | assignment => exact mirrors_assignment a
  | factor => exact mirrors_factor a

theorem readsBack_items (hb : bound ≤ countBound) {items : List Item}
    (hr : ∀ f ∈ fieldsOf items, f.InRange) (hh : Held bound items) :
    ReadsBack bound (writeAll items) (readAll (items.map (·.1))) items := by
  induction items with
  | nil => exact .pure []
  | cons i items ih =>
    have hhead := Kind.readsBack hb i.1 i.2 (fun f hf => hr f (List.mem_append_left _ hf))
      fun f hf => hh f (List.mem_append_left _ hf)
    have htail := ih (fun f hf => hr f (List.mem_append_right _ hf))
      fun f hf => hh f (List.mem_append_right _ hf)
    exact hhead.bind (htail.last (.pure _))

theorem mirrors_items (items : List Item) :
    Mirrors bound (writeAll items) (readAll (items.map (·.1))) (· = items) := by
  induction items with
  | nil => exact .pure rfl
  | cons i items ih =>
    refine (i.1.mirrors i.2).bind fun a ha => ih.last fun rest hrest => .pure ?_
    rw [ha, hrest]

theorem recovers_items (items : List Item) :
    Recovers bound (writeAll items) (readAll (items.map (·.1))) (· = items) :=
  (mirrors_items items).recovers

end Reading

/-- Items are read back as they were written, whatever follows them, and a number out of range ends
the writing with the fields before it. -/
theorem readAll_writeAll (items : List Item) :
    ((writeAll items).fault = none → ∀ bound ≤ countBound, Held bound items → ∀ rest,
      (readAll (items.map (·.1))).start bound ((writeAll items).bytes ++ rest) =
        (.ok items, rest)) ∧
    ((writeAll items).fault = none → ∀ bound rest read left,
      (readAll (items.map (·.1))).start bound ((writeAll items).bytes ++ rest) =
        (.ok read, left) → read = items ∧ left = rest) ∧
    writeAll items = ⟨((fieldsOf items).takeWhile (·.InRange)).flatMap (·.write.bytes),
      if ∀ f ∈ fieldsOf items, f.InRange then none else some .integerRange⟩ := by
  have hwritten := (writeAll_eq items).trans (writeFields_eq (fieldsOf items))
  refine ⟨fun hw bound hb hh => ?_, fun hw bound rest => recovers_items items hw rest, hwritten⟩
  have hr : ∀ f ∈ fieldsOf items, f.InRange := by
    by_contra hr
    rw [hwritten, if_neg hr] at hw
    exact nomatch hw
  exact (readsBack_items hb hr hh).start

/-- An item of every kind, the numbers as great or as small as they can be. -/
def limitItems : List Item :=
  let v := Variable.upTo 0 1
  [⟨.u64, 2 ^ 64 - 1⟩, ⟨.i64, -2 ^ 63⟩, ⟨.i64, 2 ^ 63 - 1⟩, ⟨.u32, 2 ^ 32 - 1⟩, ⟨.f64, .zero⟩,
    ⟨.bool, true⟩, ⟨.str, "é"⟩, ⟨.listLength, 2 ^ 64 - 1⟩, ⟨.f64Array, [.zero]⟩,
    ⟨.u64List, [0, 2 ^ 64 - 1]⟩, ⟨.strList, ["", "x"]⟩, ⟨.variableField, v⟩,
    ⟨.scope, Scope.single v⟩, ⟨.assignment, Assignment.first (Scope.single v)⟩,
    ⟨.factor, Factor.zero (Scope.single v)⟩]

theorem readAll_writeAll_limits :
    ((writeAll limitItems).fault = none ∧ Held fileCountBound limitItems ∧ ∀ rest,
      (readAll (limitItems.map (·.1))).start fileCountBound
        ((writeAll limitItems).bytes ++ rest) = (.ok limitItems, rest)) ∧
    writeAll [⟨.bool, true⟩, ⟨.u64List, [2 ^ 64, 0]⟩] =
      ⟨[5, 1, 7, 2, 0, 0, 0, 0, 0, 0, 0], some .integerRange⟩ := by
  have hw : (writeAll limitItems).fault = none := by decide +kernel
  have hh : Held fileCountBound limitItems := by decide +kernel
  refine ⟨⟨hw, hh, (readAll_writeAll limitItems).1 hw fileCountBound (by decide) hh⟩, ?_⟩
  exact (readAll_writeAll _).2.2.trans (by decide +kernel)

end FactorForest.Archive
