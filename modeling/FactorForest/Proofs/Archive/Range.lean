import FactorForest.Proofs.Archive.Runs
import FactorForest.Proofs.Archive.Storable

set_option autoImplicit false

namespace FactorForest.Archive

variable {bound : Nat}

theorem yields_number (width : Nat) : Yields bound (Reader.number width) (· < 256 ^ width) :=
  fun _ _ _ h => (Reader.start_number_eq_ok_iff.1 h).1

theorem yields_u64 : Yields bound Reader.u64 (· < 2 ^ 64) := .after fun _ => yields_number 8

theorem yields_i64 : Yields bound Reader.i64 fun n => -2 ^ 63 ≤ n ∧ n < 2 ^ 63 := by
  refine .after fun _ => (yields_number 8).bind fun n hn => .pure ?_
  split <;> omega

theorem yields_listLength : Yields bound Reader.listLength (· < 2 ^ 64) :=
  .after fun _ => yields_number 8

theorem yields_payload (n : Nat) :
    Yields bound (Reader.payload n) fun bytes => bytes.length = n ∧ n < bound := by
  intro bytes front rest h
  obtain ⟨hn, hl, -⟩ := Reader.start_payload_eq_ok_iff.1 h
  exact ⟨hl, hn⟩

theorem yields_str : Yields bound Reader.str fun s => (Text.Utf8.encode s).length < bound := by
  refine .after fun _ => .after fun n => (yields_payload n).bind fun bytes ⟨hl, hn⟩ => ?_
  split
  · rename_i cs hcs
    exact .pure ((Text.Utf8.length_encode_le hcs).trans_lt (hl.trans_lt hn))
  · exact fun _ _ _ h => nomatch h

theorem length_doubles_le (bytes : List UInt8) :
    (Reader.doubles bytes).length * 8 ≤ bytes.length := by
  fun_induction Reader.doubles bytes with
  | case1 a b c d e f g h rest ih =>
    simp only [List.length_cons]
    omega
  | case2 => simp

theorem yields_f64Array : Yields bound Reader.f64Array fun xs => xs.length * 8 < bound := by
  refine .after fun _ => .after fun n => (yields_payload _).bind fun bytes ⟨hl, hn⟩ => .pure ?_
  exact (length_doubles_le bytes).trans_lt (hl.trans_lt hn)

theorem yields_times {α : Type} {r : Reader α} {P : α → Prop} (h : Yields bound r P) (n : Nat) :
    Yields bound (Reader.times r n) fun as => as.length = n ∧ ∀ a ∈ as, P a := by
  induction n with
  | zero => exact .pure ⟨rfl, fun a ha => absurd ha List.not_mem_nil⟩
  | succ n ih =>
    refine h.bind fun a ha => ih.bind fun as ⟨hl, has⟩ => .pure ⟨congrArg (· + 1) hl, ?_⟩
    simpa using ⟨ha, has⟩

theorem yields_list {α : Type} {r : Reader α} {P : α → Prop} (h : Yields bound r P) :
    Yields bound (Reader.list r) fun as => as.length < 2 ^ 64 ∧ ∀ a ∈ as, P a := by
  refine yields_listLength.bind fun n hn => (yields_times h n).mono fun as ⟨hl, has⟩ => ?_
  exact ⟨hl.trans_lt hn, has⟩

theorem yields_variableField : Yields bound Reader.variableField Variable.Storable := by
  refine yields_u64.bind fun id hid => yields_u64.bind fun arity harity => .checked fun v hv => ?_
  obtain ⟨h, h'⟩ := Variable.of_ofInts hv
  unfold Variable.Storable
  omega

theorem yields_scope : Yields bound Reader.scope Scope.Storable := by
  refine (yields_list yields_variableField).bind fun vs ⟨hl, hvs⟩ => .checked fun s hs => ?_
  have hperm := Variable.sortById_perm vs
  have hvars := Scope.vars_of_ofList hs
  constructor
  · rw [hvars, hperm.length_eq]
    exact hl
  · intro v hv
    rw [hvars, hperm.mem_iff] at hv
    exact hvs v hv

theorem yields_assignment : Yields bound Reader.assignment Assignment.Storable := by
  refine yields_scope.bind fun s hs => .after fun xs => .checked fun a ha => ?_
  unfold Assignment.Storable
  exact Assignment.scope_of_ofValues ha ▸ hs

theorem yields_factor : Yields bound Reader.factor (Factor.Storable bound) := by
  refine yields_scope.bind fun s hs => yields_f64Array.bind fun xs hxs => .checked fun f hf => ?_
  obtain ⟨hscope, htable⟩ := Factor.of_ofTable hf
  unfold Factor.Storable
  rw [hscope, htable, List.size_toArray]
  exact ⟨hs, hxs⟩

end FactorForest.Archive
