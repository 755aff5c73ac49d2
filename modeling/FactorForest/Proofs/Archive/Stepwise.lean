import FactorForest.Proofs.Archive.Runs

set_option autoImplicit false

namespace FactorForest

def Tag.unitBytes? : Tag → Option Nat
  | .str => some 1
  | .f64Array => some 8
  | _ => none

namespace Archive

/-- A reader made of steps. It gives up with a fault of the archive, but for a payload whose own
count asks for too many bytes. -/
inductive Stepwise : {α : Type} → Reader α → Prop
  | pure {α : Type} (a : α) : Stepwise (pure a)
  | throw {α : Type} {e : Fault} (he : e.kind = .archive) : Stepwise (throw e : Reader α)
  | take (n : Nat) : Stepwise (Reader.take n)
  | counted {α : Type} {t : Tag} {unit : Nat} (ht : t.unitBytes? = some unit)
      {f : List UInt8 → Reader α} (hf : ∀ payload, Stepwise (f payload)) :
      Stepwise (Reader.expect t >>= fun _ => Reader.number 8 >>= fun n =>
        Reader.payload (n * unit) >>= f)
  | bind {α β : Type} {r : Reader α} {f : α → Reader β} (hr : Stepwise r)
      (hf : ∀ a, Stepwise (f a)) : Stepwise (r >>= f)

namespace Stepwise

variable {α : Type}

theorem checked (x : Except Fault α) : Stepwise (Reader.checked x) := by
  cases x with
  | ok a => exact pure a
  | error e => exact throw rfl

theorem guarded {c : Prop} [Decidable c] {e : Fault} {next : Unit → Reader α}
    (he : e.kind = .archive) (h : Stepwise (next ())) :
    Stepwise (if c then MonadExcept.throw e >>= next else next ()) := by
  split
  · exact (throw he : Stepwise (MonadExcept.throw e : Reader Unit)).bind fun _ => h
  · exact h

theorem times {r : Reader α} (h : Stepwise r) (n : Nat) : Stepwise (Reader.times r n) := by
  induction n with
  | zero => exact pure []
  | succ n ih => exact h.bind fun a => ih.bind fun as => pure (a :: as)

end Stepwise

theorem stepwise_number (width : Nat) : Stepwise (Reader.number width) :=
  (Stepwise.take width).bind fun _ => .pure _

theorem stepwise_expect (t : Tag) : Stepwise (Reader.expect t) :=
  (stepwise_number 1).bind fun _ => .guarded rfl (.pure ())

theorem stepwise_u64 : Stepwise Reader.u64 := (stepwise_expect .u64).bind fun _ => stepwise_number 8

theorem stepwise_u32 : Stepwise Reader.u32 := (stepwise_expect .u32).bind fun _ => stepwise_number 4

theorem stepwise_i64 : Stepwise Reader.i64 :=
  (stepwise_expect .i64).bind fun _ => (stepwise_number 8).bind fun _ => .pure _

theorem stepwise_f64 : Stepwise Reader.f64 :=
  (stepwise_expect .f64).bind fun _ => (stepwise_number 8).bind fun _ => .pure _

theorem stepwise_bool : Stepwise Reader.bool := by
  refine (stepwise_expect .bool).bind fun _ => (Stepwise.take 1).bind fun bytes => ?_
  split
  · exact .pure false
  · exact .pure true
  · exact .throw rfl

theorem stepwise_listLength : Stepwise Reader.listLength :=
  (stepwise_expect .list).bind fun _ => stepwise_number 8

theorem stepwise_str : Stepwise Reader.str := by
  have hdecoded : ∀ bytes, Stepwise (Reader.decoded bytes) := by
    intro bytes
    unfold Reader.decoded
    split
    · exact .pure _
    · exact .throw rfl
  have h := Stepwise.counted (show Tag.str.unitBytes? = some 1 from rfl) hdecoded
  simp only [Nat.mul_one] at h
  exact h

theorem stepwise_f64Array : Stepwise Reader.f64Array :=
  .counted rfl fun bytes => .pure (Reader.doubles bytes)

theorem stepwise_list {α : Type} {r : Reader α} (h : Stepwise r) : Stepwise (Reader.list r) :=
  stepwise_listLength.bind fun n => h.times n

theorem stepwise_u64List : Stepwise Reader.u64List := stepwise_list stepwise_u64

theorem stepwise_strList : Stepwise Reader.strList := stepwise_list stepwise_str

theorem stepwise_variableField : Stepwise Reader.variableField :=
  stepwise_u64.bind fun _ => stepwise_u64.bind fun _ => .checked _

theorem stepwise_scope : Stepwise Reader.scope :=
  (stepwise_list stepwise_variableField).bind fun _ => .checked _

theorem stepwise_assignment : Stepwise Reader.assignment :=
  stepwise_scope.bind fun _ => stepwise_u64List.bind fun _ => .checked _

theorem stepwise_factor : Stepwise Reader.factor :=
  stepwise_scope.bind fun _ => stepwise_f64Array.bind fun _ => .checked _

theorem stepwise_header : Stepwise Reader.header :=
  (Stepwise.take _).bind fun _ =>
    .guarded rfl ((stepwise_number 4).bind fun _ => .guarded rfl (.pure _))

end Archive
end FactorForest
