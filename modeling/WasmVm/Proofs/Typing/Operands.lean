/-
Operands of the right types.  Taking values off a stack whose types are known
does not go wrong, and a numeric operation then leaves a value of its result type
or traps for a reason that types say nothing about.
-/
import WasmVm.Proofs.Typing.Rules

namespace WasmVm

/-- Whether a trap is one that typing rules out: a value is missing, has the wrong
type, or a branch leads nowhere. -/
def Trap.Stuck (t : Trap) : Prop :=
  t.code = .stackUnderflow ∨ t.code = .typeMismatch ∨ t.code = .invalidBranch

instance (t : Trap) : Decidable t.Stuck :=
  inferInstanceAs (Decidable (_ ∨ _ ∨ _))

/-- The computation does not get stuck, and what it returns meets `post`. -/
def Sound {α : Type} (post : α → Prop) : Except Trap α → Prop
  | .ok a => post a
  | .error t => ¬ t.Stuck

namespace Sound

variable {α β : Type}

theorem bind {P : α → Prop} {Q : β → Prop} {x : Except Trap α}
    {next : α → Except Trap β} (hx : Sound P x) (hnext : ∀ a, P a → Sound Q (next a)) :
    Sound Q (x >>= next) := by
  cases x with
  | ok a => exact hnext a hx
  | error t => exact hx

theorem map {P : α → Prop} {Q : β → Prop} {x : Except Trap α} {f : α → β}
    (hx : Sound P x) (hf : ∀ a, P a → Q (f a)) : Sound Q (f <$> x) := by
  cases x with
  | ok a => exact hf a hx
  | error t => exact hx

/-- A trap of another class is sound whatever is wanted of the result. -/
theorem throw {P : α → Prop} {t : Trap} (h : ¬ t.Stuck) :
    Sound P (throw t : Except Trap α) :=
  h

end Sound

/-- The types of the values on a stack. -/
def Stack.types (s : Stack) : StackType :=
  s.map Value.type

namespace Stack

@[simp] theorem types_nil : types [] = [] := rfl

@[simp] theorem types_cons (v : Value) (s : Stack) :
    types (v :: s) = v.type :: s.types := rfl

@[simp] theorem types_append (s t : Stack) : types (s ++ t) = s.types ++ t.types :=
  List.map_append

@[simp] theorem length_types (s : Stack) : s.types.length = s.length :=
  List.length_map _

theorem types_drop (n : Nat) (s : Stack) : types (s.drop n) = s.types.drop n :=
  List.map_drop

@[simp] theorem types_pushMany (values : List Value) (s : Stack) :
    (s.pushMany values).types = (values.map Value.type).reverse ++ s.types := by
  simp [pushMany, types]

end Stack

namespace Value

/-- An `i32` operand of the right type can be read. -/
theorem asI32_sound {v : Value} (h : v.type = .i32) :
    Sound (fun _ => True) v.asI32 := by
  cases v <;> first | exact trivial | cases h

theorem asI64_sound {v : Value} (h : v.type = .i64) :
    Sound (fun _ => True) v.asI64 := by
  cases v <;> first | exact trivial | cases h

theorem asF32_sound {v : Value} (h : v.type = .f32) :
    Sound (fun _ => True) v.asF32 := by
  cases v <;> first | exact trivial | cases h

theorem asF64_sound {v : Value} (h : v.type = .f64) :
    Sound (fun _ => True) v.asF64 := by
  cases v <;> first | exact trivial | cases h

theorem asInt_sound {w : Width} {v : Value} (h : v.type = w.intType) :
    Sound (fun _ => True) (v.asInt w) := by
  cases w with
  | w32 => exact asI32_sound h
  | w64 => exact asI64_sound h

theorem asFloat_sound {w : Width} {v : Value} (h : v.type = w.floatType) :
    Sound (fun _ => True) (v.asFloat w) := by
  cases w with
  | w32 => exact asF32_sound h
  | w64 => exact asF64_sound h

@[simp] theorem type_int (w : Width) (v : BitVec w.bits) :
    (int w v).type = w.intType := by
  cases w <;> rfl

@[simp] theorem type_float (w : Width) (v : BitVec w.bits) :
    (float w v).type = w.floatType := by
  cases w <;> rfl

@[simp] theorem type_ofBool (b : Bool) : (ofBool b).type = .i32 := rfl

end Value

namespace Stack

variable {s : Stack} {t : ValType} {types : StackType}

theorem pop_sound (h : s.types = t :: types) :
    Sound (fun r => r.1.type = t ∧ r.2.types = types) s.pop := by
  cases s with
  | nil => simp at h
  | cons v rest =>
      simp only [types_cons, List.cons.injEq] at h
      exact h

theorem popI32_sound (h : s.types = .i32 :: types) :
    Sound (fun r => r.2.types = types) s.popI32 := by
  apply (pop_sound h).bind
  rintro ⟨v, rest⟩ ⟨hv, hrest⟩
  exact (Value.asI32_sound hv).bind fun _ _ => hrest

theorem popCondition_sound (h : s.types = .i32 :: types) :
    Sound (fun r => r.2.types = types) s.popCondition := by
  apply (pop_sound h).bind
  rintro ⟨v, rest⟩ ⟨hv, hrest⟩
  refine Sound.bind (P := fun _ => True) ?_ fun _ _ => hrest
  exact (Value.asI32_sound hv).bind fun _ _ => trivial

/-- Popping as many values as a list of types has splits the stack there. -/
theorem popMany_sound {above below : StackType} (h : s.types = above ++ below) :
    Sound (fun r => r.1.map Value.type = above.reverse ∧ r.2.types = below)
      (s.popMany above.length) := by
  have hlength : ¬ s.length < above.length := by
    have := congrArg List.length h
    simp only [length_types, List.length_append] at this
    omega
  rw [popMany, if_neg hlength]
  refine ⟨?_, ?_⟩
  · have htake : s.types.take above.length = above := by simp [h]
    simpa [Stack.types, List.map_reverse] using congrArg List.reverse htake
  · rw [types_drop, h]
    simp

/-! What follows a pop may rely on the types of what was popped and of the rest. -/

theorem pop_bind {α : Type} {post : α → Prop} {next : Value × Stack → Except Trap α}
    (h : s.types = t :: types)
    (hnext : ∀ v rest, v.type = t → Stack.types rest = types →
      Sound post (next (v, rest))) :
    Sound post (s.pop >>= next) :=
  (pop_sound h).bind fun r hr => hnext r.1 r.2 hr.1 hr.2

theorem popI32_bind {α : Type} {post : α → Prop}
    {next : BitVec 32 × Stack → Except Trap α} (h : s.types = .i32 :: types)
    (hnext : ∀ v rest, Stack.types rest = types → Sound post (next (v, rest))) :
    Sound post (s.popI32 >>= next) :=
  (popI32_sound h).bind fun r hr => hnext r.1 r.2 hr

theorem popCondition_bind {α : Type} {post : α → Prop}
    {next : Bool × Stack → Except Trap α} (h : s.types = .i32 :: types)
    (hnext : ∀ b rest, Stack.types rest = types → Sound post (next (b, rest))) :
    Sound post (s.popCondition >>= next) :=
  (popCondition_sound h).bind fun r hr => hnext r.1 r.2 hr

theorem unary_sound {α : Type} {get : Value → Except Trap α} {f : α → Except Trap Value}
    {t result : ValType} (hget : ∀ v, v.type = t → Sound (fun _ => True) (get v))
    (hf : ∀ a, Sound (fun v => v.type = result) (f a)) (h : s.types = t :: types) :
    Sound (fun r => r.types = result :: types) (s.unary get f) := by
  apply pop_bind h
  intro v rest hv hrest
  apply (hget v hv).bind
  intro a _
  exact (hf a).bind fun r hr => by simp [Sound, pure, Except.pure, hr, hrest]

theorem binary_sound {α : Type} {get : Value → Except Trap α}
    {f : α → α → Except Trap Value} {t result : ValType}
    (hget : ∀ v, v.type = t → Sound (fun _ => True) (get v))
    (hf : ∀ a b, Sound (fun v => v.type = result) (f a b))
    (h : s.types = t :: t :: types) :
    Sound (fun r => r.types = result :: types) (s.binary get f) := by
  apply pop_bind h
  intro v rest hv hrest
  apply (hget v hv).bind
  intro b _
  apply pop_bind hrest
  intro u rest hu hrest
  apply (hget u hu).bind
  intro a _
  exact (hf a b).bind fun r hr => by simp [Sound, pure, Except.pure, hr, hrest]

end Stack

/-- Integer arithmetic traps only where it has no result. -/
theorem IntBinary.apply_sound (w : Width) (op : IntBinary) (a b : BitVec w.bits) :
    Sound (fun _ => True) (op.apply w a b) := by
  have hzero : ∀ op, ¬ (Trap.divisionByZero w op).Stuck :=
    fun _ => by simp [Trap.Stuck, Trap.code]
  have hover : ¬ (Trap.divisionOverflow w).Stuck := by simp [Trap.Stuck, Trap.code]
  unfold IntBinary.apply
  split
  all_goals first | exact trivial | skip
  · split
    · exact hzero _
    · split
      · exact hover
      · exact trivial
  all_goals
    split
    · exact hzero _
    · exact trivial

/-- Truncation traps only for a number that is none or does not fit. -/
theorem truncateFloat_sound (source target : Width) (sign : Sign)
    (a : BitVec source.bits) :
    Sound (fun _ => True) (truncateFloat source target sign a) := by
  have hrange : ∀ bits, ¬ (Trap.outOfRange bits target sign).Stuck :=
    fun _ => by simp [Trap.Stuck, Trap.code]
  have hnan : ¬ Trap.notANumber.Stuck := by simp [Trap.Stuck, Trap.code]
  unfold truncateFloat
  split
  · exact hnan
  · split
    · exact hrange _
    · split
      · exact trivial
      · exact hrange _

/-- A numeric operation on operands of its types leaves a value of its result
type. -/
theorem NumOp.apply_sound (op : NumOp) {s : Stack} {types : StackType}
    (h : s.types = op.operands ++ types) :
    Sound (fun r => r.types = op.result :: types) (op.apply s) := by
  cases op with
  | eqz w => exact Stack.unary_sound (fun _ => Value.asInt_sound) (fun _ =>
      Value.type_ofBool _) h
  | intCompare w op =>
      exact Stack.binary_sound (fun _ => Value.asInt_sound)
        (fun _ _ => Value.type_ofBool _) h
  | floatCompare w op =>
      exact Stack.binary_sound (fun _ => Value.asFloat_sound)
        (fun _ _ => Value.type_ofBool _) h
  | intUnary w op =>
      exact Stack.unary_sound (fun _ => Value.asInt_sound)
        (fun _ => Value.type_int w _) h
  | intBinary w op =>
      exact Stack.binary_sound (fun _ => Value.asInt_sound)
        (fun a b => (IntBinary.apply_sound w op a b).map fun _ _ =>
          Value.type_int w _) h
  | floatUnary w op =>
      exact Stack.unary_sound (fun _ => Value.asFloat_sound)
        (fun _ => Value.type_float w _) h
  | floatBinary w op =>
      exact Stack.binary_sound (fun _ => Value.asFloat_sound)
        (fun _ _ => Value.type_float w _) h
  | wrap => exact Stack.unary_sound (fun _ => Value.asI64_sound) (fun _ => rfl) h
  | extend sign =>
      cases sign <;> exact Stack.unary_sound (fun _ => Value.asI32_sound)
        (fun _ => rfl) h
  | truncate target source sign =>
      exact Stack.unary_sound (fun _ => Value.asFloat_sound)
        (fun a => (truncateFloat_sound source target sign a).map
          fun _ _ => Value.type_int target _) h
  | truncateSat target source sign =>
      exact Stack.unary_sound (fun _ => Value.asFloat_sound)
        (fun _ => Value.type_int target _) h
  | convert target source sign =>
      exact Stack.unary_sound (fun _ => Value.asInt_sound)
        (fun _ => Value.type_float target _) h
  | demote => exact Stack.unary_sound (fun _ => Value.asF64_sound) (fun _ => rfl) h
  | promote => exact Stack.unary_sound (fun _ => Value.asF32_sound) (fun _ => rfl) h
  | reinterpretFloat w =>
      exact Stack.unary_sound (fun _ => Value.asFloat_sound)
        (fun _ => Value.type_int w _) h
  | reinterpretInt w =>
      exact Stack.unary_sound (fun _ =>
        Value.asInt_sound) (fun _ => Value.type_float w _) h
  | signExtend32 p => exact Stack.unary_sound (fun _ =>
      Value.asI32_sound) (fun _ => rfl) h
  | signExtend64 p =>
      exact Stack.unary_sound (fun _ => Value.asI64_sound) (fun _ => rfl) h

/-- A load gives a value of its type, whatever the bytes are. -/
@[simp] theorem LoadOp.type_value (op : LoadOp) (raw : Nat) :
    (op.value raw).type = op.type := by
  rcases op with t | ⟨p, s⟩ | ⟨p, s⟩
  · cases t <;> rfl
  · cases s <;> rfl
  · cases s <;> rfl

/-- A value of a store's type can be encoded. -/
theorem StoreOp.encode_sound (op : StoreOp) {v : Value} (h : v.type = op.type) :
    Sound (fun _ => True) (op.encode v) := by
  refine Sound.map (P := fun _ => True) ?_ fun _ _ => trivial
  rcases op with t | p | p
  · cases t
    · exact (Value.asI32_sound h).map fun _ _ => trivial
    · exact (Value.asI64_sound h).map fun _ _ => trivial
    · exact (Value.asF32_sound h).map fun _ _ => trivial
    · exact (Value.asF64_sound h).map fun _ _ => trivial
  · exact (Value.asI32_sound h).map fun _ _ => trivial
  · exact (Value.asI64_sound h).map fun _ _ => trivial

end WasmVm
