/-
Integer operations on the stack.  The rules tell which operands give which result, and
which stacks have none; an operation does what the rules say and nothing else.
-/
import WasmVm.Proofs.Numeric.Arithmetic
import WasmVm.Proofs.Typing.Operands

namespace WasmVm

namespace NumOp

/-- Whether an operation computes with integers alone. -/
def IsInteger : NumOp → Prop
  | eqz _ | intCompare .. | intUnary .. | intBinary .. | wrap |
      extend _ | signExtend32 _
  | signExtend64 _ => True
  | _ => False

/-- What an integer operation gives for its operands, the right one first. -/
inductive Gives : NumOp → Stack → Value → Prop
  | eqz {w} (a : BitVec w.bits) : Gives (.eqz w) [.int w a] (.ofBool (a.toNat = 0))
  | compare {w op} (a b : BitVec w.bits) :
      Gives (.intCompare w op) [.int w b, .int w a]
        (.ofBool (op.relates w.bits a.toNat b.toNat))
  | count {w op} (a : BitVec w.bits) :
      Gives (.intUnary w op) [.int w a]
        (.int w (.ofNat w.bits (op.count w.bits a.toNat)))
  | compute {w op} {a b : BitVec w.bits} (hzero : ¬ op.DividesByZero b.toNat)
      (hover : ¬ op.Overflows w.bits a.toNat b.toNat) :
      Gives (.intBinary w op) [.int w b, .int w a]
        (.int w (.ofInt w.bits (op.value w.bits a.toNat b.toNat)))
  | wrap (a : BitVec 64) : Gives .wrap [.i64 a] (.i32 (.ofNat 32 a.toNat))
  | extend {s} (a : BitVec 32) : Gives (.extend s) [.i32 a]
      (.i64 (.ofInt 64 (s.read 32 a.toNat)))
  | signExtend32 {p} (a : BitVec 32) :
      Gives (.signExtend32 p) [.i32 a]
        (.i32 (.ofInt 32 (Sign.signed.read p.bits a.toNat)))
  | signExtend64 {p} (a : BitVec 64) :
      Gives (.signExtend64 p) [.i64 a]
        (.i64 (.ofInt 64 (Sign.signed.read p.bits a.toNat)))

/-- Why an integer operation has no result on a stack. -/
inductive Fails : NumOp → Stack → TrapCode → Prop
  /-- The stack ends before the operands do. -/
  | missing {op s} (hfits : s.types <+: op.operands) (hends : s.types ≠ op.operands) :
      Fails op s .stackUnderflow
  /-- Where there is an operand, the stack has a value of another type. -/
  | mistyped {op s} (hstack : ¬ s.types <+: op.operands)
      (hoperands : ¬ op.operands <+: s.types) :
      Fails op s .typeMismatch
  | zero {w op} {a b : BitVec w.bits} {rest} (hzero : op.DividesByZero b.toNat) :
      Fails (.intBinary w op) (.int w b :: .int w a :: rest) .divisionByZero
  | overflow {w op} {a b : BitVec w.bits} {rest}
      (hover : op.Overflows w.bits a.toNat b.toNat) :
      Fails (.intBinary w op) (.int w b :: .int w a :: rest) .integerOverflow

end NumOp

/-! ### Operands -/

namespace Value

@[simp] theorem asInt_int (w : Width) (a : BitVec w.bits) :
    (int w a).asInt w = .ok a := by
  cases w <;> rfl

theorem int_inj {w : Width} {a b : BitVec w.bits} : int w a = int w b ↔ a = b := by
  cases w <;> simp [int]

theorem eq_int_of_type {w : Width} {v : Value} (h : v.type = w.intType) :
    ∃ a, v = int w a := by
  cases w <;> cases v <;> cases h <;> exact ⟨_, rfl⟩

theorem asInt_of_type_ne {w : Width} {v : Value} (h : v.type ≠ w.intType) :
    v.asInt w = .error (.typeMismatch w.intType v) := by
  cases w <;> cases v <;> first | rfl | exact absurd rfl h

end Value

namespace Stack

variable {w : Width} {s : Stack}

/-- A stack holds the operands, ends before they do, or differs from them. -/
theorem cases_operands (s : Stack) (operands : StackType) :
    (∃ args rest, s = args ++ rest ∧ types args = operands) ∨
      (s.types <+: operands ∧ s.types ≠ operands) ∨
        (¬ s.types <+: operands ∧ ¬ operands <+: s.types) := by
  by_cases hoperands : operands <+: s.types
  · left
    refine ⟨s.take operands.length, s.drop operands.length,
      (List.take_append_drop ..).symm, ?_⟩
    rw [types, List.map_take]
    exact (List.prefix_iff_eq_take.mp hoperands).symm
  right
  by_cases hstack : s.types <+: operands
  · exact .inl ⟨hstack, fun heq => hoperands (heq ▸ List.prefix_refl _)⟩
  · exact .inr ⟨hstack, hoperands⟩

theorem eq_int_of_types (h : s.types = [w.intType]) : ∃ a, s = [.int w a] := by
  obtain ⟨v, rfl, hv⟩ := List.map_eq_singleton_iff.mp h
  obtain ⟨a, rfl⟩ := Value.eq_int_of_type hv
  exact ⟨a, rfl⟩

theorem eq_ints_of_types (h : s.types = [w.intType, w.intType]) :
    ∃ a b, s = [.int w b, .int w a] := by
  obtain ⟨v, rest, rfl, hv, hrest⟩ := List.map_eq_cons_iff.mp h
  obtain ⟨b, rfl⟩ := Value.eq_int_of_type hv
  obtain ⟨a, rfl⟩ := eq_int_of_types hrest
  exact ⟨a, b, rfl⟩

section

variable {f : BitVec w.bits → Except Trap Value}

theorem unary_int (a : BitVec w.bits) (rest : Stack) :
    unary (Value.asInt w) f (.int w a :: rest) = (· :: rest) <$> f a := by
  simp only [unary, pop, Value.asInt_int, bind, Except.bind]
  cases f a <;> rfl

theorem unary_missing (hfits : s.types <+: [w.intType])
    (hends : s.types ≠ [w.intType]) :
    s.unary (Value.asInt w) f = .error .emptyStack := by
  cases s with
  | nil => rfl
  | cons v rest =>
      rw [types_cons, List.cons_prefix_cons, List.prefix_nil] at hfits
      rw [types_cons, hfits.1, hfits.2] at hends
      exact absurd rfl hends

theorem unary_mistyped (hstack : ¬ s.types <+: [w.intType])
    (hoperands : ¬ [w.intType] <+: s.types) :
    ∃ v, s.unary (Value.asInt w) f = .error (.typeMismatch w.intType v) := by
  cases s with
  | nil => exact absurd List.nil_prefix hstack
  | cons v rest =>
      have hv : v.type ≠ w.intType := by
        intro hv
        rw [types_cons, hv, List.cons_prefix_cons] at hoperands
        exact hoperands ⟨rfl, List.nil_prefix⟩
      refine ⟨v, ?_⟩
      simp only [unary, pop, Value.asInt_of_type_ne hv, bind, Except.bind]

end

section

variable {f : BitVec w.bits → BitVec w.bits → Except Trap Value}

theorem binary_cons (b : BitVec w.bits) (s : Stack) :
    binary (Value.asInt w) f (.int w b :: s) = s.unary (Value.asInt w) (f · b) := by
  simp only [binary, unary, pop, Value.asInt_int, bind, Except.bind]

theorem binary_cons_of_type_ne {v : Value} (hv : v.type ≠ w.intType) (s : Stack) :
    binary (Value.asInt w) f (v :: s) = .error (.typeMismatch w.intType v) := by
  simp only [binary, pop, Value.asInt_of_type_ne hv, bind, Except.bind]

theorem binary_int (a b : BitVec w.bits) (rest : Stack) :
    binary (Value.asInt w) f (.int w b :: .int w a :: rest) = (· :: rest) <$>
      f a b := by
  rw [binary_cons, unary_int]

theorem binary_missing (hfits : s.types <+: [w.intType, w.intType])
    (hends : s.types ≠ [w.intType, w.intType]) :
    s.binary (Value.asInt w) f = .error .emptyStack := by
  cases s with
  | nil => rfl
  | cons v rest =>
      rw [types_cons, List.cons_prefix_cons] at hfits
      obtain ⟨b, rfl⟩ := Value.eq_int_of_type hfits.1
      rw [binary_cons, unary_missing hfits.2]
      intro heq
      rw [types_cons, heq, Value.type_int] at hends
      exact hends rfl

theorem binary_mistyped (hstack : ¬ s.types <+: [w.intType, w.intType])
    (hoperands : ¬ [w.intType, w.intType] <+: s.types) :
    ∃ v, s.binary (Value.asInt w) f = .error (.typeMismatch w.intType v) := by
  cases s with
  | nil => exact absurd List.nil_prefix hstack
  | cons v rest =>
      by_cases hv : v.type = w.intType
      · obtain ⟨b, rfl⟩ := Value.eq_int_of_type hv
        rw [types_cons, hv, List.cons_prefix_cons] at hstack hoperands
        rw [binary_cons]
        exact unary_mistyped (fun h => hstack ⟨rfl, h⟩) (fun h => hoperands ⟨rfl, h⟩)
      · exact ⟨v, binary_cons_of_type_ne hv rest⟩

end

end Stack

namespace NumOp

variable {op : NumOp} {s : Stack}

theorem Gives.types {args : Stack} {v : Value} (h : op.Gives args v) :
    Stack.types args = op.operands ∧ v.type = op.result := by
  cases h with
  | eqz | compare | count | compute =>
      simp only [Stack.types_cons, Value.type_int, Value.type_ofBool]
      exact ⟨rfl, rfl⟩
  | wrap | extend | signExtend32 | signExtend64 => exact ⟨rfl, rfl⟩

/-- An operation pushes what it gives for the operands on top, and leaves what lies
below. -/
theorem Gives.apply_eq {args : Stack} {v : Value} (h : op.Gives args v) (rest : Stack) :
    op.apply (args ++ rest) = .ok (v :: rest) := by
  cases h with
  | eqz a =>
      have hzero : (a == 0) = decide (a.toNat = 0) := by
        rw [Bool.eq_iff_iff, beq_iff_eq, decide_eq_true_iff, ← BitVec.toNat_inj]
        rfl
      rw [apply, List.singleton_append, Stack.unary_int, hzero]
      rfl
  | compare a b =>
      rw [apply, List.cons_append, List.singleton_append, Stack.binary_int,
        IntCompare.holds_eq]
      rfl
  | count a =>
      rw [apply, List.singleton_append, Stack.unary_int, IntUnary.apply_eq]
      rfl
  | compute hzero hover =>
      rw [apply, List.cons_append, List.singleton_append, Stack.binary_int,
        IntBinary.apply_eq_ok _ _ _ hzero hover]
      rfl
  | wrap a =>
      rw [BitVec.ofNat_toNat]
      rfl
  | @extend s a =>
      cases s with
      | signed =>
          rw [Sign.read_signed]
          rfl
      | unsigned =>
          rw [Sign.read_unsigned, BitVec.ofInt_natCast, BitVec.ofNat_toNat]
          rfl
  | signExtend32 a =>
      rw [← signExtend_setWidth]
      rfl
  | signExtend64 a =>
      rw [← signExtend_setWidth]
      rfl

theorem Fails.apply_eq {code : TrapCode} (hop : op.IsInteger) (h : op.Fails s code) :
    ∃ t, op.apply s = .error t ∧ t.code = code := by
  cases h with
  | missing hfits hends =>
      refine ⟨.emptyStack, ?_, rfl⟩
      cases op with
      | eqz | intUnary => exact Stack.unary_missing hfits hends
      | intCompare | intBinary => exact Stack.binary_missing hfits hends
      | wrap | signExtend64 => exact Stack.unary_missing (w := .w64) hfits hends
      | signExtend32 => exact Stack.unary_missing (w := .w32) hfits hends
      | extend s => cases s <;> exact Stack.unary_missing (w := .w32) hfits hends
      | _ => exact hop.elim
  | mistyped hstack hoperands =>
      suffices hmistyped : ∃ t v, op.apply s = .error (.typeMismatch t v) by
        obtain ⟨t, v, heq⟩ := hmistyped
        exact ⟨_, heq, rfl⟩
      cases op with
      | eqz | intUnary => exact ⟨_, Stack.unary_mistyped hstack hoperands⟩
      | intCompare | intBinary => exact ⟨_, Stack.binary_mistyped hstack hoperands⟩
      | wrap | signExtend64 =>
          exact ⟨_, Stack.unary_mistyped (w := .w64) hstack hoperands⟩
      | signExtend32 => exact ⟨_, Stack.unary_mistyped (w := .w32) hstack hoperands⟩
      | extend s =>
          cases s <;> exact ⟨_, Stack.unary_mistyped (w := .w32) hstack hoperands⟩
      | _ => exact hop.elim
  | @zero w op a b rest hzero =>
      refine ⟨.divisionByZero w op, ?_, rfl⟩
      rw [apply, Stack.binary_int, IntBinary.apply_of_dividesByZero hzero]
      rfl
  | @overflow w op a b rest hover =>
      refine ⟨.divisionOverflow w, ?_, rfl⟩
      rw [apply, Stack.binary_int, IntBinary.apply_of_overflows hover]
      rfl

/-- On operands of its types, an operation has a result, or it is a division without
one. -/
theorem gives_or_fails_of_types (hop : op.IsInteger) {args : Stack}
    (hargs : Stack.types args = op.operands) (rest : Stack) :
    (∃ v, op.Gives args v) ∨ ∃ code, op.Fails (args ++ rest) code := by
  cases op with
  | eqz w =>
      obtain ⟨a, rfl⟩ := Stack.eq_int_of_types hargs
      exact .inl ⟨_, .eqz a⟩
  | intUnary w op =>
      obtain ⟨a, rfl⟩ := Stack.eq_int_of_types hargs
      exact .inl ⟨_, .count a⟩
  | intCompare w op =>
      obtain ⟨a, b, rfl⟩ := Stack.eq_ints_of_types hargs
      exact .inl ⟨_, .compare a b⟩
  | intBinary w op =>
      obtain ⟨a, b, rfl⟩ := Stack.eq_ints_of_types hargs
      by_cases hzero : op.DividesByZero b.toNat
      · exact .inr ⟨_, .zero hzero⟩
      by_cases hover : op.Overflows w.bits a.toNat b.toNat
      · exact .inr ⟨_, .overflow hover⟩
      · exact .inl ⟨_, .compute hzero hover⟩
  | wrap =>
      obtain ⟨a, rfl⟩ := Stack.eq_int_of_types (w := .w64) hargs
      exact .inl ⟨_, .wrap a⟩
  | extend s =>
      obtain ⟨a, rfl⟩ := Stack.eq_int_of_types (w := .w32) hargs
      exact .inl ⟨_, .extend a⟩
  | signExtend32 p =>
      obtain ⟨a, rfl⟩ := Stack.eq_int_of_types (w := .w32) hargs
      exact .inl ⟨_, .signExtend32 a⟩
  | signExtend64 p =>
      obtain ⟨a, rfl⟩ := Stack.eq_int_of_types (w := .w64) hargs
      exact .inl ⟨_, .signExtend64 a⟩
  | _ => exact hop.elim

/-- Every stack gives a result or a failure. -/
theorem gives_or_fails (hop : op.IsInteger) (s : Stack) :
    (∃ args rest v, s = args ++ rest ∧ op.Gives args v) ∨ ∃ code, op.Fails s code := by
  rcases s.cases_operands op.operands with ⟨args, rest, rfl, hargs⟩ | ⟨hfits, hends⟩ |
    ⟨hstack, hoperands⟩
  · rcases gives_or_fails_of_types hop hargs rest with ⟨v, hv⟩ | hfails
    · exact .inl ⟨args, rest, v, rfl, hv⟩
    · exact .inr hfails
  · exact .inr ⟨_, .missing hfits hends⟩
  · exact .inr ⟨_, .mistyped hstack hoperands⟩

theorem apply_eq_ok_iff (hop : op.IsInteger) {s' : Stack} : op.apply s = .ok s' ↔
    ∃ args rest v, s = args ++ rest ∧ op.Gives args v ∧ s' = v :: rest := by
  constructor
  · intro h
    rcases gives_or_fails hop s with ⟨args, rest, v, rfl, hv⟩ | ⟨code, hfails⟩
    · rw [hv.apply_eq] at h
      exact ⟨args, rest, v, rfl, hv, (Except.ok.inj h).symm⟩
    · obtain ⟨t, ht, -⟩ := hfails.apply_eq hop
      rw [ht] at h
      cases h
  · rintro ⟨args, rest, v, rfl, hv, rfl⟩
    exact hv.apply_eq rest

theorem apply_eq_error_iff (hop : op.IsInteger) {code : TrapCode} :
    (∃ t, op.apply s = .error t ∧ t.code = code) ↔ op.Fails s code := by
  refine ⟨?_, fun h => h.apply_eq hop⟩
  rintro ⟨t, ht, rfl⟩
  rcases gives_or_fails hop s with ⟨args, rest, v, rfl, hv⟩ | ⟨code, hfails⟩
  · rw [hv.apply_eq] at ht
    cases ht
  · obtain ⟨t', ht', rfl⟩ := hfails.apply_eq hop
    rw [ht] at ht'
    rwa [Except.error.inj ht']

theorem intBinary_apply_eq_ok_iff {w : Width} {op : IntBinary} {a b r : BitVec w.bits}
    {rest : Stack} :
    (intBinary w op).apply (.int w b :: .int w a :: rest) = .ok (.int w r :: rest) ↔
      op.apply w a b = .ok r := by
  rw [apply, Stack.binary_int]
  cases op.apply w a b with
  | error t => exact ⟨nofun, nofun⟩
  | ok v =>
      constructor
      · intro h
        rw [Value.int_inj.mp (List.cons.inj (Except.ok.inj h)).1]
      · intro h
        rw [Except.ok.inj h]
        rfl

end NumOp

/-- A quotient, rounded toward zero, and its remainder, which has the sign of the
dividend. -/
structure TruncatedDivision (a b q r : Int) : Prop where
  eq_mul_add : a = q * b + r
  natAbs_quotient : q.natAbs = a.natAbs / b.natAbs
  natAbs_remainder_lt : r.natAbs < b.natAbs
  sign_remainder : r = 0 ∨ r.sign = a.sign

theorem truncatedDivision_tdiv_tmod (a : Int) {b : Int} (hb : b ≠ 0) :
    TruncatedDivision a b (a.tdiv b) (a.tmod b) where
  eq_mul_add := (Int.tdiv_mul_add_tmod a b).symm
  natAbs_quotient := Int.natAbs_tdiv a b
  natAbs_remainder_lt := by
    rw [Int.natAbs_tmod]
    exact Nat.mod_lt _ (Int.natAbs_pos.mpr hb)
  sign_remainder := by
    rw [Int.sign_tmod, ← Int.dvd_iff_tmod_eq_zero]
    by_cases hdvd : b ∣ a
    · exact .inl hdvd
    · exact .inr (if_neg hdvd)

/-- Integer operations are functions of integers.  An operation succeeds just on the
stacks whose top gives a result by the rules, which it puts in the place of the
operands, above what lies below them; it traps just where the rules say that it fails,
with the code that they say.  Results have the type that the operation has.  The
remainder goes with the quotient that is rounded toward zero, which is what division
gives, and there is one for the least integer and `-1`: zero. -/
theorem integers_meet_definition :
    (∀ op : NumOp, op.IsInteger → ∀ s : Stack,
      (∀ s', op.apply s = .ok s' ↔
        ∃ args rest v, s = args ++ rest ∧ op.Gives args v ∧ s' = v :: rest) ∧
      (∀ code, (∃ t, op.apply s = .error t ∧ t.code = code) ↔ op.Fails s code) ∧
      ∀ args v, op.Gives args v → Stack.types args = op.operands ∧ v.type = op.result) ∧
    (∀ (w : Width) (s : Sign) (a b r : BitVec w.bits) (rest : Stack),
      (NumOp.intBinary w (.rem s)).apply (.int w b :: .int w a :: rest) = .ok
      (.int w r :: rest) →
        ∃ q, TruncatedDivision (s.read w.bits a.toNat) (s.read w.bits b.toNat) q
            (s.read w.bits r.toNat) ∧
          ∀ q', (NumOp.intBinary w (.div s)).apply (.int w b :: .int w a :: rest) =
            .ok (.int w q' :: rest) → s.read w.bits q'.toNat = q) ∧
    ∀ (w : Width) (rest : Stack), (NumOp.intBinary w (.rem .signed)).apply
      (.int w (-1) :: .int w (BitVec.intMin w.bits) :: rest) = .ok
      (.int w 0 :: rest) := by
  refine ⟨fun op hop s => ⟨fun s' => NumOp.apply_eq_ok_iff hop, fun code =>
    NumOp.apply_eq_error_iff hop, fun args v h => h.types⟩, ?_, ?_⟩
  · intro w s a b r rest h
    rw [NumOp.intBinary_apply_eq_ok_iff] at h
    refine ⟨(s.read w.bits a.toNat).tdiv (s.read w.bits b.toNat), ?_, fun q' hq' => ?_⟩
    · rw [IntBinary.remainder_of_apply h]
      exact truncatedDivision_tdiv_tmod _ (IntBinary.read_divisor_ne_zero h)
    · exact IntBinary.quotient_of_apply (NumOp.intBinary_apply_eq_ok_iff.mp hq')
  · intro w rest
    rw [NumOp.intBinary_apply_eq_ok_iff]
    cases w <;> rfl

namespace IntegersWitness

/-- The least integer has no quotient by `-1`; minus seven leaves minus one when
divided by two.  What lies below the operands is of another type, and stays. -/
theorem least_quotient_and_negative_remainder :
    (∃ t, (NumOp.intBinary .w32 (.div .signed)).apply
      [.i32 (-1), .i32 (BitVec.intMin 32), .f32 0] = .error t ∧
      t.code = .integerOverflow) ∧
    (NumOp.intBinary .w32 (.rem .signed)).apply [.i32 2, .i32 (-7), .f32 0] =
      .ok [.i32 (-1), .f32 0] ∧
    ∃ q, TruncatedDivision (-7) 2 q (-1) := by
  obtain ⟨hrules, hdivision, -⟩ := integers_meet_definition
  have hremainder : (NumOp.intBinary .w32 (.rem .signed)).apply
      [.i32 2, .i32 (-7), .f32 0] = .ok [.i32 (-1), .f32 0] := rfl
  refine ⟨?_, hremainder, ?_⟩
  · obtain ⟨-, hfails, -⟩ := hrules (.intBinary .w32 (.div .signed)) trivial
      [.i32 (-1), .i32 (BitVec.intMin 32), .f32 0]
    have hover : (IntBinary.div .signed).Overflows 32 (BitVec.intMin 32).toNat
        (-1 : BitVec 32).toNat := ⟨rfl, by decide, by decide⟩
    exact (hfails .integerOverflow).mpr (.overflow (w := .w32) hover)
  · obtain ⟨q, hq, -⟩ := hdivision .w32 .signed (-7) 2 (-1) [.f32 0] hremainder
    have hdividend : Sign.signed.read 32 (-7 : BitVec 32).toNat = -7 := by decide
    have hdivisor : Sign.signed.read 32 (2 : BitVec 32).toNat = 2 := by decide
    have hleft : Sign.signed.read 32 (-1 : BitVec 32).toNat = -1 := by decide
    rw [hdividend, hdivisor, hleft] at hq
    exact ⟨q, hq⟩

end IntegersWitness

end WasmVm
