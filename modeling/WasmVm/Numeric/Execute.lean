/-
Numeric operations on the value stack.  The right operand is on top; operands
are taken and checked one after the other, so that a wrong right operand is
reported before a missing left one.
-/
import WasmVm.Numeric.Float
import WasmVm.Numeric.Integer
import WasmVm.Stack

namespace WasmVm

namespace Value

/-- An integer of either width. -/
def int : (w : Width) → BitVec w.bits → Value
  | .w32, v => .i32 v
  | .w64, v => .i64 v

/-- A floating point number of either width. -/
def float : (w : Width) → BitVec w.bits → Value
  | .w32, bits => .f32 bits
  | .w64, bits => .f64 bits

/-- An integer operand of either width. -/
def asInt : (w : Width) → Value → Except Trap (BitVec w.bits)
  | .w32, v => v.asI32
  | .w64, v => v.asI64

/-- The bits of a floating point operand of either width. -/
def asFloat : (w : Width) → Value → Except Trap (BitVec w.bits)
  | .w32, v => v.asF32
  | .w64, v => v.asF64

end Value

namespace Stack

/-- Replaces the top operand by a result. -/
def unary {α : Type} (get : Value → Except Trap α)
    (f : α → Except Trap Value) (s : Stack) :
    Except Trap Stack := do
  let (v, rest) ← pop s
  let a ← get v
  return (← f a) :: rest

/-- Replaces the two top operands by a result. -/
def binary {α : Type} (get : Value → Except Trap α)
    (f : α → α → Except Trap Value) (s : Stack) :
    Except Trap Stack := do
  let (v, rest) ← pop s
  let b ← get v
  let (v, rest) ← pop rest
  let a ← get v
  return (← f a b) :: rest

end Stack

/-- What a numeric operation does to the stack. -/
def NumOp.apply (op : NumOp) (s : Stack) : Except Trap Stack :=
  match op with
  | eqz w => s.unary (Value.asInt w) fun a => .ok (.ofBool (a == 0))
  | intCompare w op => s.binary (Value.asInt w) fun a b => .ok (.ofBool (op.holds a b))
  | floatCompare w op => s.binary (Value.asFloat w) fun a b =>
      .ok (.ofBool (op.holds w a b))
  | intUnary w op => s.unary (Value.asInt w) fun a => .ok (.int w (op.apply a))
  | intBinary w op => s.binary (Value.asInt w) fun a b =>
      (Value.int w) <$> op.apply w a b
  | floatUnary w op => s.unary (Value.asFloat w) fun a => .ok (.float w (op.apply w a))
  | floatBinary w op => s.binary (Value.asFloat w) fun a b =>
      .ok (.float w (op.apply w a b))
  | wrap => s.unary Value.asI64 fun a => .ok (.i32 (a.setWidth 32))
  | extend .signed => s.unary Value.asI32 fun a => .ok (.i64 (a.signExtend 64))
  | extend .unsigned => s.unary Value.asI32 fun a => .ok (.i64 (a.setWidth 64))
  | truncate target source sign =>
    s.unary (Value.asFloat source) fun a =>
      (Value.int target) <$> truncateFloat source target sign a
  | truncateSat target source sign =>
    s.unary (Value.asFloat source) fun a =>
      .ok (.int target (saturateFloat source target sign a))
  | convert target source sign =>
    s.unary (Value.asInt source) fun a =>
      .ok (.float target (convertInt source target sign a))
  | demote => s.unary Value.asF64 fun a => .ok (.f32 (convertFloat .w64 .w32 a))
  | promote => s.unary Value.asF32 fun a => .ok (.f64 (convertFloat .w32 .w64 a))
  | reinterpretFloat w => s.unary (Value.asFloat w) fun a => .ok (.int w a)
  | reinterpretInt w => s.unary (Value.asInt w) fun a => .ok (.float w a)
  | signExtend32 p => s.unary Value.asI32 fun a =>
      .ok (.i32 ((a.setWidth p.bits).signExtend 32))
  | signExtend64 p => s.unary Value.asI64 fun a =>
      .ok (.i64 ((a.setWidth p.bits).signExtend 64))

end WasmVm
