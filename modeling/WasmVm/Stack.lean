/-
The value stack of a frame, top first.
-/
import WasmVm.Error

namespace WasmVm

/-- Values, the top one at the head. -/
abbrev Stack := List Value

namespace Stack

/-- The top value and the rest. -/
def pop : Stack → Except Trap (Value × Stack)
  | [] => .error .emptyStack
  | v :: rest => .ok (v, rest)

/-- The top value as an `i32`, and the rest. -/
def popI32 (s : Stack) : Except Trap (BitVec 32 × Stack) := do
  let (v, rest) ← pop s
  return (← v.asI32, rest)

/-- The top value as a condition. -/
def popCondition (s : Stack) : Except Trap (Bool × Stack) := do
  let (v, rest) ← pop s
  return (← v.isTruthy, rest)

/-- The `count` top values, the deepest first, and the rest. -/
def popMany (count : Nat) (s : Stack) : Except Trap (List Value × Stack) :=
  if s.length < count then .error (.shortStack count s.length)
  else .ok ((s.take count).reverse, s.drop count)

/-- Pushes values in order, so that the last one ends on top. -/
def pushMany (values : List Value) (s : Stack) : Stack :=
  values.reverse ++ s

end Stack

end WasmVm
