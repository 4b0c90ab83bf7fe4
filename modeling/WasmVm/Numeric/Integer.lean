/-
Integer operations on bit vectors of either width.
-/
import WasmVm.Error

namespace WasmVm

variable {n : Nat}

/-- Whether a comparison holds. -/
def IntCompare.holds (op : IntCompare) (a b : BitVec n) : Bool :=
  match op with
  | eq => a == b
  | ne => a != b
  | lt .signed => a.slt b
  | lt .unsigned => a.ult b
  | gt .signed => b.slt a
  | gt .unsigned => b.ult a
  | le .signed => a.sle b
  | le .unsigned => a.ule b
  | ge .signed => b.sle a
  | ge .unsigned => b.ule a

/-- Counts of leading zeros, trailing zeros and ones. -/
def IntUnary.apply (op : IntUnary) (a : BitVec n) : BitVec n :=
  match op with
  | clz => a.clz
  | ctz => a.ctz
  | popcnt => a.cpop

/-- Arithmetic modulo the width.  Shift and rotation counts are taken modulo the
width too; division truncates toward zero and traps where it has no result. -/
def IntBinary.apply (w : Width) (op : IntBinary) (a b : BitVec w.bits) :
    Except Trap (BitVec w.bits) :=
  let count := b.toNat % w.bits
  match op with
  | add => .ok (a + b)
  | sub => .ok (a - b)
  | mul => .ok (a * b)
  | div .signed =>
    if b = 0 then .error (.divisionByZero w op)
    else if a = BitVec.intMin w.bits ∧ b = BitVec.allOnes w.bits then
      .error (.divisionOverflow w)
    else .ok (a.sdiv b)
  | div .unsigned => if b = 0 then .error (.divisionByZero w op) else .ok (a / b)
  | rem .signed => if b = 0 then .error (.divisionByZero w op) else .ok (a.srem b)
  | rem .unsigned => if b = 0 then .error (.divisionByZero w op) else .ok (a % b)
  | and => .ok (a &&& b)
  | or => .ok (a ||| b)
  | xor => .ok (a ^^^ b)
  | shl => .ok (a <<< count)
  | shr .signed => .ok (a.sshiftRight count)
  | shr .unsigned => .ok (a >>> count)
  | rotl => .ok (a.rotateLeft count)
  | rotr => .ok (a.rotateRight count)

end WasmVm
