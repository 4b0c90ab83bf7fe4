/-
How loads and stores turn bytes into values and back.
-/
import WasmVm.Error
import WasmVm.LittleEndian

namespace WasmVm

/-- Bytes that a value of the type takes. -/
def ValType.bytes : ValType → Nat
  | i32 | f32 => 4
  | i64 | f64 => 8

namespace LoadOp

/-- Bytes that the load reads. -/
def bytes : LoadOp → Nat
  | full t => t.bytes
  | part32 p _ => p.bits / 8
  | part64 p _ => p.bits / 8

/-- The value of the number that the bytes spell. -/
def value : LoadOp → Nat → Value
  | full .i32, raw => .i32 (BitVec.ofNat 32 raw)
  | full .i64, raw => .i64 (BitVec.ofNat 64 raw)
  | full .f32, raw => .f32 (BitVec.ofNat 32 raw)
  | full .f64, raw => .f64 (BitVec.ofNat 64 raw)
  | part32 p .signed, raw => .i32 ((BitVec.ofNat p.bits raw).signExtend 32)
  | part32 p .unsigned, raw => .i32 ((BitVec.ofNat p.bits raw).setWidth 32)
  | part64 p .signed, raw => .i64 ((BitVec.ofNat p.bits raw).signExtend 64)
  | part64 p .unsigned, raw => .i64 ((BitVec.ofNat p.bits raw).setWidth 64)

end LoadOp

namespace StoreOp

/-- Bytes that the store writes. -/
def bytes : StoreOp → Nat
  | full t => t.bytes
  | part32 p => p.bits / 8
  | part64 p => p.bits / 8

/-- The number whose low-order bytes are stored, if the operand's type is right. -/
def number (op : StoreOp) (v : Value) : Except Trap Nat :=
  match op with
  | full .i32 | part32 _ => BitVec.toNat <$> v.asI32
  | full .i64 | part64 _ => BitVec.toNat <$> v.asI64
  | full .f32 => BitVec.toNat <$> v.asF32
  | full .f64 => BitVec.toNat <$> v.asF64

/-- The bytes to be stored. -/
def encode (op : StoreOp) (v : Value) : Except Trap (List UInt8) :=
  toLittleEndian op.bytes <$> op.number v

end StoreOp

end WasmVm
