/-
Value types and values.  Integers are bit vectors whose sign is a matter of the
operation that reads them; floating point numbers are kept as their bits, so
that moving a value never changes them.
-/
import WasmVm.Decimal.Shortest

namespace WasmVm

/-- The four types of values. -/
inductive ValType where
  | i32 | i64 | f32 | f64
  deriving DecidableEq

namespace ValType

/-- The name in listings and messages. -/
def name : ValType → String
  | i32 => "i32"
  | i64 => "i64"
  | f32 => "f32"
  | f64 => "f64"

/-- The type that a byte of the binary format names. -/
def ofByte? (b : UInt8) : Option ValType :=
  if b = 0x7f then some i32
  else if b = 0x7e then some i64
  else if b = 0x7d then some f32
  else if b = 0x7c then some f64
  else none

/-- The byte that names a type. -/
def toByte : ValType → UInt8
  | i32 => 0x7f
  | i64 => 0x7e
  | f32 => 0x7d
  | f64 => 0x7c

end ValType

/-- One slot of a value stack.  Truth values are `i32` zero or one. -/
inductive Value where
  | i32 (v : BitVec 32)
  | i64 (v : BitVec 64)
  | f32 (bits : BitVec 32)
  | f64 (bits : BitVec 64)
  deriving DecidableEq

namespace Value

/-- The type of a value. -/
def type : Value → ValType
  | i32 _ => .i32
  | i64 _ => .i64
  | f32 _ => .f32
  | f64 _ => .f64

/-- The value of a truth value. -/
def ofBool (b : Bool) : Value :=
  i32 (if b then 1 else 0)

/-- The number alone, as an operand shows it; integers are shown signed. -/
def number : Value → String
  | i32 v => toString v.toInt
  | i64 v => toString v.toInt
  | f32 bits => Decimal.ofBits .single bits.toNat
  | f64 bits => Decimal.ofBits .double bits.toNat

/-- The type, then the number. -/
def text (v : Value) : String :=
  v.type.name ++ " " ++ v.number

end Value

/-- The zero of a type. -/
def ValType.zero : ValType → Value
  | i32 => .i32 0
  | i64 => .i64 0
  | f32 => .f32 0
  | f64 => .f64 0

@[simp] theorem ValType.type_zero (t : ValType) : t.zero.type = t := by
  cases t <;> rfl

@[simp] theorem ValType.ofByte?_toByte (t : ValType) : ofByte? t.toByte = some t := by
  cases t <;> rfl

end WasmVm
