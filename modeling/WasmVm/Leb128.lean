/-
Variable-length integers.  A group is a run of bytes of which all but the last
have their top bit set; each byte carries seven bits, the lowest first.  The
value of a group is defined on its bytes alone.
-/
import WasmVm.Cursor

namespace WasmVm

namespace Leb128

/-- The unsigned value of a group. -/
def unsigned : List UInt8 → Nat
  | [] => 0
  | b :: rest => b.toNat % 128 + 128 * unsigned rest

/-- The value of a group in two's complement: bit six of the last byte is the sign. -/
def signed : List UInt8 → Int
  | [] => 0
  | [b] => if b.toNat % 128 < 64 then b.toNat % 128 else (b.toNat % 128 : Int) - 128
  | b :: rest => (b.toNat % 128 : Int) + 128 * signed rest

/-- The shortest group of an unsigned value, given at least as much fuel as it
has bytes after the first. -/
def encodeFrom : (fuel n : Nat) → List UInt8
  | 0, n => [UInt8.ofNat (n % 128)]
  | fuel + 1, n =>
    if n < 128 then [UInt8.ofNat n]
    else UInt8.ofNat (n % 128 + 128) :: encodeFrom fuel (n / 128)

/-- The shortest group of an unsigned value. -/
def encode (n : Nat) : List UInt8 :=
  encodeFrom n.log2 n

end Leb128

namespace Reading

/-- The bytes of a group of at most `limit` bytes. -/
def group (tooLong : FormatFault) : (limit : Nat) → Reading (List UInt8)
  | 0 => fail tooLong
  | limit + 1 => do
    let b ← byte
    if b < 0x80 then return [b] else return b :: (← group tooLong limit)

/-- An unsigned number of 32 bits, in at most five bytes. -/
def u32 : Reading Nat := do
  let start ← offset
  let n := Leb128.unsigned (← group (.unsignedTooLong start) 5)
  if n < 2 ^ 32 then return n else fail (.unsignedOverflow start)

/-- A signed number in a group long enough for `bits` bits.  What does not fit 64
bits is cut off. -/
def wide (bits : Nat) : Reading Int := do
  let start ← offset
  let limit := (bits + 6) / 7
  return (Leb128.signed (← group (.signedTooLong bits start limit) limit)).bmod (2 ^ 64)

/-- A signed number of 32 bits. -/
def s32 : Reading Int := do
  let start ← offset
  let i ← wide 32
  if -2 ^ 31 ≤ i ∧ i < 2 ^ 31 then return i else fail (.signedOverflow 32 start)

/-- A signed number in a group of at most five bytes. -/
def s33 : Reading Int :=
  wide 33

/-- A signed number of 64 bits. -/
def s64 : Reading Int :=
  wide 64

/-- A text behind its length in bytes.  Bytes that are not UTF-8 are replaced. -/
def name : Reading String := do
  let length ← u32
  return Text.ofUtf8 (← bytes length).toList

end Reading

end WasmVm
