/-
Binary interchange formats.  Bits are natural numbers; a bit pattern decodes to
a number that is not one, an infinity, or an exact dyadic fraction, and a
magnitude is the pattern without its sign bit.
-/
import WasmVm.LittleEndian

namespace WasmVm.Ieee

/-- A binary format given by its field widths. -/
structure Format where
  /-- Stored fraction bits. -/
  fraction : Nat
  /-- Exponent bits. -/
  exponent : Nat
  deriving DecidableEq

namespace Format

/-- 32-bit numbers. -/
def single : Format := ⟨23, 8⟩

/-- 64-bit numbers. -/
def double : Format := ⟨52, 11⟩

/-- The power of two of the last place of the smallest numbers. -/
def least (f : Format) : Int :=
  2 - (2 : Int) ^ (f.exponent - 1) - f.fraction

/-- The value of the sign bit, one more than the greatest magnitude. -/
def signBit (f : Format) : Nat :=
  2 ^ (f.exponent + f.fraction)

/-- The magnitude of the infinities. -/
def infinity (f : Format) : Nat :=
  (2 ^ f.exponent - 1) * 2 ^ f.fraction

/-- The pattern of a quiet number that is not one, as arithmetic makes it. -/
def nan (f : Format) : Nat :=
  f.infinity + 2 ^ (f.fraction - 1)

/-- Whether the sign bit is set. -/
def isNegative (f : Format) (bits : Nat) : Bool :=
  bits / f.signBit % 2 = 1

/-- The pattern without its sign bit. -/
def magnitude (f : Format) (bits : Nat) : Nat :=
  bits % f.signBit

/-- The pattern of a magnitude under a sign. -/
def withSign (f : Format) (negative : Bool) (magnitude : Nat) : Nat :=
  if negative then f.signBit + magnitude else magnitude

end Format

/-- What a bit pattern stands for. -/
inductive Datum where
  | nan
  | infinite (negative : Bool)
  /-- The number `± significand · 2 ^ exponent`, zero included. -/
  | finite (negative : Bool) (significand : Nat) (exponent : Int)
  deriving DecidableEq

/-- The datum of a bit pattern. -/
def Format.decode (f : Format) (bits : Nat) : Datum :=
  let negative := f.isNegative bits
  let magnitude := f.magnitude bits
  if f.infinity < magnitude then .nan
  else if magnitude = f.infinity then .infinite negative
  else
    let biased := magnitude / 2 ^ f.fraction
    let stored := magnitude % 2 ^ f.fraction
    if biased = 0 then .finite negative stored f.least
    else .finite negative (2 ^ f.fraction + stored) (f.least + (biased - 1))

end WasmVm.Ieee
