/-
Rounding to nearest, ties to even.  A positive quantity is given exactly as
`num / den · 2 ^ e`; nothing is lost before the one rounding step.
-/
import WasmVm.Ieee.Format

namespace WasmVm.Ieee

/-- The integer nearest to `num / den`; of two the even one. -/
def divNearestEven (num den : Nat) : Nat :=
  let q := num / den
  let r := num % den
  if 2 * r < den then q
  else if den < 2 * r then q + 1
  else q + q % 2

/-- Numerator and denominator of `num / den · 2 ^ e`. -/
def scale (num den : Nat) (e : Int) : Nat × Nat :=
  if 0 ≤ e then (num * 2 ^ e.toNat, den) else (num, den * 2 ^ (-e).toNat)

/-- The greatest `t` with `2 ^ t ≤ num / den`, for positive operands. -/
def floorLog (num den : Nat) : Int :=
  let t : Int := (num.log2 : Int) - den.log2
  let (n, d) := scale num den (-t)
  if d ≤ n then t else t - 1

/-- The magnitude nearest to `num / den · 2 ^ e`.  The exponent field and the
significand are added, so that a significand rounded up to the next power of
two carries into the exponent, and from the top one into infinity. -/
def Format.round (f : Format) (num den : Nat) (e : Int) : Nat :=
  if num = 0 then 0
  else
    let place := max f.least (floorLog num den + e - f.fraction)
    let (n, d) := scale num den (e - place)
    min f.infinity ((place - f.least).toNat * 2 ^ f.fraction + divNearestEven n d)

/-- The pattern nearest to `± num / den · 2 ^ e`. -/
def Format.roundSigned (f : Format) (negative : Bool) (num den : Nat) (e : Int) : Nat :=
  f.withSign negative (f.round num den e)

/-- The pattern nearest to an integer. -/
def Format.ofInt (f : Format) (i : Int) : Nat :=
  f.roundSigned (i < 0) i.natAbs 1 0

end WasmVm.Ieee
