/-
The shortest decimal that reads back as a given binary number.

The reals that round to a number form an interval around it.  On the decimal
grid of one significant digit, then of two, and so on, the two neighbours of
the number are tried; the first grid with a neighbour inside the interval gives
the digits, and of two the nearer one is taken, the upper one on a tie.
-/
import WasmVm.Ieee.Format

namespace WasmVm.Decimal

/-- The number `digits · 10 ^ exponent`. -/
structure Numeral where
  digits : Nat
  exponent : Int
  deriving DecidableEq

/-- The reals that round to `value / den`: from `low / den` to `high / den`, the
ends included if `closed`. -/
structure Interval where
  value : Nat
  low : Nat
  high : Nat
  den : Nat
  closed : Bool

/-- The interval of a positive `significand · 2 ^ exponent`.  The gap below a
power of two is half the gap above it, except at the bottom of the range. -/
def Interval.ofFinite (f : Ieee.Format) (significand : Nat) (exponent : Int) :
    Interval :=
  let narrow := significand = 2 ^ f.fraction && f.least < exponent
  let value := 4 * significand
  let e := exponent - 2
  let up := 2 ^ e.toNat
  { value := value * up
    low := (value - if narrow then 1 else 2) * up
    high := (value + 2) * up
    den := 2 ^ (-e).toNat
    closed := significand % 2 = 0 }

namespace Interval

/-- Whether `num / (i.den · unit)` lies in the interval. -/
def contains (i : Interval) (num unit : Nat) : Bool :=
  if i.closed then i.low * unit ≤ num && num ≤ i.high * unit
  else i.low * unit < num && num < i.high * unit

/-- The better neighbour of the value on the grid of step `10 ^ place`, if one
lies in the interval. -/
def onGrid (i : Interval) (place : Int) : Option Nat :=
  let step := i.den * 10 ^ place.toNat
  let unit := 10 ^ (-place).toNat
  let scaled := i.value * unit
  let lower := scaled / step
  let below := i.contains (lower * step) unit
  let above := i.contains ((lower + 1) * step) unit
  if below && (!above || 2 * (scaled % step) < step) then some lower
  else if above then some (lower + 1)
  else none

/-- The number of decimal digits before the point, or minus the number of zeros
that follow it: the least `k` with `value / den < 10 ^ k`. -/
def magnitude (i : Interval) : Int :=
  if i.den ≤ i.value then
    (Nat.toDigits 10 (i.value / i.den)).length
  else
    -((Nat.toDigits 10 ((i.den - 1) / i.value)).length - 1 : Int)

/-- The first grid with a hit, of at most `more` digits beyond those tried.  Where
there is none, the value is cut to the digits tried. -/
def search (i : Interval) (magnitude : Int) : (more tried : Nat) → Numeral
  | 0, tried =>
    ⟨i.value * 10 ^ (tried - magnitude).toNat /
      (i.den * 10 ^ (magnitude - tried).toNat),
      magnitude - tried⟩
  | more + 1, tried =>
    let place := magnitude - (tried + 1 : Nat)
    match i.onGrid place with
    | some digits => ⟨digits, place⟩
    | none => search i magnitude more (tried + 1)

end Interval

/-- Drops trailing zeros, at most `fuel` of them. -/
def Numeral.strip : Nat → Numeral → Numeral
  | 0, d => d
  | fuel + 1, d =>
    if d.digits % 10 = 0 && d.digits != 0 then
      strip fuel ⟨d.digits / 10, d.exponent + 1⟩ else d

/-- The shortest decimal for a positive `significand · 2 ^ exponent`.  Seventeen
digits are enough for the widest format. -/
def shortest (f : Ieee.Format) (significand : Nat) (exponent : Int) : Numeral :=
  let i := Interval.ofFinite f significand exponent
  (i.search i.magnitude 17 0).strip 20

/-- A decimal in full, never with an exponent and with a point only before
further digits. -/
def Numeral.positional (d : Numeral) : String :=
  let digits := Nat.toDigits 10 d.digits
  if 0 ≤ d.exponent then
    String.ofList (digits ++ List.replicate d.exponent.toNat '0')
  else
    let places := (-d.exponent).toNat
    if places < digits.length then
      String.ofList (digits.take (digits.length - places)) ++ "."
        ++ String.ofList (digits.drop (digits.length - places))
    else
      "0." ++ String.ofList (List.replicate (places - digits.length) '0' ++ digits)

/-- The text of a bit pattern.  A number that is not one has no sign. -/
def ofBits (f : Ieee.Format) (bits : Nat) : String :=
  let sign (negative : Bool) : String := if negative then "-" else ""
  match f.decode bits with
  | .nan => "NaN"
  | .infinite negative => sign negative ++ "inf"
  | .finite negative significand exponent =>
    if significand = 0 then sign negative ++ "0"
    else sign negative ++ (shortest f significand exponent).positional

end WasmVm.Decimal
