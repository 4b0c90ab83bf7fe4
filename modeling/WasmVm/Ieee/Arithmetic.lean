/-
Arithmetic on bit patterns.  Every operation decodes its operands, computes the
exact result and rounds it once.
-/
import WasmVm.Ieee.Rounding

namespace WasmVm.Ieee

/-- The number `± significand · 2 ^ exponent` in units of `2 ^ place`, for a
`place` no greater than the exponent. -/
def signedAt (place : Int) (negative : Bool) (significand : Nat)
    (exponent : Int) : Int :=
  let n : Int := significand * 2 ^ (exponent - place).toNat
  if negative then -n else n

/-- The greatest integer whose square is at most `n`, found bit by bit. -/
def sqrtFrom (n : Nat) : Nat → Nat → Nat
  | 0, root => root
  | bit + 1, root =>
    let next := root + 2 ^ bit
    sqrtFrom n bit (if next * next ≤ n then next else root)

/-- The integer square root of `n`. -/
def isqrt (n : Nat) : Nat :=
  sqrtFrom n (n.log2 / 2 + 1) 0

namespace Format

variable (f : Format)

/-- Whether the pattern stands for no number. -/
def isNan (bits : Nat) : Bool :=
  f.infinity < f.magnitude bits

/-- The pattern with its sign cleared. -/
def abs (bits : Nat) : Nat :=
  f.magnitude bits

/-- The pattern with its sign flipped. -/
def neg (bits : Nat) : Nat :=
  f.withSign (!f.isNegative bits) (f.magnitude bits)

/-- The magnitude of the first operand under the sign of the second. -/
def copysign (a b : Nat) : Nat :=
  f.withSign (f.isNegative b) (f.magnitude a)

/-- The sum.  A zero sum is negative only if both operands are. -/
def add (a b : Nat) : Nat :=
  match f.decode a, f.decode b with
  | .nan, _ | _, .nan => f.nan
  | .infinite s, .infinite t => if s = t then f.withSign s f.infinity else f.nan
  | .infinite s, .finite .. => f.withSign s f.infinity
  | .finite .., .infinite t => f.withSign t f.infinity
  | .finite s m e, .finite t n k =>
    let place := min e k
    let sum := signedAt place s m e + signedAt place t n k
    if sum = 0 then f.withSign (s && t) 0
    else f.roundSigned (sum < 0) sum.natAbs 1 place

/-- The difference, as the sum with the second operand negated. -/
def sub (a b : Nat) : Nat :=
  if f.isNan b then f.nan else f.add a (f.neg b)

/-- The product; none of a zero and an infinity. -/
def mul (a b : Nat) : Nat :=
  match f.decode a, f.decode b with
  | .nan, _ | _, .nan => f.nan
  | .infinite s, .infinite t => f.withSign (s != t) f.infinity
  | .infinite s, .finite t n _ => if n = 0 then f.nan
      else f.withSign (s != t) f.infinity
  | .finite s m _, .infinite t => if m = 0 then f.nan
      else f.withSign (s != t) f.infinity
  | .finite s m e, .finite t n k => f.roundSigned (s != t) (m * n) 1 (e + k)

/-- The quotient; a number over zero is infinite, zero over zero is no number. -/
def div (a b : Nat) : Nat :=
  match f.decode a, f.decode b with
  | .nan, _ | _, .nan => f.nan
  | .infinite _, .infinite _ => f.nan
  | .infinite s, .finite t _ _ => f.withSign (s != t) f.infinity
  | .finite s _ _, .infinite t => f.withSign (s != t) 0
  | .finite s m e, .finite t n k =>
    if n = 0 then
      if m = 0 then f.nan else f.withSign (s != t) f.infinity
    else f.roundSigned (s != t) m n (e - k)

/-- The square root.  The significand is widened to twice the precision and a
few bits more, and a last bit tells whether the integer root is exact. -/
def sqrt (a : Nat) : Nat :=
  match f.decode a with
  | .nan => f.nan
  | .infinite s => if s then f.nan else f.withSign false f.infinity
  | .finite s m e =>
    if m = 0 then f.withSign s 0
    else if s then f.nan
    else
      let shift := 2 * f.fraction + 8 + (e % 2).toNat
      let wide := m * 2 ^ shift
      let root := isqrt wide
      let sticky := if root * root = wide then 0 else 1
      f.roundSigned false (2 * root + sticky) 1 ((e - shift) / 2 - 1)

/-- How a fraction is dropped. -/
inductive Integral where
  | ceil | floor | trunc | nearest
  deriving DecidableEq

/-- The integer part of `num / den` under a sign, as a magnitude. -/
def Integral.apply (mode : Integral) (negative : Bool) (num den : Nat) : Nat :=
  let down := num / den
  let up := if num % den = 0 then down else down + 1
  match mode with
  | .trunc => down
  | .nearest => divNearestEven num den
  | .ceil => if negative then down else up
  | .floor => if negative then up else down

/-- An integral value next to the operand; a zero keeps the operand's sign. -/
def toIntegral (mode : Integral) (a : Nat) : Nat :=
  match f.decode a with
  | .nan => f.nan
  | .infinite s => f.withSign s f.infinity
  | .finite s m e =>
    if 0 ≤ e then a
    else f.roundSigned s (mode.apply s m (2 ^ (-e).toNat)) 1 0

/-- Order of two numbers; there is none with a number that is not one. -/
def order (a b : Nat) : Option Ordering :=
  match f.decode a, f.decode b with
  | .nan, _ | _, .nan => none
  | .infinite s, .infinite t => some (if s = t then .eq else if s then .lt else .gt)
  | .infinite s, .finite .. => some (if s then .lt else .gt)
  | .finite .., .infinite t => some (if t then .gt else .lt)
  | .finite s m e, .finite t n k =>
    let place := min e k
    some (compare (signedAt place s m e) (signedAt place t n k))

/-- Equality of numbers: both zeros are equal, and what is no number equals nothing. -/
def eq (a b : Nat) : Bool := f.order a b = some .eq

/-- Strict order of numbers. -/
def lt (a b : Nat) : Bool := f.order a b = some .lt

/-- Order of numbers. -/
def le (a b : Nat) : Bool := f.lt a b || f.eq a b

/-- The lesser operand; the negative zero is below the positive one. -/
def minimum (a b : Nat) : Nat :=
  match f.order a b with
  | none => f.nan
  | some .lt => a
  | some .gt => b
  | some .eq => if f.isNegative a then a else b

/-- The greater operand; the negative zero is below the positive one. -/
def maximum (a b : Nat) : Nat :=
  match f.order a b with
  | none => f.nan
  | some .lt => b
  | some .gt => a
  | some .eq => if f.isNegative a then b else a

/-- The same number in another format. -/
def convert (target : Format) (a : Nat) : Nat :=
  match f.decode a with
  | .nan => target.nan
  | .infinite s => target.withSign s target.infinity
  | .finite s m e => target.roundSigned s m 1 e

end Format

/-- The integer part of a datum, for a finite one. -/
def Datum.truncate : Datum → Option Int
  | .finite s m e =>
    let magnitude := if 0 ≤ e then m * 2 ^ e.toNat else m / 2 ^ (-e).toNat
    some (if s then -magnitude else magnitude)
  | _ => none

end WasmVm.Ieee
