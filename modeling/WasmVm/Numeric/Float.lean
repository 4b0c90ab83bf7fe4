/-
Floating point operations on bit patterns of either width, and conversions
between numbers of different types.
-/
import WasmVm.Error
import WasmVm.Ieee.Arithmetic

namespace WasmVm

/-- Whether a comparison holds; with a number that is not one only `ne` does. -/
def FloatCompare.holds (w : Width) (op : FloatCompare) (a b : BitVec w.bits) : Bool :=
  let f := w.format
  match op with
  | eq => f.eq a.toNat b.toNat
  | ne => !f.eq a.toNat b.toNat
  | lt => f.lt a.toNat b.toNat
  | gt => f.lt b.toNat a.toNat
  | le => f.le a.toNat b.toNat
  | ge => f.le b.toNat a.toNat

/-- Operations on one number; signs are handled on the bits, also of what is no number.
-/
def FloatUnary.apply (w : Width) (op : FloatUnary) (a : BitVec w.bits) :
    BitVec w.bits :=
  let f := w.format
  BitVec.ofNat w.bits <| match op with
    | abs => f.abs a.toNat
    | neg => f.neg a.toNat
    | ceil => f.toIntegral .ceil a.toNat
    | floor => f.toIntegral .floor a.toNat
    | trunc => f.toIntegral .trunc a.toNat
    | nearest => f.toIntegral .nearest a.toNat
    | sqrt => f.sqrt a.toNat

/-- Operations on two numbers. -/
def FloatBinary.apply (w : Width) (op : FloatBinary) (a b : BitVec w.bits) :
    BitVec w.bits :=
  let f := w.format
  BitVec.ofNat w.bits <| match op with
    | add => f.add a.toNat b.toNat
    | sub => f.sub a.toNat b.toNat
    | mul => f.mul a.toNat b.toNat
    | div => f.div a.toNat b.toNat
    | min => f.minimum a.toNat b.toNat
    | max => f.maximum a.toNat b.toNat
    | copysign => f.copysign a.toNat b.toNat

/-- The number in the other width's format, rounded if need be. -/
def convertFloat (source target : Width) (a : BitVec source.bits) :
    BitVec target.bits :=
  BitVec.ofNat target.bits (source.format.convert target.format a.toNat)

/-- The least integer of a width and signedness. -/
def Width.least (w : Width) : Sign → Int
  | .signed => -2 ^ (w.bits - 1)
  | .unsigned => 0

/-- The greatest integer of a width and signedness. -/
def Width.greatest (w : Width) : Sign → Int
  | .signed => 2 ^ (w.bits - 1) - 1
  | .unsigned => 2 ^ w.bits - 1

/-- The integer part of a float, or a trap if there is none or it does not fit. -/
def truncateFloat (source target : Width) (s : Sign) (a : BitVec source.bits) :
    Except Trap (BitVec target.bits) :=
  let wide := convertFloat source .w64 a
  match source.format.decode a.toNat with
  | .nan => .error .notANumber
  | datum =>
    match datum.truncate with
    | none => .error (.outOfRange wide target s)
    | some i =>
      if target.least s ≤ i ∧ i ≤ target.greatest s then
        .ok (BitVec.ofInt target.bits i)
      else .error (.outOfRange wide target s)

/-- The integer part of a float, the nearest bound if it does not fit, zero for a
number that is not one. -/
def saturateFloat (source target : Width) (s : Sign) (a : BitVec source.bits) :
    BitVec target.bits :=
  BitVec.ofInt target.bits <| match source.format.decode a.toNat with
    | .nan => 0
    | .infinite negative => if negative then target.least s else target.greatest s
    | datum => max (target.least s) (min (target.greatest s) (datum.truncate.getD 0))

/-- The float nearest to an integer. -/
def convertInt (source target : Width) (s : Sign) (a : BitVec source.bits) :
    BitVec target.bits :=
  let i : Int := match s with
    | .signed => a.toInt
    | .unsigned => a.toNat
  BitVec.ofNat target.bits (target.format.ofInt i)

end WasmVm
