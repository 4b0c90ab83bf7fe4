/-
Reading numbers: decimal integers of a bounded range, and decimal fractions
with an optional exponent, rounded once to a binary format.
-/
import WasmVm.Ieee.Rounding

namespace WasmVm.Decimal

/-- Why a text is no number of the wanted kind. -/
inductive LiteralError where
  | emptyInteger
  | invalidDigit
  | tooLarge
  | tooSmall
  | emptyFloat
  | invalidFloat
  deriving DecidableEq

/-- The wording of each cause. -/
def LiteralError.message : LiteralError → String
  | .emptyInteger => "cannot parse integer from empty string"
  | .invalidDigit => "invalid digit found in string"
  | .tooLarge => "number too large to fit in target type"
  | .tooSmall => "number too small to fit in target type"
  | .emptyFloat => "cannot parse float from empty string"
  | .invalidFloat => "invalid float literal"

/-- The value of a decimal digit. -/
def digit? (c : Char) : Option Nat :=
  if '0' ≤ c ∧ c ≤ '9' then some (c.toNat - '0'.toNat) else none

/-- Reads digits from the left and stops at the first fault: a character that is
no digit, or a value past `limit`. -/
def readDigits (limit : Nat) (past : LiteralError) :
    List Char → Nat → Except LiteralError Nat
  | [], n => .ok n
  | c :: rest, n =>
    match digit? c with
    | none => .error .invalidDigit
    | some d => if limit < 10 * n + d then .error past
        else readDigits limit past rest (10 * n + d)

/-- Digits of which there is at least one. -/
def readSomeDigits (limit : Nat) (past : LiteralError) :
    List Char → Except LiteralError Nat
  | [] => .error .invalidDigit
  | digits => readDigits limit past digits 0

/-- A natural number below `2 ^ width`, with an optional plus sign. -/
def readNat (width : Nat) (text : String) : Except LiteralError Nat :=
  match text.toList with
  | [] => .error .emptyInteger
  | '+' :: rest => readSomeDigits (2 ^ width - 1) .tooLarge rest
  | digits => readSomeDigits (2 ^ width - 1) .tooLarge digits

/-- An integer of `width` bits in two's complement, with an optional sign. -/
def readInt (width : Nat) (text : String) : Except LiteralError Int :=
  match text.toList with
  | [] => .error .emptyInteger
  | '-' :: rest => return -(← readSomeDigits (2 ^ (width - 1)) .tooSmall rest : Nat)
  | '+' :: rest => return (← readSomeDigits (2 ^ (width - 1) - 1) .tooLarge rest : Nat)
  | digits => return (← readSomeDigits (2 ^ (width - 1) - 1) .tooLarge digits : Nat)

/-- The value of a run of digits. -/
def digitsValue (digits : List Char) : Nat :=
  digits.foldl (fun n c => 10 * n + (digit? c).getD 0) 0

/-- The longest run of digits at the front, and what follows it. -/
def spanDigits (cs : List Char) : List Char × List Char :=
  cs.span fun c => (digit? c).isSome

/-- An exponent part: absent, or a mark, an optional sign and digits. -/
def readExponent : List Char → Option Int
  | [] => some 0
  | mark :: rest =>
    if mark = 'e' ∨ mark = 'E' then
      let (negative, digits) : Bool × List Char :=
        match rest with
        | '-' :: digits => (true, digits)
        | '+' :: digits => (false, digits)
        | digits => (false, digits)
      if digits.isEmpty || digits.any fun c => (digit? c).isNone then none
      else
        let n := digitsValue digits
        some (if negative then -(n : Int) else n)
    else none

/-- The magnitude nearest to `digits · 10 ^ exponent`.  Numbers far outside every
format are not computed in full: they round to infinity or to zero. -/
def magnitudeOf (f : Ieee.Format) (digits : Nat) (exponent : Int) : Nat :=
  let length : Int := (Nat.toDigits 10 digits).length
  if digits = 0 then 0
  else if 400 < length + exponent then f.infinity
  else if length + exponent < -400 then 0
  else f.round (digits * 10 ^ exponent.toNat) (10 ^ (-exponent).toNat) 0

/-- The magnitude of an unsigned literal. -/
def readMagnitude (f : Ieee.Format) (cs : List Char) : Option Nat :=
  let lowered := String.ofList (cs.map Char.toLower)
  if lowered = "inf" ∨ lowered = "infinity" then some f.infinity
  else if lowered = "nan" then some f.nan
  else
    let (whole, rest) := spanDigits cs
    let (places, rest) :=
      match rest with
      | '.' :: tail => spanDigits tail
      | _ => ([], rest)
    if whole.isEmpty && places.isEmpty then none
    else
      match readExponent rest with
      | none => none
      | some e =>
          some (magnitudeOf f (digitsValue (whole ++ places)) (e - places.length))

/-- The bit pattern of a literal with an optional sign. -/
def readFloat (f : Ieee.Format) (text : String) : Except LiteralError Nat :=
  let signed (negative : Bool) (cs : List Char) : Except LiteralError Nat :=
    match readMagnitude f cs with
    | none => .error .invalidFloat
    | some magnitude => .ok (f.withSign negative magnitude)
  match text.toList with
  | [] => .error .emptyFloat
  | '-' :: rest => signed true rest
  | '+' :: rest => signed false rest
  | cs => signed false cs

end WasmVm.Decimal
