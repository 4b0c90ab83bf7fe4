/-
Numeric operations as families: a width, a signedness and the operation itself.
Names are read off the family, and each family numbers its members in the order
of the binary format.
-/
import WasmVm.Value

namespace WasmVm

/-- The two widths of integers and of floating point numbers. -/
inductive Width where
  | w32 | w64
  deriving DecidableEq

namespace Width

@[reducible] def bits : Width → Nat
  | w32 => 32
  | w64 => 64

def all : List Width := [w32, w64]

def index : Width → Nat
  | w32 => 0
  | w64 => 1

def intType : Width → ValType
  | w32 => .i32
  | w64 => .i64

def floatType : Width → ValType
  | w32 => .f32
  | w64 => .f64

/-- The floating point format of a width. -/
def format : Width → Ieee.Format
  | w32 => .single
  | w64 => .double

def intName (w : Width) : String := w.intType.name

def floatName (w : Width) : String := w.floatType.name

end Width

/-- How the bits of an integer are read. -/
inductive Sign where
  | signed | unsigned
  deriving DecidableEq

namespace Sign

def all : List Sign := [signed, unsigned]

def index : Sign → Nat
  | signed => 0
  | unsigned => 1

/-- The letter that ends the names of operations. -/
def letter : Sign → String
  | signed => "s"
  | unsigned => "u"

end Sign

/-- Parts of a 32-bit integer that have instructions of their own. -/
inductive Part32 where
  | low8 | low16
  deriving DecidableEq

namespace Part32

def all : List Part32 := [low8, low16]

def index : Part32 → Nat
  | low8 => 0
  | low16 => 1

@[reducible] def bits : Part32 → Nat
  | low8 => 8
  | low16 => 16

end Part32

/-- Parts of a 64-bit integer that have instructions of their own. -/
inductive Part64 where
  | low8 | low16 | low32
  deriving DecidableEq

namespace Part64

def all : List Part64 := [low8, low16, low32]

def index : Part64 → Nat
  | low8 => 0
  | low16 => 1
  | low32 => 2

@[reducible] def bits : Part64 → Nat
  | low8 => 8
  | low16 => 16
  | low32 => 32

end Part64

/-- Comparisons of two integers. -/
inductive IntCompare where
  | eq | ne
  | lt (s : Sign) | gt (s : Sign) | le (s : Sign) | ge (s : Sign)
  deriving DecidableEq

namespace IntCompare

def all : List IntCompare :=
  [eq, ne] ++ Sign.all.map lt ++ Sign.all.map gt ++ Sign.all.map le ++ Sign.all.map ge

def index : IntCompare → Nat
  | eq => 0
  | ne => 1
  | lt s => 2 + s.index
  | gt s => 4 + s.index
  | le s => 6 + s.index
  | ge s => 8 + s.index

def name : IntCompare → String
  | eq => "eq"
  | ne => "ne"
  | lt s => "lt_" ++ s.letter
  | gt s => "gt_" ++ s.letter
  | le s => "le_" ++ s.letter
  | ge s => "ge_" ++ s.letter

end IntCompare

/-- Counts of bits of an integer. -/
inductive IntUnary where
  | clz | ctz | popcnt
  deriving DecidableEq

namespace IntUnary

def all : List IntUnary := [clz, ctz, popcnt]

def index : IntUnary → Nat
  | clz => 0
  | ctz => 1
  | popcnt => 2

def name : IntUnary → String
  | clz => "clz"
  | ctz => "ctz"
  | popcnt => "popcnt"

end IntUnary

/-- Operations on two integers. -/
inductive IntBinary where
  | add | sub | mul
  | div (s : Sign) | rem (s : Sign)
  | and | or | xor
  | shl | shr (s : Sign)
  | rotl | rotr
  deriving DecidableEq

namespace IntBinary

def all : List IntBinary :=
  [add, sub, mul] ++ Sign.all.map div ++ Sign.all.map rem ++ [and, or, xor, shl]
    ++ Sign.all.map shr ++ [rotl, rotr]

def index : IntBinary → Nat
  | add => 0
  | sub => 1
  | mul => 2
  | div s => 3 + s.index
  | rem s => 5 + s.index
  | and => 7
  | or => 8
  | xor => 9
  | shl => 10
  | shr s => 11 + s.index
  | rotl => 13
  | rotr => 14

def name : IntBinary → String
  | add => "add"
  | sub => "sub"
  | mul => "mul"
  | div s => "div_" ++ s.letter
  | rem s => "rem_" ++ s.letter
  | and => "and"
  | or => "or"
  | xor => "xor"
  | shl => "shl"
  | shr s => "shr_" ++ s.letter
  | rotl => "rotl"
  | rotr => "rotr"

end IntBinary

/-- Comparisons of two floating point numbers. -/
inductive FloatCompare where
  | eq | ne | lt | gt | le | ge
  deriving DecidableEq

namespace FloatCompare

def all : List FloatCompare := [eq, ne, lt, gt, le, ge]

def index : FloatCompare → Nat
  | eq => 0
  | ne => 1
  | lt => 2
  | gt => 3
  | le => 4
  | ge => 5

def name : FloatCompare → String
  | eq => "eq"
  | ne => "ne"
  | lt => "lt"
  | gt => "gt"
  | le => "le"
  | ge => "ge"

end FloatCompare

/-- Operations on one floating point number. -/
inductive FloatUnary where
  | abs | neg | ceil | floor | trunc | nearest | sqrt
  deriving DecidableEq

namespace FloatUnary

def all : List FloatUnary := [abs, neg, ceil, floor, trunc, nearest, sqrt]

def index : FloatUnary → Nat
  | abs => 0
  | neg => 1
  | ceil => 2
  | floor => 3
  | trunc => 4
  | nearest => 5
  | sqrt => 6

def name : FloatUnary → String
  | abs => "abs"
  | neg => "neg"
  | ceil => "ceil"
  | floor => "floor"
  | trunc => "trunc"
  | nearest => "nearest"
  | sqrt => "sqrt"

end FloatUnary

/-- Operations on two floating point numbers. -/
inductive FloatBinary where
  | add | sub | mul | div | min | max | copysign
  deriving DecidableEq

namespace FloatBinary

def all : List FloatBinary := [add, sub, mul, div, min, max, copysign]

def index : FloatBinary → Nat
  | add => 0
  | sub => 1
  | mul => 2
  | div => 3
  | min => 4
  | max => 5
  | copysign => 6

def name : FloatBinary → String
  | add => "add"
  | sub => "sub"
  | mul => "mul"
  | div => "div"
  | min => "min"
  | max => "max"
  | copysign => "copysign"

end FloatBinary

/-- Every comparison, arithmetic operation and conversion. -/
inductive NumOp where
  | eqz (w : Width)
  | intCompare (w : Width) (op : IntCompare)
  | floatCompare (w : Width) (op : FloatCompare)
  | intUnary (w : Width) (op : IntUnary)
  | intBinary (w : Width) (op : IntBinary)
  | floatUnary (w : Width) (op : FloatUnary)
  | floatBinary (w : Width) (op : FloatBinary)
  /-- The low half of a 64-bit integer. -/
  | wrap
  /-- A 32-bit integer made a 64-bit one. -/
  | extend (s : Sign)
  /-- A float made an integer; a trap if it does not fit. -/
  | truncate (target : Width) (source : Width) (s : Sign)
  /-- A float made an integer; the nearest bound if it does not fit. -/
  | truncateSat (target : Width) (source : Width) (s : Sign)
  /-- An integer made a float. -/
  | convert (target : Width) (source : Width) (s : Sign)
  | demote
  | promote
  /-- The bits of a float as an integer. -/
  | reinterpretFloat (w : Width)
  /-- The bits of an integer as a float. -/
  | reinterpretInt (w : Width)
  | signExtend32 (p : Part32)
  | signExtend64 (p : Part64)
  deriving DecidableEq

namespace NumOp

/-- The conversions between a float and an integer, in the binary format's order. -/
def conversions (make : Width → Sign → NumOp) : List NumOp :=
  Width.all.flatMap fun w => Sign.all.map fun s => make w s

/-- Every operation, ordered by opcode. -/
def all : List NumOp :=
  Width.all.flatMap (fun w => eqz w :: IntCompare.all.map (intCompare w))
    ++ Width.all.flatMap (fun w => FloatCompare.all.map (floatCompare w))
    ++ Width.all.flatMap (fun w => IntUnary.all.map (intUnary w) ++
      IntBinary.all.map (intBinary w))
    ++ Width.all.flatMap (fun w =>
        FloatUnary.all.map (floatUnary w) ++ FloatBinary.all.map (floatBinary w))
    ++ [wrap] ++ conversions (truncate .w32) ++ Sign.all.map extend ++
      conversions (truncate .w64)
    ++ conversions (convert .w32) ++ [demote] ++ conversions (convert .w64) ++ [promote]
    ++ Width.all.map reinterpretFloat ++ Width.all.map reinterpretInt
    ++ Part32.all.map signExtend32 ++ Part64.all.map signExtend64
    ++ conversions (truncateSat .w32) ++ conversions (truncateSat .w64)

/-- The opcode number. -/
def code : NumOp → Nat
  | eqz .w32 => 0x45
  | eqz .w64 => 0x50
  | intCompare .w32 op => 0x46 + op.index
  | intCompare .w64 op => 0x51 + op.index
  | floatCompare .w32 op => 0x5b + op.index
  | floatCompare .w64 op => 0x61 + op.index
  | intUnary .w32 op => 0x67 + op.index
  | intBinary .w32 op => 0x6a + op.index
  | intUnary .w64 op => 0x79 + op.index
  | intBinary .w64 op => 0x7c + op.index
  | floatUnary .w32 op => 0x8b + op.index
  | floatBinary .w32 op => 0x92 + op.index
  | floatUnary .w64 op => 0x99 + op.index
  | floatBinary .w64 op => 0xa0 + op.index
  | wrap => 0xa7
  | truncate .w32 source s => 0xa8 + 2 * source.index + s.index
  | extend s => 0xac + s.index
  | truncate .w64 source s => 0xae + 2 * source.index + s.index
  | convert .w32 source s => 0xb2 + 2 * source.index + s.index
  | demote => 0xb6
  | convert .w64 source s => 0xb7 + 2 * source.index + s.index
  | promote => 0xbb
  | reinterpretFloat w => 0xbc + w.index
  | reinterpretInt w => 0xbe + w.index
  | signExtend32 p => 0xc0 + p.index
  | signExtend64 p => 0xc2 + p.index
  | truncateSat .w32 source s => 0xfc00 + 2 * source.index + s.index
  | truncateSat .w64 source s => 0xfc04 + 2 * source.index + s.index

/-- The name in listings and messages. -/
def name : NumOp → String
  | eqz w => w.intName ++ ".eqz"
  | intCompare w op => w.intName ++ "." ++ op.name
  | floatCompare w op => w.floatName ++ "." ++ op.name
  | intUnary w op => w.intName ++ "." ++ op.name
  | intBinary w op => w.intName ++ "." ++ op.name
  | floatUnary w op => w.floatName ++ "." ++ op.name
  | floatBinary w op => w.floatName ++ "." ++ op.name
  | wrap => "i32.wrap_i64"
  | extend s => "i64.extend_i32_" ++ s.letter
  | truncate target source s =>
    target.intName ++ ".trunc_" ++ source.floatName ++ "_" ++ s.letter
  | truncateSat target source s =>
    target.intName ++ ".trunc_sat_" ++ source.floatName ++ "_" ++ s.letter
  | convert target source s =>
    target.floatName ++ ".convert_" ++ source.intName ++ "_" ++ s.letter
  | demote => "f32.demote_f64"
  | promote => "f64.promote_f32"
  | reinterpretFloat w => w.intName ++ ".reinterpret_" ++ w.floatName
  | reinterpretInt w => w.floatName ++ ".reinterpret_" ++ w.intName
  | signExtend32 p => "i32.extend" ++ toString p.bits ++ "_s"
  | signExtend64 p => "i64.extend" ++ toString p.bits ++ "_s"

end NumOp

end WasmVm
