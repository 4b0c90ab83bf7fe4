/-
Opcodes.  An instruction behind the extension byte `0xfc` has the number
`0xfc00` plus its second number.
-/
import WasmVm.Numeric.Operation

namespace WasmVm

/-- How a load reads memory. -/
inductive LoadOp where
  | full (t : ValType)
  | part32 (p : Part32) (s : Sign)
  | part64 (p : Part64) (s : Sign)
  deriving DecidableEq

/-- How a store writes memory. -/
inductive StoreOp where
  | full (t : ValType)
  | part32 (p : Part32)
  | part64 (p : Part64)
  deriving DecidableEq

/-- The types, in the order of their instructions. -/
def ValType.all : List ValType := [.i32, .i64, .f32, .f64]

def ValType.index : ValType → Nat
  | i32 => 0
  | i64 => 1
  | f32 => 2
  | f64 => 3

namespace LoadOp

def all : List LoadOp :=
  ValType.all.map full ++ Part32.all.flatMap (fun p => Sign.all.map (part32 p))
    ++ Part64.all.flatMap (fun p => Sign.all.map (part64 p))

def code : LoadOp → Nat
  | full t => 0x28 + t.index
  | part32 p s => 0x2c + 2 * p.index + s.index
  | part64 p s => 0x30 + 2 * p.index + s.index

def name : LoadOp → String
  | full t => t.name ++ ".load"
  | part32 p s => "i32.load" ++ toString p.bits ++ "_" ++ s.letter
  | part64 p s => "i64.load" ++ toString p.bits ++ "_" ++ s.letter

end LoadOp

namespace StoreOp

def all : List StoreOp :=
  ValType.all.map full ++ Part32.all.map part32 ++ Part64.all.map part64

def code : StoreOp → Nat
  | full t => 0x36 + t.index
  | part32 p => 0x3a + p.index
  | part64 p => 0x3c + p.index

def name : StoreOp → String
  | full t => t.name ++ ".store"
  | part32 p => "i32.store" ++ toString p.bits
  | part64 p => "i64.store" ++ toString p.bits

end StoreOp

/-- Every instruction of the binary format that has a name. -/
inductive Opcode where
  | unreachable | nop
  | block | loop | ifThen | elseThen | tryBlock | catchTag | throwTag |
      rethrow | endScope
  | br | brIf | brTable | returnOp | call | callIndirect | delegate | catchAll
  | drop | select | selectTyped
  | localGet | localSet | localTee | globalGet | globalSet
  | load (op : LoadOp) | store (op : StoreOp)
  | memorySize | memoryGrow
  | const (t : ValType)
  | numeric (op : NumOp)
  | memoryInit | dataDrop | memoryCopy | memoryFill
  deriving DecidableEq

/-- Coarse grouping, shown by colour in listings. -/
inductive Category where
  | scope | branch | variable | memory | numeric | trap | other
  deriving DecidableEq

namespace Opcode

/-- Every opcode. -/
def all : List Opcode :=
  [unreachable, nop, block, loop, ifThen, elseThen, tryBlock, catchTag,
    throwTag, rethrow,
    endScope, br, brIf, brTable, returnOp, call, callIndirect, delegate,
      catchAll, drop, select,
    selectTyped, localGet, localSet, localTee, globalGet, globalSet]
    ++ LoadOp.all.map load ++ StoreOp.all.map store ++ [memorySize, memoryGrow]
    ++ ValType.all.map const ++ NumOp.all.map numeric
    ++ [memoryInit, dataDrop, memoryCopy, memoryFill]

/-- The number in the binary format. -/
def code : Opcode → Nat
  | unreachable => 0x00
  | nop => 0x01
  | block => 0x02
  | loop => 0x03
  | ifThen => 0x04
  | elseThen => 0x05
  | tryBlock => 0x06
  | catchTag => 0x07
  | throwTag => 0x08
  | rethrow => 0x09
  | endScope => 0x0b
  | br => 0x0c
  | brIf => 0x0d
  | brTable => 0x0e
  | returnOp => 0x0f
  | call => 0x10
  | callIndirect => 0x11
  | delegate => 0x18
  | catchAll => 0x19
  | drop => 0x1a
  | select => 0x1b
  | selectTyped => 0x1c
  | localGet => 0x20
  | localSet => 0x21
  | localTee => 0x22
  | globalGet => 0x23
  | globalSet => 0x24
  | load op => op.code
  | store op => op.code
  | memorySize => 0x3f
  | memoryGrow => 0x40
  | const t => 0x41 + t.index
  | numeric op => op.code
  | memoryInit => 0xfc08
  | dataDrop => 0xfc09
  | memoryCopy => 0xfc0a
  | memoryFill => 0xfc0b

/-- The name in listings and messages. -/
def name : Opcode → String
  | unreachable => "unreachable"
  | nop => "nop"
  | block => "block"
  | loop => "loop"
  | ifThen => "if"
  | elseThen => "else"
  | tryBlock => "try"
  | catchTag => "catch"
  | throwTag => "throw"
  | rethrow => "rethrow"
  | endScope => "end"
  | br => "br"
  | brIf => "br_if"
  | brTable => "br_table"
  | returnOp => "return"
  | call => "call"
  | callIndirect => "call_indirect"
  | delegate => "delegate"
  | catchAll => "catch_all"
  | drop => "drop"
  | select => "select"
  | selectTyped => "select"
  | localGet => "local.get"
  | localSet => "local.set"
  | localTee => "local.tee"
  | globalGet => "global.get"
  | globalSet => "global.set"
  | load op => op.name
  | store op => op.name
  | memorySize => "memory.size"
  | memoryGrow => "memory.grow"
  | const t => t.name ++ ".const"
  | numeric op => op.name
  | memoryInit => "memory.init"
  | dataDrop => "data.drop"
  | memoryCopy => "memory.copy"
  | memoryFill => "memory.fill"

/-- The numbers of all opcodes. -/
def table : List (Nat × Opcode) :=
  all.map fun op => (op.code, op)

/-- The opcode of a number. -/
def ofCode? (n : Nat) : Option Opcode :=
  (table.find? fun entry => entry.1 == n).map (·.2)

/-- The group that an instruction is shown in. -/
def category : Opcode → Category
  | block | loop | ifThen | elseThen | endScope | tryBlock | catchTag |
      catchAll | delegate =>
    .scope
  | br | brIf | brTable | returnOp | call | callIndirect | throwTag | rethrow => .branch
  | localGet | localSet | localTee | globalGet | globalSet => .variable
  | load _ | store _ | memorySize | memoryGrow | memoryInit | dataDrop |
      memoryCopy | memoryFill =>
    .memory
  | unreachable => .trap
  | drop | select | selectTyped | const _ | numeric _ => .numeric
  | nop => .other

/-- Whether the instruction opens a scope. -/
def isScope : Opcode → Bool
  | block | loop | ifThen | tryBlock => true
  | _ => false

/-- Whether the instruction opens or closes a handler of a `try`. -/
def isHandler : Opcode → Bool
  | catchTag | catchAll | delegate => true
  | _ => false

end Opcode

end WasmVm
