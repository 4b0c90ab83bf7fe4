/-
Instructions with their operands.
-/
import WasmVm.Opcode

namespace WasmVm

/-- What a scope takes from the stack and leaves there. -/
inductive BlockType where
  | empty
  | value (t : ValType)
  /-- The signature with this index. -/
  | func (index : Nat)
  deriving DecidableEq

/-- The operands of a memory access. -/
structure MemArg where
  align : Nat
  offset : Nat
  deriving DecidableEq

/-- The two names of an import. -/
structure ImportName where
  module : String
  name : String
  deriving DecidableEq

/-- The function that a call names, with what the module says about it. -/
structure CallTarget where
  function : Nat
  typeIndex : Nat
  params : Nat
  results : Nat
  /-- The import behind the function, if it is imported. -/
  source : Option ImportName
  deriving DecidableEq

/-- Instructions that open no scope.  The marks of a handler stand among them,
because a handler is a stretch of instructions behind its mark. -/
inductive Instr where
  | unreachable
  | throwTag (tag : Nat)
  | rethrow (depth : Nat)
  | br (depth : Nat)
  | brIf (depth : Nat)
  | brTable (targets : List Nat) (fallback : Nat)
  | returnOp
  | call (target : CallTarget)
  | callIndirect (typeIndex table : Nat)
  | delegate (depth : Nat)
  | catchTag (tag : Nat)
  | catchAll
  | drop
  | select
  | localGet (index : Nat)
  | localSet (index : Nat)
  | localTee (index : Nat)
  | globalGet (index : Nat)
  | globalSet (index : Nat)
  | load (op : LoadOp) (arg : MemArg)
  | store (op : StoreOp) (arg : MemArg)
  | memorySize
  | memoryGrow
  | memoryCopy
  | memoryFill
  | memoryInit (segment : Nat)
  | dataDrop (segment : Nat)
  | const (v : Value)
  | numeric (op : NumOp)
  deriving DecidableEq

namespace Instr

/-- The opcode of an instruction. -/
def opcode : Instr → Opcode
  | unreachable => .unreachable
  | throwTag _ => .throwTag
  | rethrow _ => .rethrow
  | br _ => .br
  | brIf _ => .brIf
  | brTable .. => .brTable
  | returnOp => .returnOp
  | call _ => .call
  | callIndirect .. => .callIndirect
  | delegate _ => .delegate
  | catchTag _ => .catchTag
  | catchAll => .catchAll
  | drop => .drop
  | select => .select
  | localGet _ => .localGet
  | localSet _ => .localSet
  | localTee _ => .localTee
  | globalGet _ => .globalGet
  | globalSet _ => .globalSet
  | load op _ => .load op
  | store op _ => .store op
  | memorySize => .memorySize
  | memoryGrow => .memoryGrow
  | memoryCopy => .memoryCopy
  | memoryFill => .memoryFill
  | memoryInit _ => .memoryInit
  | dataDrop _ => .dataDrop
  | const v => .const v.type
  | numeric op => .numeric op

/-- The operands as a listing shows them, each behind a blank. -/
def operands : Instr → String
  | throwTag n | rethrow n | br n | brIf n | delegate n | catchTag n |
      localGet n | localSet n
  | localTee n | globalGet n | globalSet n | memoryInit n | dataDrop n => s!" {n}"
  | brTable targets fallback =>
      String.join ((targets ++ [fallback]).map fun n => s!" {n}")
  | call target => s!" {target.function}"
  | callIndirect typeIndex table => s!" {typeIndex} {table}"
  | load _ arg | store _ arg => s!" {arg.align} {arg.offset}"
  | const v => " " ++ v.number
  | _ => ""

end Instr

/-- The type of a scope as a listing shows it. -/
def BlockType.operands : BlockType → String
  | empty => ""
  | value t => " " ++ t.name
  | func index => s!" type[{index}]"

end WasmVm
