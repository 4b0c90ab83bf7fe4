/-
One instruction at a time: the opcode, then its operands.  Nothing is said here
about nesting.
-/
import WasmVm.Leb128
import WasmVm.Module.Basic

namespace WasmVm

/-- An instruction as the byte stream gives it. -/
inductive Item where
  | nop
  | openScope (kind : ScopeKind) (type : BlockType)
  | otherwise
  | catchTag (tag : Nat)
  | catchAll
  | delegate (depth : Nat)
  | close
  | plain (instr : Instr)
  deriving DecidableEq

namespace Reading

/-- The number of an opcode; `owner` names the body in messages. -/
def opcodeNumber (owner : String) : Reading Nat := do
  let start ← offset
  let first ← byte
  if first = 0xfc then
    let number ← u32
    if 0xff < number then fail (.extendedOpcode owner number start)
    else return 0xfc00 + number
  else return first.toNat

/-- An opcode with a name. -/
def opcode (owner : String) : Reading Opcode := do
  let start ← offset
  let number ← opcodeNumber owner
  match Opcode.ofCode? number with
  | some op => return op
  | none => fail (.opcode owner number start)

/-- The type of a scope: none, one value, or a signature of the module. -/
def blockType (m : Module) : Reading BlockType := do
  let start ← offset
  let i ← s33
  if i = -64 then return .empty
  else if i = -1 then return .value .i32
  else if i = -2 then return .value .i64
  else if i = -3 then return .value .f32
  else if i = -4 then return .value .f64
  else if 0 ≤ i ∧ i < m.types.size then return .func i.toNat
  else fail (.blockType i start)

/-- The byte that names a memory, of which there is only the first. -/
def memoryIndex (owner : String) : Reading Unit := do
  let start ← offset
  let b ← byte
  if b = 0 then return () else fail (.memoryIndex owner b start)

/-- Alignment, then constant offset. -/
def memArg : Reading MemArg := do
  let align ← u32
  let offset ← u32
  return ⟨align, offset⟩

/-- A constant of a type. -/
def constant : ValType → Reading Value
  | .i32 => return .i32 (BitVec.ofInt 32 (← s32))
  | .i64 => return .i64 (BitVec.ofInt 64 (← s64))
  | .f32 => return .f32 (← f32)
  | .f64 => return .f64 (← f64)

/-- The callee of a call, looked up in the module as far as it is known. -/
def callTarget (m : Module) (owner : String) : Reading CallTarget := do
  let start ← offset
  let function ← u32
  match m.callTarget? function with
  | some target => return target
  | none => fail (.callee owner function start)

/-- An opcode's operands. -/
def operands (m : Module) (owner : String) : Opcode → Reading Item
  | .nop => return .nop
  | .block => return .openScope .block (← blockType m)
  | .loop => return .openScope .loop (← blockType m)
  | .ifThen => return .openScope .ifThen (← blockType m)
  | .tryBlock => return .openScope .tryBlock (← blockType m)
  | .elseThen => return .otherwise
  | .endScope => return .close
  | .catchTag => return .catchTag (← u32)
  | .catchAll => return .catchAll
  | .delegate => return .delegate (← u32)
  | .unreachable => return .plain .unreachable
  | .throwTag => return .plain (.throwTag (← u32))
  | .rethrow => return .plain (.rethrow (← u32))
  | .br => return .plain (.br (← u32))
  | .brIf => return .plain (.brIf (← u32))
  | .brTable => do
    let count ← u32
    let targets ← many u32 count
    let fallback ← u32
    return .plain (.brTable targets.toList fallback)
  | .returnOp => return .plain .returnOp
  | .call => return .plain (.call (← callTarget m owner))
  | .callIndirect => do
    let typeIndex ← u32
    let table ← u32
    return .plain (.callIndirect typeIndex table)
  | .drop => return .plain .drop
  | .select => return .plain .select
  | .selectTyped => do
    let count ← u32
    let _ ← many valType count
    return .plain .select
  | .localGet => return .plain (.localGet (← u32))
  | .localSet => return .plain (.localSet (← u32))
  | .localTee => return .plain (.localTee (← u32))
  | .globalGet => return .plain (.globalGet (← u32))
  | .globalSet => return .plain (.globalSet (← u32))
  | .load op => return .plain (.load op (← memArg))
  | .store op => return .plain (.store op (← memArg))
  | .memorySize => do
    memoryIndex owner
    return .plain .memorySize
  | .memoryGrow => do
    memoryIndex owner
    return .plain .memoryGrow
  | .memoryFill => do
    memoryIndex owner
    return .plain .memoryFill
  | .memoryCopy => do
    memoryIndex owner
    memoryIndex owner
    return .plain .memoryCopy
  | .memoryInit => do
    let segment ← u32
    memoryIndex owner
    return .plain (.memoryInit segment)
  | .dataDrop => return .plain (.dataDrop (← u32))
  | .const t => return .plain (.const (← constant t))
  | .numeric op => return .plain (.numeric op)

/-- The next instruction with its operands. -/
def item (m : Module) (owner : String) : Reading Item := do
  operands m owner (← opcode owner)

end Reading

end WasmVm
