/-
What one instruction does.  It changes the frame, and says as an action what is
to happen outside the frame; the store is only looked at.  So an instruction
that traps changes nothing.
-/
import WasmVm.Machine.Access
import WasmVm.Machine.Frame
import WasmVm.Machine.Store
import WasmVm.Numeric.Execute

namespace WasmVm

/-- What an instruction asks for outside its frame. -/
inductive Action where
  | proceed
  | setGlobal (index : Nat) (v : Value)
  /-- Runs the initializer of a global that has no value yet. -/
  | startGlobal (index : Nat)
  /-- Lays bytes over memory; the range has been checked. -/
  | write (start : Nat) (bytes : ByteArray)
  /-- Adds pages to memory; the maximum has been checked. -/
  | grow (pages : Nat)
  | dropSegment (segment : Nat)
  | call (function : Nat) (args : List Value)
  | callHost (function : Nat) (args : List Value)

namespace Frame

/-- The value of a local. -/
def getLocal (f : Frame) (index : Nat) : Except Trap Value :=
  match f.locals[index]? with
  | some v => .ok v
  | none => .error (.noLocal index)

/-- The frame with a local changed. -/
def setLocal (f : Frame) (index : Nat) (v : Value) : Except Trap Frame :=
  if index < f.locals.size then .ok { f with locals := f.locals.setIfInBounds index v }
  else .error (.noLocal index)

/-- Instructions that read or change linear memory or data segments. -/
def executeMemory (store : Store) (stack : Stack) : Instr → Except Trap (Stack × Action)
  | .load op arg => do
    let (address, stack) ← stack.popI32
    let memory ← store.needMemory
    let bytes ← memory.load address.toNat arg.offset op.bytes
    return (op.value (ofLittleEndian bytes) :: stack, .proceed)
  | .store op arg => do
    let (v, stack) ← stack.pop
    let (address, stack) ← stack.popI32
    let memory ← store.needMemory
    let bytes ← op.encode v
    let start := address.toNat + arg.offset
    memory.check start bytes.length
    return (stack, .write start ⟨bytes.toArray⟩)
  | .memorySize => do
    let memory ← store.needMemory
    return (.i32 (BitVec.ofNat 32 memory.pages) :: stack, .proceed)
  | .memoryGrow => do
    let (delta, stack) ← stack.popI32
    let memory ← store.needMemory
    if memory.canGrow delta.toNat then
      return (.i32 (BitVec.ofNat 32 memory.pages) :: stack, .grow delta.toNat)
    else return (.i32 (BitVec.allOnes 32) :: stack, .proceed)
  | .memoryFill => do
    let (length, stack) ← stack.popI32
    let (value, stack) ← stack.popI32
    let (target, stack) ← stack.popI32
    let memory ← store.needMemory
    memory.check target.toNat length.toNat
    return (stack,
      .write target.toNat ⟨Array.replicate length.toNat (UInt8.ofNat value.toNat)⟩)
  | .memoryCopy => do
    let (length, stack) ← stack.popI32
    let (source, stack) ← stack.popI32
    let (target, stack) ← stack.popI32
    let memory ← store.needMemory
    memory.check source.toNat length.toNat
    memory.check target.toNat length.toNat
    return (stack, .write target.toNat
      (memory.bytes.extract source.toNat (source.toNat + length.toNat)))
  | .memoryInit segment => do
    let (length, stack) ← stack.popI32
    let (source, stack) ← stack.popI32
    let (target, stack) ← stack.popI32
    match store.segments[segment]? with
    | none => throw (.noSegment segment)
    | some bytes =>
      if bytes.length < source.toNat + length.toNat then
        throw (.segmentRange length.toNat source.toNat segment bytes.length)
      else
        let memory ← store.needMemory
        memory.check target.toNat length.toNat
        return (stack, .write target.toNat
          ⟨((bytes.drop source.toNat).take length.toNat).toArray⟩)
  | .dataDrop segment => return (stack, .dropSegment segment)
  | other => throw (.notImplemented other.opcode.code)

/-- Instructions that open no scope. -/
def executePlain (store : Store) (f : Frame) : Instr → Except Trap (Frame × Action)
  | .unreachable => throw .unreachable
  | .throwTag tag => throw (.uncaught tag)
  | .rethrow _ => throw .strayRethrow
  -- Nothing is ever caught, so a `try` runs as a block and its `delegate` does nothing.
  | .delegate _ => return (f, .proceed)
  | .catchTag tag => throw (.notImplemented (Instr.catchTag tag).opcode.code)
  | .catchAll => throw (.notImplemented Instr.catchAll.opcode.code)
  | .br depth => return (← f.branch depth, .proceed)
  | .brIf depth => do
    let (condition, stack) ← f.stack.popCondition
    let f := { f with stack }
    if condition then return (← f.branch depth, .proceed) else return (f, .proceed)
  | .brTable targets fallback => do
    let (index, stack) ← f.stack.popI32
    let f := { f with stack }
    return (← f.branch ((targets[index.toNat]?).getD fallback), .proceed)
  | .returnOp => return ({ f with scopes := [] }, .proceed)
  | .call target => do
    let (args, stack) ← f.stack.popMany target.params
    let f := { f with stack }
    if target.source.isNone then return (f, .call target.function args)
    else return (f, .callHost target.function args)
  | .callIndirect .. => throw .callIndirect
  | .drop => do
    let (_, stack) ← f.stack.pop
    return ({ f with stack }, .proceed)
  | .select => do
    let (condition, stack) ← f.stack.popCondition
    let (second, stack) ← stack.pop
    let (first, stack) ← stack.pop
    return ({ f with stack := (if condition then first else second) :: stack },
      .proceed)
  | .localGet index => do
    let v ← f.getLocal index
    return ({ f with stack := v :: f.stack }, .proceed)
  | .localSet index => do
    let (v, stack) ← f.stack.pop
    return (← { f with stack }.setLocal index v, .proceed)
  | .localTee index => do
    let (v, _) ← f.stack.pop
    return (← f.setLocal index v, .proceed)
  | .globalGet index => do
    match ← store.readGlobal index with
    | some v => return ({ f with stack := v :: f.stack }, .proceed)
    | none => return (f, .startGlobal index)
  | .globalSet index => do
    let (v, stack) ← f.stack.pop
    if index < store.globals.size then return ({ f with stack }, .setGlobal index v)
    else throw (.noGlobal index)
  | .const v => return ({ f with stack := v :: f.stack }, .proceed)
  | .numeric op => return ({ f with stack := ← op.apply f.stack }, .proceed)
  | instr => do
    let (stack, action) ← executeMemory store f.stack instr
    return ({ f with stack }, action)

/-- Any instruction. -/
def execute (m : Module) (store : Store) (f : Frame) :
    Node → Except Trap (Frame × Action)
  | .plain _ instr => f.executePlain store instr
  | .scope _ .ifThen type body alternative => do
    let (condition, stack) ← f.stack.popCondition
    let f := { f with stack }
    if condition then return (f.enter m .ifThen type body, .proceed)
    else
      match alternative with
      | some nodes => return (f.enter m .ifThen type nodes, .proceed)
      | none => return (f, .proceed)
  | .scope _ kind type body _ => return (f.enter m kind type body, .proceed)

end Frame

end WasmVm
