/-
What outlives a call: globals, memory and data segments.
-/
import WasmVm.Memory
import WasmVm.Module.Basic

namespace WasmVm

/-- A global's way from nothing to a value. -/
inductive GlobalState where
  /-- Imported and not provided. -/
  | unbound
  /-- Defined, and its initializer has not run yet. -/
  | pending
  /-- Its initializer is running. -/
  | evaluating
  | ready (v : Value)
  deriving DecidableEq

/-- The lasting state of an instance. -/
structure Store where
  globals : Array GlobalState
  memory : Option Memory
  /-- What is left of each data segment; one that is gone is empty. -/
  segments : Array (List UInt8)

namespace Store

/-- The state before anything is bound or written. -/
def ofModule (m : Module) : Store :=
  { globals := Array.replicate m.importedGlobals .unbound ++ m.globals.map fun _ =>
    .pending
    memory := m.memoryLimits?.map Memory.ofLimits
    segments := m.segments.map fun s =>
      match s.mode with
      | .passive => s.bytes
      | .active .. => [] }

/-- Changes the state of a global; an index past the end changes nothing. -/
def setGlobal (s : Store) (index : Nat) (state : GlobalState) : Store :=
  { s with globals := s.globals.setIfInBounds index state }

/-- Empties a data segment. -/
def dropSegment (s : Store) (segment : Nat) : Store :=
  { s with segments := s.segments.setIfInBounds segment [] }

/-- Initializers that were cut short may run again. -/
def settle (s : Store) : Store :=
  { s with globals := s.globals.map fun g => if g = .evaluating then .pending else g }

/-- The value of a global, or nothing if its initializer has to run first. -/
def readGlobal (s : Store) (index : Nat) : Except Trap (Option Value) :=
  match s.globals[index]? with
  | some (.ready v) => .ok (some v)
  | some .pending => .ok none
  | some .evaluating => .error (.globalCycle index)
  | some .unbound => .error (.unboundGlobal index)
  | none => .error (.noGlobal index)

/-- The memory that an instruction needs. -/
def needMemory (s : Store) : Except Trap Memory :=
  match s.memory with
  | some m => .ok m
  | none => .error .noMemory

/-- Changes the memory, if there is one. -/
def mapMemory (s : Store) (f : Memory → Memory) : Store :=
  match s with
  | ⟨globals, memory, segments⟩ => ⟨globals, memory.map f, segments⟩

end Store

end WasmVm
