/-
What can go wrong, as causes.  The wording of every message stands here and
nowhere else, and so does the way in which messages quote numbers and sizes.
-/
import WasmVm.Opcode

namespace WasmVm

/-! ### Hexadecimal text -/

namespace Text

/-- Lowercase hexadecimal digits of `n`, filled up with zeros to `width`. -/
def hexDigits (width n : Nat) : String :=
  let digits := Nat.toDigits 16 n
  String.ofList (List.replicate (width - digits.length) '0' ++ digits)

/-- An offset or a size, such as `0x1f`. -/
def hex (n : Nat) : String :=
  "0x" ++ hexDigits 1 n

/-- A byte or an opcode, such as `0x07` or `0xfc0c`. -/
def hexByte (n : Nat) : String :=
  "0x" ++ hexDigits 2 n

/-- A short run of bytes, such as `[00, 61, 73, 6d]`. -/
def hexList (bytes : List UInt8) : String :=
  "[" ++ ", ".intercalate (bytes.map fun b => hexDigits 2 b.toNat) ++ "]"

end Text

/-! ### Sizes -/

/-- Bytes in a page of memory. -/
def pageSize : Nat := 65536

/-- Pages that a memory may have at most. -/
def maxPages : Nat := 65536

/-- A size to start with and, if given, one that is never passed. -/
structure Limits where
  min : Nat
  max : Option Nat
  deriving DecidableEq

/-- The limits as messages quote them. -/
def Limits.text (l : Limits) : String :=
  let max := match l.max with
    | some n => s!"Some({n})"
    | none => "None"
  s!"Limits \x7b min: {l.min}, max: {max} \x7d"

/-! ### Faults -/

open Text (hex hexByte hexList)

/-- Why bytes are no module, or why a name leads nowhere. -/
inductive FormatFault where
  | endOfInput (offset : Nat)
  | shortInput (wanted offset left : Nat)
  | unsignedTooLong (offset : Nat)
  | unsignedOverflow (offset : Nat)
  | signedTooLong (bits offset limit : Nat)
  | signedOverflow (bits offset : Nat)
  | valueType (byte : UInt8)
  | shortHeader
  | magic (bytes : List UInt8)
  | version (bytes : List UInt8)
  | sectionLeft (id : UInt8) (offset size left : Nat)
  | bodyCount (functions bodies : Nat)
  | typeForm (form : UInt8) (offset : Nat)
  | importKind (kind : UInt8) (module name : String)
  | exportKind (kind : UInt8) (name : String)
  | codeCount (bodies functions : Nat)
  | tooManyLocals (function limit : Nat)
  | dataFlags (segment flags : Nat)
  | dataOffsetType (segment : Nat) (found : Value)
  /-- The offset of a data segment could not be evaluated, for the reason given. -/
  | dataOffset (segment : Nat) (reason : String)
  | typeIndex (index offset : Nat)
  | limitsFlags (flags : UInt8)
  | memorySize (limits : Limits)
  | memoryMaximum (limits : Limits)
  | mutability (flag : UInt8)
  | extendedOpcode (owner : String) (number offset : Nat)
  | opcode (owner : String) (code offset : Nat)
  | blockType (index : Int) (offset : Nat)
  | callee (owner : String) (function offset : Nat)
  | memoryIndex (owner : String) (index : UInt8) (offset : Nat)
  | functionExport (name : String)
  | exportedFunction (name : String)
  | globalExport (name : String)
  /-- Reported from outside, in the words given. -/
  | reported (text : String)
  deriving DecidableEq

namespace FormatFault

/-- The wording of each fault. -/
def message : FormatFault → String
  | endOfInput offset => s!"unexpected end of input at offset {hex offset}"
  | shortInput wanted offset left =>
    s!"expected {wanted} bytes at offset {hex offset}, only {left} left"
  | unsignedTooLong offset =>
      s!"u32 LEB128 at offset {hex offset} is longer than 5 bytes"
  | unsignedOverflow offset => s!"u32 LEB128 at offset {hex offset} overflows"
  | signedTooLong bits offset limit =>
    s!"s{bits} LEB128 at offset {hex offset} is longer than {limit} bytes"
  | signedOverflow bits offset => s!"s{bits} LEB128 at offset {hex offset} overflows"
  | valueType byte => s!"unsupported value type {hexByte byte.toNat}"
  | shortHeader => "module is too short to hold a header"
  | magic bytes => s!"bad magic number {hexList bytes}"
  | version bytes => s!"unsupported version {hexList bytes}"
  | sectionLeft id offset size left =>
    s!"section {id} at offset {hex offset} declares {size} bytes but {left} were left unread"
  | bodyCount functions bodies =>
    s!"{functions} function(s) declared but {bodies} code bodies found"
  | typeForm form offset =>
    s!"expected function type 0x60, got {hexByte form.toNat} at offset {hex offset}"
  | importKind kind module name =>
    s!"unknown import kind {hexByte kind.toNat} for `{module}.{name}`"
  | exportKind kind name => s!"unknown export kind {hexByte kind.toNat} for `{name}`"
  | codeCount bodies functions =>
    s!"code section holds {bodies} bodies for {functions} declared function(s)"
  | tooManyLocals function limit =>
    s!"too many locals in function {function}, at most {limit} allowed"
  | dataFlags segment flags => s!"data segment {segment} has unknown flags {flags}"
  | dataOffsetType segment found =>
    s!"data segment {segment} offset evaluated to {found.text}, expected i32"
  | dataOffset segment reason =>
    s!"data segment {segment} offset could not be evaluated: {reason}"
  | typeIndex index offset => s!"type index {index} out of range at offset {hex offset}"
  | limitsFlags flags => s!"unknown limits flags {hexByte flags.toNat}"
  | memorySize limits =>
      s!"memory size must be at most {maxPages} pages, got {limits.text}"
  | memoryMaximum limits => s!"memory maximum is below its minimum, got {limits.text}"
  | mutability flag => s!"unknown mutability {hexByte flag.toNat}"
  | extendedOpcode owner number offset =>
    s!"{owner}: unknown opcode 0xfc {hex number} at offset {hex offset}"
  | opcode owner code offset =>
    s!"{owner}: unknown opcode {hexByte code} at offset {hex offset}"
  | blockType index offset => s!"invalid block type {index} at offset {hex offset}"
  | callee owner function offset =>
    s!"{owner}: call to unknown function {function} at offset {hex offset}"
  | memoryIndex owner index offset =>
    s!"{owner}: memory index {index} at offset {hex offset}, only memory 0 is supported"
  | functionExport name => s!"module has no function export `{name}`"
  | exportedFunction name => s!"export `{name}` refers to a missing function"
  | globalExport name => s!"module has no global export `{name}`"
  | reported text => text

end FormatFault

/-- Why instructions do not nest into a body. -/
inductive StructureFault where
  | missingEnd (owner : String) (scopes : Nat)
  | strayElse (owner : String) (offset : Nat)
  | strayHandler (owner : String) (handler : Opcode) (offset : Nat)
  | bytesAfterEnd (owner : String) (count : Nat)
  /-- Reported from outside, in the words given. -/
  | reported (text : String)
  deriving DecidableEq

namespace StructureFault

/-- The wording of each fault. -/
def message : StructureFault → String
  | missingEnd owner scopes =>
    s!"{owner}: body ends without `end`, {scopes} scope(s) still open"
  | strayElse owner offset =>
      s!"{owner}: `else` without a matching `if` at offset {hex offset}"
  | strayHandler owner handler offset =>
    s!"{owner}: `{handler.name}` without a matching `try` at offset {hex offset}"
  | bytesAfterEnd owner count => s!"{owner}: {count} byte(s) after the final `end`"
  | reported text => text

end StructureFault

/-- The classes of traps. -/
inductive TrapCode where
  | unreachable | unimplemented | divisionByZero | integerOverflow | invalidConversion
  | memoryOutOfBounds | stackUnderflow | typeMismatch | invalidBranch
  | unboundImport | host | callStackExhausted | uninitializedGlobal
  | uncaughtException | interrupted | reentrant
  deriving DecidableEq

/-- The class as messages name it. -/
def TrapCode.text : TrapCode → String
  | unreachable => "unreachable"
  | unimplemented => "unimplemented opcode"
  | divisionByZero => "integer divide by zero"
  | integerOverflow => "integer overflow"
  | invalidConversion => "invalid conversion to integer"
  | memoryOutOfBounds => "out of bounds memory access"
  | stackUnderflow => "value stack underflow"
  | typeMismatch => "type mismatch"
  | invalidBranch => "invalid branch depth"
  | unboundImport => "unbound import"
  | host => "host error"
  | callStackExhausted => "call stack exhausted"
  | uninitializedGlobal => "uninitialized global"
  | uncaughtException => "uncaught exception"
  | interrupted => "interrupted"
  | reentrant => "re-entrant call"

/-- Why execution cannot go on. -/
inductive Trap where
  | unreachable
  | notImplemented (code : Nat)
  | callIndirect
  | noFunction (function : Nat)
  | divisionByZero (w : Width) (op : IntBinary)
  | divisionOverflow (w : Width)
  | notANumber
  /-- A number, given by its 64-bit pattern, that the integer type cannot hold. -/
  | outOfRange (bits : BitVec 64) (target : Width) (s : Sign)
  | access (length start size : Nat)
  | noMemory
  | noSegment (segment : Nat)
  | segmentRange (length start segment size : Nat)
  | segmentWithoutMemory (segment : Nat)
  | emptyStack
  | shortStack (wanted found : Nat)
  | noLocal (index : Nat)
  | noConstant
  | typeMismatch (expected : ValType) (found : Value)
  | globalImportType (module name : String) (expected : ValType) (found : Value)
  | invalidBranch (depth scopes : Nat)
  | unboundFunction (name : String)
  | unboundGlobal (index : Nat)
  | noBody (name : String)
  /-- A host function failed; the reasons are given outermost first. -/
  | hostFailed (name : String) (reasons : List String)
  | hostNoValue (name : String)
  | callDepth (limit : Nat)
  | noGlobal (index : Nat)
  | noInitializer (index : Nat)
  | globalCycle (index : Nat)
  | initializerEmpty (index : Nat)
  | globalEmpty (index : Nat)
  | uncaught (tag : Nat)
  | strayRethrow
  | interrupted (text : String)
  | busyCall
  | busyObserver
  /-- Reported from outside, with its class and in the words given. -/
  | reported (code : TrapCode) (text : String)
  deriving DecidableEq

namespace Trap

/-- The class that a trap belongs to. -/
def code : Trap → TrapCode
  | unreachable => .unreachable
  | notImplemented _ | callIndirect | noFunction _ => .unimplemented
  | divisionByZero .. => .divisionByZero
  | divisionOverflow _ | outOfRange .. => .integerOverflow
  | notANumber => .invalidConversion
  | access .. | noMemory | noSegment _ | segmentRange .. | segmentWithoutMemory _ =>
    .memoryOutOfBounds
  | emptyStack | shortStack .. | noLocal _ | noConstant => .stackUnderflow
  | typeMismatch .. | globalImportType .. => .typeMismatch
  | invalidBranch .. => .invalidBranch
  | unboundFunction _ | unboundGlobal _ | noBody _ => .unboundImport
  | hostFailed .. | hostNoValue _ => .host
  | callDepth _ => .callStackExhausted
  | noGlobal _ | noInitializer _ | globalCycle _ | initializerEmpty _ | globalEmpty _ =>
    .uninitializedGlobal
  | uncaught _ | strayRethrow => .uncaughtException
  | interrupted _ => .interrupted
  | busyCall | busyObserver => .reentrant
  | reported code _ => code

/-- The integer type that a conversion aims at. -/
def targetName (w : Width) : Sign → String
  | .signed => w.intName
  | .unsigned => "u" ++ toString w.bits

/-- The wording of each trap. -/
def message : Trap → String
  | unreachable => "`unreachable` executed"
  | notImplemented code => s!"opcode {hexByte code} is not implemented"
  | callIndirect => "`call_indirect` needs a table and tables are not supported"
  | noFunction function => s!"function {function} does not exist"
  | divisionByZero w op => s!"{w.intName}.{op.name} by zero"
  | divisionOverflow w => s!"{w.intName}.div_s overflow"
  | notANumber => "cannot convert NaN to an integer"
  | outOfRange bits target s =>
    s!"{Decimal.ofBits Ieee.Format.double bits.toNat} is out of range for {targetName target s}"
  | access length start size =>
    s!"access of {length} byte(s) at {hex start} exceeds memory size {hex size}"
  | noMemory => "module has no memory"
  | noSegment segment => s!"data segment {segment} does not exist"
  | segmentRange length start segment size =>
    s!"{length} byte(s) at {start} exceed data segment {segment} of {size} byte(s)"
  | segmentWithoutMemory segment =>
    s!"data segment {segment} targets a module without memory"
  | emptyStack => "value stack is empty"
  | shortStack wanted found =>
      s!"{wanted} value(s) needed but only {found} on the stack"
  | noLocal index => s!"local {index} does not exist"
  | noConstant => "constant expression left no value"
  | typeMismatch expected found => s!"expected {expected.name}, found {found.text}"
  | globalImportType module name expected found =>
    s!"global import `{module}.{name}` is {expected.name}, got {found.text}"
  | invalidBranch depth scopes =>
    s!"branch depth {depth} exceeds the {scopes} open scope(s)"
  | unboundFunction name => s!"import `{name}` is not bound"
  | unboundGlobal index => s!"imported global {index} was not given a value"
  | noBody name => s!"`{name}` has no body to execute"
  | hostFailed name reasons =>
    s!"import `{name}` failed: " ++ ": ".intercalate reasons
  | hostNoValue name => s!"import `{name}` returned no value"
  | callDepth limit => s!"more than {limit} nested calls"
  | noGlobal index => s!"global {index} does not exist"
  | noInitializer index => s!"global {index} has no initializer"
  | globalCycle index => s!"global {index} is read while its own initializer is running"
  | initializerEmpty index => s!"initializer of global {index} left no value"
  | globalEmpty index => s!"global {index} has no value"
  | uncaught tag => s!"exception with tag {tag} thrown and never caught"
  | strayRethrow => "`rethrow` outside a running handler"
  | interrupted text => text
  | busyCall => "instance called again while a call is running"
  | busyObserver => "observer read while a call is running"
  | reported _ text => text

end Trap

/-- The instruction that a trap is charged to. -/
structure Site where
  op : Opcode
  /-- The function or initializer that the instruction belongs to. -/
  owner : String
  /-- Scopes open around the instruction. -/
  depth : Nat
  deriving DecidableEq

/-- The site as it stands behind a message. -/
def Site.text (s : Site) : String :=
  s!" (at `{s.op.name}` in `{s.owner}`, scope depth {s.depth})"

/-- Every failure of the library. -/
inductive Error where
  | format (fault : FormatFault)
  | structural (fault : StructureFault)
  | trap (cause : Trap) (site : Option Site)
  deriving DecidableEq

namespace Error

/-- The kind, then the message, then for a trap raised by an instruction its site. -/
def text : Error → String
  | format fault => "Format Error: " ++ fault.message
  | structural fault => "Structure Error: " ++ fault.message
  | trap cause site =>
    s!"Trap ({cause.code.text}): " ++ cause.message ++ (site.map Site.text).getD ""

/-- Whether the failure happened during execution. -/
def isTrap : Error → Bool
  | trap .. => true
  | _ => false

/-- Charges a trap to a site; other errors have none.  A site that it was charged to
before stays as part of its wording. -/
def chargedTo (e : Error) (site : Site) : Error :=
  match e with
  | trap cause none => trap cause (some site)
  | trap cause (some inner) =>
    trap (.reported cause.code (cause.message ++ inner.text)) (some site)
  | other => other

end Error

/-- Why a computation with bounded steps gives no answer. -/
inductive Halt where
  | error (e : Error)
  /-- The bound was reached before the end. -/
  | outOfFuel
  /-- A look-up failed that the checks before it rule out. -/
  | badIndex
  deriving DecidableEq

namespace Value

/-- The operand of an instruction that wants an `i32`. -/
def asI32 : Value → Except Trap (BitVec 32)
  | i32 v => .ok v
  | other => .error (.typeMismatch .i32 other)

/-- The operand of an instruction that wants an `i64`. -/
def asI64 : Value → Except Trap (BitVec 64)
  | i64 v => .ok v
  | other => .error (.typeMismatch .i64 other)

/-- The bits of the operand of an instruction that wants an `f32`. -/
def asF32 : Value → Except Trap (BitVec 32)
  | f32 bits => .ok bits
  | other => .error (.typeMismatch .f32 other)

/-- The bits of the operand of an instruction that wants an `f64`. -/
def asF64 : Value → Except Trap (BitVec 64)
  | f64 bits => .ok bits
  | other => .error (.typeMismatch .f64 other)

/-- A condition: any `i32` but zero. -/
def isTruthy (v : Value) : Except Trap Bool :=
  return (← v.asI32) != 0

end Value

end WasmVm
