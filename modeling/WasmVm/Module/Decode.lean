/-
Decoding modules.  Sections are read in the order they come, each against what
the sections before it have declared.  Offsets of data segments are constant
expressions; how to evaluate one is a parameter.
-/
import WasmVm.Body.Nesting
import WasmVm.Module.Names

namespace WasmVm

/-- A read that may also run out of fuel. -/
abbrev Decoding := EStateM Halt Cursor

namespace Decoding

variable {α : Type}

/-- A read that needs no fuel. -/
def ofReading (read : Reading α) : Decoding α := fun c =>
  match read c with
  | .ok a c => .ok a c
  | .error e c => .error (.error e) c

instance : MonadLift Reading Decoding where
  monadLift := ofReading

/-- Refuses the input. -/
def fail (e : Error) : Decoding α := fun c =>
  .error (.error e) c

/-- Gives up for the reason given. -/
def halt (h : Halt) : Decoding α := fun c =>
  .error h c

/-- Repeats a read that builds on what it has, with the number of the turn. -/
def forRange (read : Nat → α → Decoding α) : (left turn : Nat) → α → Decoding α
  | 0, _, a => pure a
  | left + 1, turn, a => do forRange read left (turn + 1) (← read turn a)

/-- Reads inside another window, then goes on in this one. -/
def within (inner : Cursor) (read : Decoding α) : Decoding (α × Cursor) := fun c =>
  match read inner with
  | .ok a inner => .ok (a, inner) c
  | .error h _ => .error h c

end Decoding

/-- Locals that a function may declare, its parameters included. -/
def maxLocals : Nat := 50000

namespace Reading

/-- A counted run of value types. -/
def valTypes : Reading (List ValType) := do
  let count ← u32
  return (← many valType count).toList

/-- A signature behind its form byte. -/
def funcType : Reading FuncType := do
  let form ← byte
  if form = 0x60 then
    let params ← valTypes
    let results ← valTypes
    return ⟨params, results⟩
  else
    let after ← offset
    fail (.typeForm form (after - 1))

/-- The index of a signature declared before. -/
def typeIndex (m : Module) : Reading Nat := do
  let start ← offset
  let index ← u32
  if index < m.types.size then return index else fail (.typeIndex index start)

/-- Limits behind their flags: the lowest bit tells whether there is a maximum. -/
def limits : Reading Limits := do
  let flags ← byte
  let min ← u32
  if flags = 0 ∨ flags = 2 then return ⟨min, none⟩
  else if flags = 1 ∨ flags = 3 then return ⟨min, some (← u32)⟩
  else fail (.limitsFlags flags)

/-- Limits of a memory: no more pages than can be addressed, and in order. -/
def memoryLimits : Reading Limits := do
  let l ← limits
  if maxPages < l.min ∨ l.max.any (maxPages < ·) then fail (.memorySize l)
  else if l.max.any (· < l.min) then fail (.memoryMaximum l)
  else return l

/-- Whether a global may be set. -/
def mutability : Reading Bool := do
  let flag ← byte
  if flag = 0 then return false
  else if flag = 1 then return true
  else fail (.mutability flag)

/-- An import: two names, a kind and what the kind asks for. -/
def importEntry (m : Module) : Reading Import := do
  let module ← name
  let name ← name
  let kind ← byte
  if kind = 0 then return ⟨module, name, .function (← typeIndex m)⟩
  else if kind = 1 then
    let _ ← byte
    return ⟨module, name, .table (← limits)⟩
  else if kind = 2 then return ⟨module, name, .memory (← memoryLimits)⟩
  else if kind = 3 then
    let type ← valType
    let isMutable ← mutability
    return ⟨module, name, .global type isMutable⟩
  else if kind = 4 then
    let _ ← byte
    return ⟨module, name, .tag (← typeIndex m)⟩
  else fail (.importKind kind module name)

/-- A tag: an attribute that is ignored, then a signature. -/
def tag (m : Module) : Reading Nat := do
  let _ ← byte
  typeIndex m

/-- The kind of an export; the name is for the message. -/
def exportKind (name : String) : Reading ExportKind := do
  let kind ← byte
  if kind = 0 then return .function
  else if kind = 1 then return .table
  else if kind = 2 then return .memory
  else if kind = 3 then return .global
  else if kind = 4 then return .tag
  else fail (.exportKind kind name)

/-- An export: a name, a kind and an index, which is not checked here. -/
def exportEntry : Reading Export := do
  let name ← name
  let kind ← exportKind name
  return ⟨name, kind, ← u32⟩

/-- The next global, whose initializer may use what is declared so far. -/
def global (m : Module) : Reading Global := do
  let type ← valType
  let isMutable ← mutability
  let start ← get
  let owner := s!"global {m.importedGlobals + m.globals.size} initializer"
  let body ← body m owner (.value type)
  return ⟨type, isMutable, (← get).since start.pos, body⟩

/-- Adds a run of locals of one type. -/
def localGroup (function : Nat) (locals : Array ValType) : Reading (Array ValType) := do
  let count ← u32
  let type ← valType
  if maxLocals < locals.size + count then fail (.tooManyLocals function maxLocals)
  else return locals ++ Array.replicate count type

/-- The contents of a code entry: local groups, then the body, to the last byte. -/
def code (m : Module) (function typeIndex : Nat) (type : FuncType) : Reading Code := do
  let groups ← u32
  let locals ← forRange (fun _ => localGroup function) groups 0 type.params.toArray
  let owner := s!"function `{m.functionName function}`"
  let body ← body m owner (.func typeIndex)
  let after ← get
  if after.isFinished then return ⟨locals, type.params.length, body⟩
  else throw (.structural (.bytesAfterEnd owner after.remaining))

/-- The header: four bytes of magic and four of version. -/
def header : Reading Unit := fun c =>
  match bytes 4 c with
  | .error _ c => .error (.format .shortHeader) c
  | .ok magic c =>
    if magic.toList ≠ [0x00, 0x61, 0x73, 0x6d] then
      .error (.format (.magic magic.toList)) c
    else
      match bytes 4 c with
      | .error _ c => .error (.format .shortHeader) c
      | .ok version c =>
        if version.toList ≠ [1, 0, 0, 0] then
          .error (.format (.version version.toList)) c
        else .ok () c

end Reading

namespace Decoding

/-- A counted section whose entries are added to the module one by one. -/
def entries (add : Nat → Module → Decoding Module) (m : Module) : Decoding Module := do
  let count ← Reading.u32
  forRange add count 0 m

/-- Signatures. -/
def types (m : Module) : Decoding Module :=
  entries (fun _ m => return { m with types := m.types.push (← Reading.funcType) }) m

/-- Imports, each against the signatures known. -/
def imports (m : Module) : Decoding Module :=
  entries (fun _ m =>
    return { m with imports := m.imports.push (← Reading.importEntry m) }) m

/-- Signatures of the functions defined. -/
def functions (m : Module) : Decoding Module :=
  entries (fun _ m =>
    return { m with functions := m.functions.push (← Reading.typeIndex m) }) m

/-- Memories defined. -/
def memories (m : Module) : Decoding Module :=
  entries (fun _ m =>
    return { m with memories := m.memories.push (← Reading.memoryLimits) }) m

/-- Tags defined. -/
def tags (m : Module) : Decoding Module :=
  entries (fun _ m => return { m with tags := m.tags.push (← Reading.tag m) }) m

/-- Globals, each of whose initializers sees those before it. -/
def globals (m : Module) : Decoding Module :=
  entries (fun _ m => return { m with globals := m.globals.push (← Reading.global m) })
    m

/-- Exports. -/
def exports (m : Module) : Decoding Module :=
  entries (fun _ m =>
    return { m with exports := m.exports.push (← Reading.exportEntry) }) m

/-- The code of the function number `turn` among those defined. -/
def code (turn : Nat) (m : Module) : Decoding Module := do
  let size ← Reading.u32
  let entry ← Reading.window size
  match m.functions[turn]? with
  | none => halt .badIndex
  | some typeIndex =>
    match m.types[typeIndex]? with
    | none => halt .badIndex
    | some type =>
      let (code, _) ← within entry
        (Reading.code m (m.importedFunctions + turn) typeIndex type)
      return { m with codes := m.codes.push code }

/-- The code section has one entry for every function declared. -/
def codes (m : Module) : Decoding Module := do
  let count ← Reading.u32
  if count ≠ m.functions.size then fail (.format (.codeCount count m.functions.size))
  else forRange code count 0 m

/-- The offset of an active segment, evaluated on the spot. -/
def activeOffset (evaluate : List UInt8 → Except Halt Value) (m : Module)
    (segment : Nat) :
    Decoding Nat := do
  let start ← get
  let _ ← Reading.body m s!"data segment {segment} offset" (.value .i32)
  match evaluate ((← get).since start.pos) with
  | .ok (.i32 v) => return v.toNat
  | .ok other => fail (.format (.dataOffsetType segment other))
  | .error (.error e) => fail (.format (.dataOffset segment e.text))
  | .error other => halt other

/-- How a segment gets into memory. -/
def dataMode (evaluate : List UInt8 → Except Halt Value) (m : Module) (segment : Nat) :
    Decoding DataMode := do
  let flags ← Reading.u32
  match flags with
  | 0 => return .active 0 (← activeOffset evaluate m segment)
  | 1 => return .passive
  | 2 =>
    let memory ← Reading.u32
    return .active memory (← activeOffset evaluate m segment)
  | other => fail (.format (.dataFlags segment other))

/-- Data segments. -/
def segments (evaluate : List UInt8 → Except Halt Value) (m : Module) :
    Decoding Module :=
  entries (fun turn m => do
    let mode ← dataMode evaluate m turn
    let length ← Reading.u32
    let bytes ← Reading.bytes length
    return { m with segments := m.segments.push ⟨mode, bytes.toList⟩ }) m

/-- A custom section has a readable name; only one that holds function names is
looked into. -/
def custom (m : Module) : Decoding Module := do
  let name ← Reading.name
  if name = "name" then return { m with names := Names.add m.names (← get) }
  else return m

/-- The reader of a section's contents, for the sections that must be read to the
last byte. -/
def sectionReader (evaluate : List UInt8 → Except Halt Value) (id : UInt8) :
    Option (Module → Decoding Module) :=
  if id = 1 then some types
  else if id = 2 then some imports
  else if id = 3 then some functions
  else if id = 5 then some memories
  else if id = 6 then some globals
  else if id = 7 then some exports
  else if id = 10 then some codes
  else if id = 11 then some (segments evaluate)
  else if id = 12 then some fun m =>
    return { m with segmentCount := some (← Reading.u32) }
  else if id = 13 then some tags
  else none

/-- One section.  Sections of unknown numbers are skipped. -/
def oneSection (evaluate : List UInt8 → Except Halt Value) (m : Module) :
    Decoding Module := do
  let id ← Reading.byte
  let size ← Reading.u32
  let start ← Reading.offset
  let contents ← Reading.window size
  match sectionReader evaluate id with
  | some read =>
    let (m, after) ← within contents (read m)
    if after.isFinished then return m
    else fail (.format (.sectionLeft id start size after.remaining))
  | none =>
    if id = 0 then
      let (m, _) ← within contents (custom m)
      return m
    else return m

/-- Sections to the end of the input, with fuel for each byte. -/
def sections (evaluate : List UInt8 → Except Halt Value) :
    (fuel : Nat) → Module → Decoding Module
  | 0, m => return m
  | fuel + 1, m => do
    if (← get).isFinished then return m
    else sections evaluate fuel (← oneSection evaluate m)

/-- A whole module.  In the end every function declared has a body. -/
def wholeModule (evaluate : List UInt8 → Except Halt Value) : Decoding Module := do
  Reading.header
  let m ← sections evaluate (← get).remaining {}
  if m.codes.size = m.functions.size then return m
  else fail (.format (.bodyCount m.functions.size m.codes.size))

end Decoding

/-- Decodes a binary, given a way to evaluate constant expressions. -/
def Module.decodeWith (evaluate : List UInt8 → Except Halt Value)
    (bytes : Array UInt8) :
    Except Halt Module :=
  match Decoding.wholeModule evaluate (Cursor.ofBytes bytes) with
  | .ok m _ => .ok m
  | .error h _ => .error h

end WasmVm
