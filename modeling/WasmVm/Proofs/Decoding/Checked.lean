/-
Decoding with all accesses checked.  Here the decoder is written out with every access
that takes something for granted: that the position is inside its window, that a slice
is, that a number can be subtracted, that an index exists, that some scope is open.
Where that is not so it gives up with `badIndex`.  Loops that end with the input have
fuel, and give up with `outOfFuel` when it is used up.  Reads that take one byte after
the other take nothing for granted and stay as they are.
-/
import WasmVm.ConstExpr

namespace WasmVm.Checked

open Decoding (halt fail within)

variable {α : Type}

/-! ### Windows -/

/-- Goes on if what is taken for granted holds. -/
def require (p : Prop) [Decidable p] : Decoding Unit :=
  if p then return () else halt .badIndex

/-- Something that has to be there. -/
def present : Option α → Decoding α
  | some a => return a
  | none => halt .badIndex

/-- Bytes of the window still to be read. -/
def remaining : Decoding Nat := do
  let c ← get
  require (c.pos ≤ c.bytes.size)
  return c.bytes.size - c.pos

/-- A part of the window. -/
def slice (start stop : Nat) : Decoding (Array UInt8) := do
  let c ← get
  require (start ≤ stop ∧ stop ≤ c.bytes.size)
  return c.bytes.extract start stop

/-- The next `count` bytes. -/
def bytes (count : Nat) : Decoding (Array UInt8) := do
  let left ← remaining
  let c ← get
  if left < count then fail (.format (.shortInput count c.offset left))
  else
    let taken ← slice c.pos (c.pos + count)
    set (c.advance count)
    return taken

/-- The next `count` bytes as a window of their own. -/
def window (count : Nat) : Decoding Cursor := do
  let base ← Reading.offset
  return ⟨← bytes count, 0, base⟩

/-- A read, and the bytes that it has taken. -/
def consumed (read : Decoding α) : Decoding (α × List UInt8) := do
  let start ← get
  let a ← read
  let after ← get
  return (a, (← slice start.pos after.pos).toList)

/-- A name. -/
def name : Decoding String := do
  let length ← Reading.u32
  return Text.ofUtf8 (← bytes length).toList

/-- A number of a fixed size, which is copied to a place of that size. -/
def fixed (count : Nat) : Decoding Nat := do
  let taken ← bytes count
  require (taken.size = count)
  return ofLittleEndian taken.toList

/-! ### Bodies -/

/-- A constant. -/
def constant : ValType → Decoding Value
  | .f32 => return .f32 (BitVec.ofNat 32 (← fixed 4))
  | .f64 => return .f64 (BitVec.ofNat 64 (← fixed 8))
  | t => Reading.constant t

/-- The callee of a call.  Functions that are defined are numbered on from those
imported. -/
def callTarget (m : Module) (owner : String) : Decoding CallTarget := do
  let start ← Reading.offset
  let function ← Reading.u32
  require ((m.functionImport? function).isNone → m.importedFunctions ≤ function)
  match m.callTarget? function with
  | some target => return target
  | none => fail (.format (.callee owner function start))

/-- The next instruction. -/
def item (m : Module) (owner : String) : Decoding Item := do
  match ← Reading.opcode owner with
  | .const t => return .plain (.const (← constant t))
  | .call => return .plain (.call (← callTarget m owner))
  | op => Reading.operands m owner op

/-- What placing an instruction leads to; the open scopes are a stack that might be
empty. -/
inductive Placed where
  | more (scopes : List OpenScope)
  | done (root : Node)

/-- The innermost scope, which has to be there. -/
def top (scopes : List OpenScope) : Except Halt OpenScope :=
  match scopes with
  | [] => .error .badIndex
  | scope :: _ => .ok scope

/-- The innermost scope and those around it. -/
def pop (scopes : List OpenScope) : Except Halt (OpenScope × List OpenScope) :=
  match scopes with
  | [] => .error .badIndex
  | scope :: outer => .ok (scope, outer)

/-- Changes the innermost scope. -/
def mapTop (f : OpenScope → OpenScope) (scopes : List OpenScope) :
    Except Halt (List OpenScope) := do
  let (scope, outer) ← pop scopes
  return f scope :: outer

/-- Closes the innermost scope, which goes into the one around it. -/
def leave (scopes : List OpenScope) : Except Halt Placed := do
  let (scope, outer) ← pop scopes
  return .more (← mapTop (·.push scope.toNode) outer)

/-- Refuses the body. -/
def refuse (fault : StructureFault) : Except Halt α :=
  .error (.error (.structural fault))

/-- Places an instruction.  Marks that belong to a scope are refused at the bottom. -/
def place (owner : String) (id offset : Nat) (scopes : List OpenScope) :
    Item → Except Halt Placed
  | .nop => return .more scopes
  | .openScope kind type => return .more ({ id, kind, type } :: scopes)
  | .otherwise => do
    let scope ← top scopes
    if 1 < scopes.length ∧ scope.takesElse then
      return .more
        (← mapTop (fun scope => { scope with alternative := some #[] }) scopes)
    else refuse (.strayElse owner offset)
  | .catchTag tag => do
    let scope ← top scopes
    if 1 < scopes.length ∧ scope.takesHandler then
      return .more (← mapTop (·.pushHandler (.plain id (.catchTag tag))) scopes)
    else refuse (.strayHandler owner .catchTag offset)
  | .catchAll => do
    let scope ← top scopes
    if 1 < scopes.length ∧ scope.takesHandler then
      return .more (← mapTop (·.pushHandler (.plain id .catchAll)) scopes)
    else refuse (.strayHandler owner .catchAll offset)
  | .delegate depth => do
    let scope ← top scopes
    if 1 < scopes.length ∧ scope.takesDelegate then
      leave (← mapTop (·.push (.plain id (.delegate depth))) scopes)
    else refuse (.strayHandler owner .delegate offset)
  | .close => do
    if scopes.length = 1 then
      let (root, _) ← pop scopes
      return .done root.toNode
    else leave scopes
  | .plain instr => return .more (← mapTop (·.push (.plain id instr)) scopes)

/-- Places instructions until the body is complete. -/
def nest (m : Module) (owner : String) :
    (fuel id : Nat) → List OpenScope → Decoding Node
  | 0, _, _ => halt .outOfFuel
  | fuel + 1, id, scopes => do
    if (← get).isFinished then fail (.structural (.missingEnd owner scopes.length))
    else
      let offset ← Reading.offset
      let item ← item m owner
      match place owner id offset scopes item with
      | .error h => halt h
      | .ok (.done root) => return root
      | .ok (.more scopes) => nest m owner fuel (id + 1) scopes

/-- A body up to its final `end`. -/
def body (m : Module) (owner : String) (type : BlockType) : Decoding Node := do
  nest m owner ((← get).remaining + 1) 1 [{ id := 0, kind := .block, type }]

/-! ### Entries -/

/-- A signature. -/
def funcType : Decoding FuncType := do
  let form ← Reading.byte
  if form = 0x60 then
    let params ← Reading.valTypes
    let results ← Reading.valTypes
    return ⟨params, results⟩
  else
    let after ← Reading.offset
    require (1 ≤ after)
    fail (.format (.typeForm form (after - 1)))

/-- An import. -/
def importEntry (m : Module) : Decoding Import := do
  let module ← name
  let name ← name
  let kind ← Reading.byte
  if kind = 0 then return ⟨module, name, .function (← Reading.typeIndex m)⟩
  else if kind = 1 then
    let _ ← Reading.byte
    return ⟨module, name, .table (← Reading.limits)⟩
  else if kind = 2 then return ⟨module, name, .memory (← Reading.memoryLimits)⟩
  else if kind = 3 then
    let type ← Reading.valType
    let isMutable ← Reading.mutability
    return ⟨module, name, .global type isMutable⟩
  else if kind = 4 then
    let _ ← Reading.byte
    return ⟨module, name, .tag (← Reading.typeIndex m)⟩
  else fail (.format (.importKind kind module name))

/-- An export. -/
def exportEntry : Decoding Export := do
  let name ← name
  let kind ← Reading.exportKind name
  return ⟨name, kind, ← Reading.u32⟩

/-- A global. -/
def global (m : Module) : Decoding Global := do
  let type ← Reading.valType
  let isMutable ← Reading.mutability
  let owner := s!"global {m.importedGlobals + m.globals.size} initializer"
  let (body, init) ← consumed (body m owner (.value type))
  return ⟨type, isMutable, init, body⟩

/-- The contents of a code entry. -/
def codeEntry (m : Module) (function typeIndex : Nat) (type : FuncType) :
    Decoding Code := do
  let groups ← Reading.u32
  let locals ← Reading.forRange (fun _ => Reading.localGroup function) groups 0
    type.params.toArray
  let owner := s!"function `{m.functionName function}`"
  let body ← body m owner (.func typeIndex)
  if (← get).isFinished then return ⟨locals, type.params.length, body⟩
  else fail (.structural (.bytesAfterEnd owner (← remaining)))

/-! ### Sections -/

/-- The code of a function, whose signature has to be there. -/
def code (turn : Nat) (m : Module) : Decoding Module := do
  let size ← Reading.u32
  let entry ← window size
  let typeIndex ← present m.functions[turn]?
  let type ← present m.types[typeIndex]?
  let (code, _) ← within entry (codeEntry m (m.importedFunctions + turn) typeIndex type)
  return { m with codes := m.codes.push code }

/-- The code section. -/
def codes (m : Module) : Decoding Module := do
  let count ← Reading.u32
  if count ≠ m.functions.size then fail (.format (.codeCount count m.functions.size))
  else Decoding.forRange code count 0 m

/-- The offset of an active segment. -/
def activeOffset (evaluate : List UInt8 → Except Halt Value) (m : Module)
    (segment : Nat) :
    Decoding Nat := do
  let (_, expr) ← consumed (body m s!"data segment {segment} offset" (.value .i32))
  match evaluate expr with
  | .ok (.i32 v) => return v.toNat
  | .ok other => fail (.format (.dataOffsetType segment other))
  | .error (.error e) => fail (.format (.dataOffset segment e.text))
  | .error other => halt other

/-- How a segment gets into memory. -/
def dataMode (evaluate : List UInt8 → Except Halt Value) (m : Module) (segment : Nat) :
    Decoding DataMode := do
  let flags ← Reading.u32
  match flags with
  | 0 => return .active 0 (← activeOffset evaluate m segment)
  | 1 => return .passive
  | 2 =>
    let memory ← Reading.u32
    return .active memory (← activeOffset evaluate m segment)
  | other => fail (.format (.dataFlags segment other))

/-- A data segment. -/
def segment (evaluate : List UInt8 → Except Halt Value) (turn : Nat) (m : Module) :
    Decoding Module := do
  let mode ← dataMode evaluate m turn
  let length ← Reading.u32
  let bytes ← bytes length
  return { m with segments := m.segments.push ⟨mode, bytes.toList⟩ }

/-- An index and its name. -/
def nameEntry : Decoding (Nat × String) := do
  let index ← Reading.u32
  let name ← name
  return (index, name)

/-- Adds names until one is malformed. -/
def addEntries : (left : Nat) → Names → Cursor → Except Halt (Names × Bool)
  | 0, names, _ => .ok (names, true)
  | left + 1, names, c =>
    match nameEntry c with
    | .ok (index, name) c => addEntries left (names.insert index name) c
    | .error (.error _) _ => .ok (names, false)
    | .error h _ => .error h

/-- A subsection's number and contents. -/
def subsection : Decoding (UInt8 × Cursor) := do
  let id ← Reading.byte
  let size ← Reading.u32
  return (id, ← window size)

/-- Adds the names of every subsection. -/
def addSubsections : (fuel : Nat) → Names → Cursor → Except Halt Names
  | 0, _, _ => .error .outOfFuel
  | fuel + 1, names, c =>
    if c.isFinished then .ok names
    else
      match subsection c with
      | .error (.error _) _ => .ok names
      | .error h _ => .error h
      | .ok (id, inner) c =>
        if id ≠ 1 then addSubsections fuel names c
        else
          match Reading.u32 inner with
          | .error _ _ => .ok names
          | .ok count inner =>
            match addEntries count names inner with
            | .error h => .error h
            | .ok (names, true) => addSubsections fuel names c
            | .ok (names, false) => .ok names

/-- A custom section. -/
def custom (m : Module) : Decoding Module := do
  let name ← name
  if name = "name" then
    let c ← get
    match addSubsections (c.remaining + 1) m.names c with
    | .ok names => return { m with names }
    | .error h => halt h
  else return m

/-- The readers of sections. -/
def sectionReader (evaluate : List UInt8 → Except Halt Value) (id : UInt8) :
    Option (Module → Decoding Module) :=
  if id = 1 then
    some (Decoding.entries fun _ m =>
      return { m with types := m.types.push (← funcType) })
  else if id = 2 then
    some (Decoding.entries fun _ m =>
      return { m with imports := m.imports.push (← importEntry m) })
  else if id = 6 then
    some (Decoding.entries fun _ m =>
      return { m with globals := m.globals.push (← global m) })
  else if id = 7 then
    some (Decoding.entries fun _ m =>
      return { m with exports := m.exports.push (← exportEntry) })
  else if id = 10 then some codes
  else if id = 11 then some (Decoding.entries (segment evaluate))
  else Decoding.sectionReader evaluate id

/-- One section. -/
def oneSection (evaluate : List UInt8 → Except Halt Value) (m : Module) :
    Decoding Module := do
  let id ← Reading.byte
  let size ← Reading.u32
  let start ← Reading.offset
  let contents ← window size
  match sectionReader evaluate id with
  | some read =>
    let (m, after) ← within contents (read m)
    if after.isFinished then return m
    else
      let (left, _) ← within after remaining
      fail (.format (.sectionLeft id start size left))
  | none =>
    if id = 0 then
      let (m, _) ← within contents (custom m)
      return m
    else return m

/-- Sections to the end of the input. -/
def sections (evaluate : List UInt8 → Except Halt Value) :
    (fuel : Nat) → Module → Decoding Module
  | 0, _ => halt .outOfFuel
  | fuel + 1, m => do
    if (← get).isFinished then return m
    else sections evaluate fuel (← oneSection evaluate m)

/-- The header. -/
def header : Decoding Unit := fun c =>
  match bytes 4 c with
  | .error (.error _) c => .error (.error (.format .shortHeader)) c
  | .error h c => .error h c
  | .ok magic c =>
    if magic.toList ≠ [0x00, 0x61, 0x73, 0x6d] then
      .error (.error (.format (.magic magic.toList))) c
    else
      match bytes 4 c with
      | .error (.error _) c => .error (.error (.format .shortHeader)) c
      | .error h c => .error h c
      | .ok version c =>
        if version.toList ≠ [1, 0, 0, 0] then
          .error (.error (.format (.version version.toList))) c
        else .ok () c

/-- A whole module. -/
def wholeModule (evaluate : List UInt8 → Except Halt Value) : Decoding Module := do
  header
  let m ← sections evaluate ((← get).remaining + 1) {}
  if m.codes.size = m.functions.size then return m
  else fail (.format (.bodyCount m.functions.size m.codes.size))

/-- Decodes a binary, given a way to evaluate constant expressions. -/
def decodeWith (evaluate : List UInt8 → Except Halt Value) (bytes : Array UInt8) :
    Except Halt Module :=
  match wholeModule evaluate (Cursor.ofBytes bytes) with
  | .ok m _ => .ok m
  | .error h _ => .error h

/-- Evaluates a constant expression, whose module is decoded in the same way. -/
def evaluate (fuel : Nat) (expr : List UInt8) : Except Halt Value :=
  match decodeWith (fun _ => .error .outOfFuel) (ConstExpr.wrap expr).toArray with
  | .error h => .error h
  | .ok m =>
    match (ConstExpr.env m).evaluate fuel ⟨.ofModule m, (), ()⟩ 0 with
    | (.error h, _) => .error h
    | (.ok [], _) => .error (.error (.trap .noConstant none))
    | (.ok (v :: _), _) => .ok v

/-- Decodes a binary. -/
def decode (fuel : Nat) (bytes : Array UInt8) : Except Halt Module :=
  decodeWith (evaluate fuel) bytes

end WasmVm.Checked
