/-
Modules: what the sections of a binary declare, and look-ups in the index
spaces that imports and definitions share.
-/
import WasmVm.Body.Node
import WasmVm.Error
import Std.Data.TreeMap

namespace WasmVm

/-- A signature. -/
structure FuncType where
  params : List ValType
  results : List ValType
  deriving DecidableEq

/-- What an import provides. -/
inductive ImportKind where
  | function (typeIndex : Nat)
  | table (limits : Limits)
  | memory (limits : Limits)
  | global (type : ValType) (isMutable : Bool)
  | tag (typeIndex : Nat)
  deriving DecidableEq

/-- Something that a module wants from outside, under two names. -/
structure Import where
  module : String
  name : String
  kind : ImportKind
  deriving DecidableEq

/-- A global that the module defines. -/
structure Global where
  type : ValType
  isMutable : Bool
  /-- The bytes of the initializer, its `end` included. -/
  init : List UInt8
  body : Node

/-- What an export gives access to. -/
inductive ExportKind where
  | function | table | memory | global | tag
  deriving DecidableEq

/-- A name under which something of a module can be reached. -/
structure Export where
  name : String
  kind : ExportKind
  index : Nat
  deriving DecidableEq

/-- A function that the module defines. -/
structure Code where
  /-- Parameters, then the locals declared. -/
  locals : Array ValType
  params : Nat
  body : Node

/-- When a data segment is written to memory. -/
inductive DataMode where
  /-- At instantiation, at an offset. -/
  | active (memory offset : Nat)
  /-- When an instruction says so. -/
  | passive
  deriving DecidableEq

/-- Bytes for memory. -/
structure DataSegment where
  mode : DataMode
  bytes : List UInt8
  deriving DecidableEq

/-- A decoded module. -/
structure Module where
  types : Array FuncType := #[]
  imports : Array Import := #[]
  /-- Signatures of the functions defined. -/
  functions : Array Nat := #[]
  memories : Array Limits := #[]
  /-- Signatures of the tags defined. -/
  tags : Array Nat := #[]
  globals : Array Global := #[]
  exports : Array Export := #[]
  codes : Array Code := #[]
  segments : Array DataSegment := #[]
  segmentCount : Option Nat := none
  /-- Names of functions, for people. -/
  names : Std.TreeMap Nat String := ∅

/-- The signature of an imported function. -/
def ImportKind.functionType? : ImportKind → Option Nat
  | function typeIndex => some typeIndex
  | _ => none

/-- The type of an imported global. -/
def ImportKind.globalType? : ImportKind → Option ValType
  | global type _ => some type
  | _ => none

/-- The limits of an imported memory. -/
def ImportKind.memoryLimits? : ImportKind → Option Limits
  | memory limits => some limits
  | _ => none

namespace Module

/-- The imported functions, which come first among all functions. -/
def functionImports (m : Module) : List Import :=
  m.imports.toList.filter fun i => i.kind.functionType?.isSome

/-- The types of the imported globals, which come first among all globals. -/
def globalImports (m : Module) : List ValType :=
  m.imports.toList.filterMap fun i => i.kind.globalType?

/-- The number of imported functions. -/
def importedFunctions (m : Module) : Nat :=
  m.functionImports.length

/-- The number of imported globals. -/
def importedGlobals (m : Module) : Nat :=
  m.globalImports.length

/-- The import behind a function, if it is imported. -/
def functionImport? (m : Module) (function : Nat) : Option Import :=
  m.functionImports[function]?

/-- The index of a function's signature. -/
def functionTypeIndex? (m : Module) (function : Nat) : Option Nat :=
  match m.functionImport? function with
  | some i => i.kind.functionType?
  | none => m.functions[function - m.importedFunctions]?

/-- A function's signature. -/
def functionType? (m : Module) (function : Nat) : Option FuncType :=
  (m.functionTypeIndex? function).bind fun index => m.types[index]?

/-- The body of a function, unless it is imported. -/
def code? (m : Module) (function : Nat) : Option Code :=
  if function < m.importedFunctions then none
  else m.codes[function - m.importedFunctions]?

/-- The first export of a name. -/
def export? (m : Module) (name : String) : Option Export :=
  m.exports.find? fun e => e.name == name

/-- A function's name for people: from the names, else from an export, else the
import's, else its index. -/
def functionName (m : Module) (function : Nat) : String :=
  match m.names[function]? with
  | some name => name
  | none =>
    match m.exports.find? fun e => e.kind == .function && e.index == function with
    | some e => e.name
    | none =>
      match m.functionImport? function with
      | some i => s!"{i.module}.{i.name}"
      | none => s!"func[{function}]"

/-- A global's type. -/
def globalType? (m : Module) (global : Nat) : Option ValType :=
  match m.globalImports[global]? with
  | some type => some type
  | none => (m.globals[global - m.importedGlobals]?).map (·.type)

/-- The initializer of a global, unless it is imported. -/
def initializer? (m : Module) (global : Nat) : Option Node :=
  if global < m.importedGlobals then none
  else (m.globals[global - m.importedGlobals]?).map (·.body)

/-- How many values a scope takes and how many it leaves. -/
def blockArity (m : Module) : BlockType → Nat × Nat
  | .empty => (0, 0)
  | .value _ => (0, 1)
  | .func index =>
    match m.types[index]? with
    | some type => (type.params.length, type.results.length)
    | none => (0, 0)

/-- What a call of a function carries with it. -/
def callTarget? (m : Module) (function : Nat) : Option CallTarget := do
  let typeIndex ← m.functionTypeIndex? function
  let type ← m.types[typeIndex]?
  return {
    function, typeIndex
    params := type.params.length
    results := type.results.length
    source := (m.functionImport? function).map fun i => ⟨i.module, i.name⟩ }

/-- The first imported memory, else the first one defined. -/
def memoryLimits? (m : Module) : Option Limits :=
  (m.imports.toList.findSome? fun i => i.kind.memoryLimits?).or m.memories[0]?

end Module

end WasmVm
