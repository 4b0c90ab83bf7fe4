/-
Instances: a module linked to host functions and globals, with a store of its
own, called through its exports.
-/
import WasmVm.ConstExpr

namespace WasmVm

variable {ω σ : Type}

/-- What is offered under import names, each name once. -/
abbrev Offers (α : Type) := List (ImportName × α)

namespace Offers

variable {α : Type}

/-- Offers something under a name; a later offer replaces an earlier one. -/
def define (offers : Offers α) (name : ImportName) (a : α) : Offers α :=
  (name, a) :: offers.filter fun entry => entry.1 ≠ name

/-- Takes what is offered under a name, which uses the offer up. -/
def take (offers : Offers α) (name : ImportName) : Option α × Offers α :=
  ((offers.find? fun entry => entry.1 = name).map (·.2),
    offers.filter fun entry => entry.1 ≠ name)

end Offers

/-- All that a host offers to a module. -/
structure Imports (ω : Type) where
  functions : Offers (HostFunction ω) := []
  globals : Offers Value := []

/-- Linking in progress: what the imports seen so far are bound to, and what is
still on offer. -/
structure Linking (ω : Type) where
  hosts : Array (Option (HostFunction ω)) := #[]
  globals : Array GlobalState := #[]
  offered : Imports ω

namespace Linking

/-- Binds the next import.  Functions and globals are counted apart; memories,
tables and tags are made by the instance itself. -/
def bind (l : Linking ω) (i : Import) : Except Trap (Linking ω) :=
  match i.kind with
  | .function _ =>
    let (host, functions) := l.offered.functions.take ⟨i.module, i.name⟩
    .ok { l with hosts := l.hosts.push host, offered := { l.offered with functions } }
  | .global type _ =>
    let (value, globals) := l.offered.globals.take ⟨i.module, i.name⟩
    let offered := { l.offered with globals }
    match value with
    | none => .ok { l with globals := l.globals.push .unbound, offered }
    | some v =>
      if v.type = type then .ok { l with globals := l.globals.push (.ready v), offered }
      else .error (.globalImportType i.module i.name type v)
  | _ => .ok l

end Linking

/-- Writes the active segments to memory, in order. -/
def writeActive : (index : Nat) → List DataSegment → Option Memory →
    Except Trap (Option Memory)
  | _, [], memory => .ok memory
  | index, segment :: rest, memory =>
    match segment.mode with
    | .passive => writeActive (index + 1) rest memory
    | .active _ offset =>
      match memory with
      | none => .error (.segmentWithoutMemory index)
      | some m =>
          do writeActive (index + 1) rest (some (← m.store offset 0 segment.bytes))

/-- A function as an export shows it. -/
structure ExportedFunction where
  name : String
  index : Nat
  type : FuncType

namespace Module

/-- The function that the first export of a name gives. -/
def exportedFunction (m : Module) (name : String) : Except Error ExportedFunction :=
  match (m.export? name).filter fun e => e.kind == .function with
  | none => .error (.format (.functionExport name))
  | some e =>
    match m.functionType? e.index with
    | none => .error (.format (.exportedFunction name))
    | some type => .ok ⟨name, e.index, type⟩

/-- Every exported function by name.  Of several exports of a name the last one
counts, among those that give an existing function. -/
def exportedFunctions (m : Module) : Std.TreeMap String ExportedFunction :=
  m.exports.foldl (fun map e =>
    if e.kind = .function then
      match m.functionType? e.index with
      | some type => map.insert e.name ⟨e.name, e.index, type⟩
      | none => map
    else map) ∅

/-- The index of the global that the first export of a name gives. -/
def exportedGlobal (m : Module) (name : String) : Except Error Nat :=
  match (m.export? name).filter fun e => e.kind == .global with
  | none => .error (.format (.globalExport name))
  | some e => .ok e.index

end Module

/-- A module in operation. -/
structure Instance (ω σ : Type) where
  env : Env ω σ
  world : World ω σ

namespace Instance

/-- Links a module and writes its active segments. -/
def create (m : Module) (offered : Imports ω) (maxDepth : Nat) (observer : Observer σ)
    (host : ω) (watch : σ) : Except Trap (Instance ω σ) := do
  let linking ← m.imports.toList.foldlM Linking.bind { offered }
  let store := Store.ofModule m
  let memory ← writeActive 0 m.segments.toList store.memory
  let globals := linking.globals ++ m.globals.map fun _ => .pending
  return {
    env := { module := m, hosts := linking.hosts, observer, maxDepth }
    world := ⟨{ store with memory, globals }, host, watch⟩ }

/-- Calls a function by index. -/
def callIndex (i : Instance ω σ) (fuel index : Nat) (args : List Value) :
    Except Halt (List Value) × Instance ω σ :=
  match i with
  | ⟨env, world⟩ =>
    let (result, world) := env.invoke fuel world index args
    (result, ⟨env, world⟩)

/-- Calls an exported function.  Missing arguments are zero and those left over
are ignored. -/
def call (i : Instance ω σ) (fuel : Nat) (name : String) (args : List Value) :
    Except Halt (List Value) × Instance ω σ :=
  match i.env.module.exportedFunction name with
  | .error e => (.error (.error e), i)
  | .ok f => i.callIndex fuel f.index args

/-- Reads an exported global, running its initializer if need be. -/
def global (i : Instance ω σ) (fuel : Nat) (name : String) :
    Except Halt Value × Instance ω σ :=
  match i.env.module.exportedGlobal name with
  | .error e => (.error (.error e), i)
  | .ok index =>
    match i with
    | ⟨env, world⟩ =>
      let (result, world) := env.readGlobal fuel world index
      (result, ⟨env, world⟩)

/-- The memory between two calls. -/
def memory (i : Instance ω σ) : Option Memory :=
  i.world.store.memory

end Instance

/-! While a call is running the instance is busy: names can still be looked up,
and everything else is refused. -/

namespace Busy

/-- Why a host function cannot call an export of the instance that called it. -/
def call (m : Module) (name : String) : Error :=
  match m.exportedFunction name with
  | .error e => e
  | .ok _ => .trap .busyCall none

/-- Why a host function cannot read a global of the instance that called it. -/
def global (m : Module) (name : String) : Error :=
  match m.exportedGlobal name with
  | .error e => e
  | .ok _ => .trap .busyCall none

/-- Why a host function cannot look at the observer. -/
def observer : Error :=
  .trap .busyObserver none

/-- Why a host function cannot change the observer. -/
def changeObserver : Error :=
  .trap .busyCall none

/-- The memory, which a host function gets with its call instead. -/
def memory : Option Memory :=
  none

end Busy

end WasmVm
