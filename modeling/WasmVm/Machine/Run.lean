/-
Runs.  Calls and initializers push frames onto an explicit stack, and one step
of the machine either finishes a frame, leaves a scope or runs an instruction.
-/
import WasmVm.Machine.Action
import WasmVm.Machine.Host
import WasmVm.Machine.Observer

namespace WasmVm

variable {ω σ : Type}

/-- What stays fixed during a run. -/
structure Env (ω σ : Type) where
  module : Module
  /-- Host functions by function index, where one is bound. -/
  hosts : Array (Option (HostFunction ω))
  observer : Observer σ
  /-- Frames that calls may pile up. -/
  maxDepth : Nat

/-- What a run changes besides its frames. -/
structure World (ω σ : Type) where
  store : Store
  /-- The state of the host functions. -/
  host : ω
  /-- The state of the observer. -/
  watch : σ

/-- A run between two steps. -/
structure State (ω σ : Type) where
  calls : CallStack
  world : World ω σ

/-- The result of one step. -/
inductive Outcome (ω σ : Type) where
  | running (s : State ω σ)
  | done (result : Except Error (List Value)) (world : World ω σ)

/-- An instruction that has been fetched, for messages. -/
structure Point where
  owner : Owner
  op : Opcode
  depth : Nat

/-- The instruction as a message gives it. -/
def Point.site (p : Point) (m : Module) : Site :=
  ⟨p.op, p.owner.describe m, p.depth⟩

namespace World

/-- Ends a run with a trap at an instruction. -/
def trapAt (w : World ω σ) (m : Module) (p : Point) (t : Trap) : Outcome ω σ :=
  .done (.error (.trap t (some (p.site m)))) w

/-- Calls a host function.  A function with results gets the host's value; one
without drops it. -/
def callHost (env : Env ω σ) (w : World ω σ) (function : Nat) (args : List Value) :
    Except Trap (List Value) × World ω σ :=
  let name := env.module.functionName function
  match (env.hosts[function]?).join with
  | none => (.error (.unboundFunction name), w)
  | some host =>
    match w with
    | ⟨⟨globals, memory, segments⟩, state, watch⟩ =>
      let reply := host state memory args
      let w : World ω σ :=
        ⟨⟨globals, reply.memoryAfter memory, segments⟩, reply.state, watch⟩
      let results := (env.module.functionType? function).elim 0 (·.results.length)
      match reply.result with
      | .error reasons => (.error (.hostFailed name reasons), w)
      | .ok value =>
        if results = 0 then (.ok [], w)
        else
          match value with
          | some v => (.ok [v], w)
          | none => (.error (.hostNoValue name), w)

/-- Changes the store. -/
def mapStore (w : World ω σ) (f : Store → Store) : World ω σ :=
  match w with
  | ⟨store, host, watch⟩ => ⟨f store, host, watch⟩

/-- Changes the observer's state. -/
def mapWatch (w : World ω σ) (f : σ → σ) : World ω σ :=
  match w with
  | ⟨store, host, watch⟩ => ⟨store, host, f watch⟩

end World

namespace State

/-- Pushes a frame for a callee, unless too many are there already. -/
def push (env : Env ω σ) (s : State ω σ) (p : Point) (callee : Except Trap Frame) :
    Outcome ω σ :=
  match callee with
  | .error t => s.world.trapAt env.module p t
  | .ok frame =>
    if env.maxDepth ≤ s.calls.depth then s.world.trapAt env.module p
      (.callDepth env.maxDepth)
    else .running ⟨s.calls.push frame,
      s.world.mapWatch (env.observer.enter frame.owner)⟩

/-- Carries out what an instruction asks for. -/
def perform (env : Env ω σ) (s : State ω σ) (p : Point) (action : Action) :
    Outcome ω σ :=
  match s with
  | ⟨calls, world⟩ =>
    match action with
    | .proceed => .running ⟨calls, world⟩
    | .setGlobal index v =>
        .running ⟨calls, world.mapStore (·.setGlobal index (.ready v))⟩
    | .write start bytes =>
      .running ⟨calls, world.mapStore (·.mapMemory (·.overlay start bytes))⟩
    | .grow pages => .running ⟨calls, world.mapStore (·.mapMemory (·.extend pages))⟩
    | .dropSegment segment => .running ⟨calls, world.mapStore (·.dropSegment segment)⟩
    | .startGlobal index =>
      push env ⟨calls, world.mapStore (·.setGlobal index .evaluating)⟩ p
        (Frame.ofGlobal env.module index)
    | .call function args =>
      push env ⟨calls, world⟩ p
        (Frame.ofFunction env.module (.function function) function args
          ((env.module.functionType? function).map (·.results.length)))
    | .callHost function args =>
      match world.callHost env function args with
      | (.error t, world) => world.trapAt env.module p t
      | (.ok values, world) =>
        .running ⟨calls.setTop { calls.top with stack := calls.top.stack.pushMany values
          }, world⟩

/-- Shows a fetched instruction to the observer and runs it. -/
def fetched (env : Env ω σ) (s : State ω σ) (node : Node) : Outcome ω σ :=
  match s with
  | ⟨calls, ⟨store, host, watch⟩⟩ =>
    let p : Point := ⟨calls.top.owner, node.opcode, calls.top.scopes.length⟩
    match env.observer.step ⟨calls, node, store.globals⟩ watch with
    | (.error e, watch) => .done (.error (e.chargedTo (p.site env.module)))
        ⟨store, host, watch⟩
    | (.ok (), watch) =>
      match calls.top.execute env.module store node with
      | .error t => World.trapAt ⟨store, host, watch⟩ env.module p t
      | .ok (frame, action) =>
          perform env ⟨calls.setTop frame, ⟨store, host, watch⟩⟩ p action

/-- Hands the values of the frame that has ended to its caller. -/
def handOver (calls : CallStack) (world : World ω σ) (values pushed : List Value) :
    Outcome ω σ :=
  match calls.pop? with
  | none => .done (.ok values) world
  | some calls =>
    .running ⟨calls.setTop { calls.top with stack := calls.top.stack.pushMany pushed },
      world⟩

/-- Ends the top frame.  An initializer gives its first value to its global, and
that one value to the frame that wanted it. -/
def finish (env : Env ω σ) (s : State ω σ) : Outcome ω σ :=
  match s with
  | ⟨calls, world⟩ =>
    let frame := calls.top
    let world := world.mapWatch (env.observer.leave frame.owner)
    match frame.finish with
    | .error t => world.trapAt env.module ⟨frame.owner, .endScope, 0⟩ t
    | .ok values =>
      match frame.owner with
      | .global index =>
        match values with
        | [] => .done (.error (.trap (.initializerEmpty index) none)) world
        | v :: _ =>
            handOver calls (world.mapStore (·.setGlobal index (.ready v))) values [v]
      | _ => handOver calls world values values

/-- One step of the machine. -/
def advance (env : Env ω σ) (s : State ω σ) : Outcome ω σ :=
  match s with
  | ⟨calls, world⟩ =>
    match calls.top with
    | ⟨owner, locals, stack, scopes, results⟩ =>
      match scopes with
      | [] => finish env ⟨calls, world⟩
      | ⟨[], _, _, _, _⟩ :: outer =>
        .running ⟨calls.setTop ⟨owner, locals, stack, outer, results⟩, world⟩
      | ⟨node :: rest, body, height, arity, isLoop⟩ :: outer =>
        let frame : Frame :=
          ⟨owner, locals, stack, ⟨rest, body, height, arity, isLoop⟩ :: outer, results⟩
        fetched env ⟨calls.setTop frame, world⟩ node

/-- Runs to the end, or until the fuel is used up.  After a failure initializers
that were cut short may run again. -/
def run (env : Env ω σ) : (fuel : Nat) → State ω σ →
    Except Halt (List Value) × World ω σ
  | 0, s => (.error .outOfFuel, s.world)
  | fuel + 1, s =>
    match advance env s with
    | .running s => run env fuel s
    | .done (.ok values) world => (.ok values, world)
    | .done (.error e) world => (.error (.error e), world.mapStore Store.settle)

end State

namespace Env

/-- Runs a frame from its start. -/
def runFrame (env : Env ω σ) (fuel : Nat) (w : World ω σ) (frame : Frame) :
    Except Halt (List Value) × World ω σ :=
  State.run env fuel ⟨.ofFrame frame, w.mapWatch (env.observer.enter frame.owner)⟩

/-- Runs a frame that may be missing. -/
def runFrame? (env : Env ω σ) (fuel : Nat) (w : World ω σ) (frame : Except Trap Frame) :
    Except Halt (List Value) × World ω σ :=
  match frame with
  | .error t => (.error (.error (.trap t none)), w)
  | .ok frame => env.runFrame fuel w frame

/-- Calls a function from outside. -/
def invoke (env : Env ω σ) (fuel : Nat) (w : World ω σ) (function : Nat)
    (args : List Value) :
    Except Halt (List Value) × World ω σ :=
  match env.module.functionType? function with
  | none => (.error (.error (.trap (.noFunction function) none)), w)
  | some type =>
    if function < env.module.importedFunctions then
      match w.callHost env function args with
      | (.ok values, w) => (.ok values, w)
      | (.error t, w) => (.error (.error (.trap t none)), w)
    else
      env.runFrame? fuel w
        (Frame.ofFunction env.module (.function function) function args
          (some type.results.length))

/-- Runs a function as a constant expression: all that it leaves is the result. -/
def evaluate (env : Env ω σ) (fuel : Nat) (w : World ω σ) (function : Nat) :
    Except Halt (List Value) × World ω σ :=
  env.runFrame? fuel w (Frame.ofFunction env.module .constant function [] none)

/-- Reads a global from outside, running its initializer if need be. -/
def readGlobal (env : Env ω σ) (fuel : Nat) (w : World ω σ) (index : Nat) :
    Except Halt Value × World ω σ :=
  match w.store.readGlobal index with
  | .error t => (.error (.error (.trap t none)), w)
  | .ok (some v) => (.ok v, w)
  | .ok none =>
    match env.runFrame? fuel (w.mapStore (·.setGlobal index .evaluating))
        (Frame.ofGlobal env.module index) with
    | (.error h, w) => (.error h, w)
    | (.ok (v :: _), w) => (.ok v, w)
    | (.ok [], w) => (.error (.error (.trap (.globalEmpty index) none)), w)

end Env

end WasmVm
