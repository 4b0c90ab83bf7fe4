/-
Frames.  A frame runs one body; its open scopes form a stack of their own, and
each remembers what it still has to run.
-/
import WasmVm.Module.Basic
import WasmVm.Stack

namespace WasmVm

/-- What a frame is running. -/
inductive Owner where
  | function (index : Nat)
  | global (index : Nat)
  | constant
  deriving DecidableEq

/-- The owner in messages. -/
def Owner.describe (m : Module) : Owner → String
  | function index => m.functionName index
  | global index => s!"global {index} initializer"
  | constant => "constant expression"

/-- A scope that is being run. -/
structure Scope where
  /-- What is left to run. -/
  rest : List Node
  /-- All that the scope holds, to start a loop again. -/
  body : List Node
  /-- Height of the value stack below the scope's operands. -/
  height : Nat
  /-- Values that a branch to the scope carries. -/
  arity : Nat
  isLoop : Bool

/-- A body that is being run. -/
structure Frame where
  owner : Owner
  locals : Array Value
  stack : Stack
  /-- Open scopes, the innermost first. -/
  scopes : List Scope
  /-- How many values the caller gets; all of them if absent. -/
  results : Option Nat

namespace Frame

/-- A frame before the first instruction of a body. -/
def ofBody (m : Module) (owner : Owner) (root : Node) (locals : Array Value)
    (results : Option Nat) : Frame :=
  { owner, locals, results
    stack := []
    scopes := [⟨root.body, root.body, 0, (m.blockArity root.blockType).2, false⟩] }

/-- A frame for a function.  Arguments fill the parameters from the left; what is
missing, and every local declared, starts as zero. -/
def ofFunction (m : Module) (owner : Owner) (function : Nat) (args : List Value)
    (results : Option Nat) : Except Trap Frame :=
  match m.code? function with
  | none => .error (.noBody (m.functionName function))
  | some code =>
    let args := args.toArray
    let locals := code.locals.mapIdx fun i type =>
      if i < code.params then (args[i]?).getD type.zero else type.zero
    .ok (.ofBody m owner code.body locals results)

/-- A frame for the initializer of a global. -/
def ofGlobal (m : Module) (index : Nat) : Except Trap Frame :=
  match m.initializer? index with
  | none => .error (.noInitializer index)
  | some body => .ok (.ofBody m (.global index) body #[] none)

/-- Enters a scope with some of its instructions. -/
def enter (m : Module) (f : Frame) (kind : ScopeKind) (type : BlockType)
    (body : List Node) :
    Frame :=
  let (params, results) := m.blockArity type
  let isLoop := kind == .loop
  let scope : Scope :=
    { rest := body, body, isLoop
      height := f.stack.length - params
      arity := if isLoop then params else results }
  { f with scopes := scope :: f.scopes }

/-- Branches to the scope `depth` levels out, with the values it wants on top of
the stack as the scope found it.  A loop starts again, any other scope ends. -/
def branch (f : Frame) (depth : Nat) : Except Trap Frame :=
  match f.scopes.drop depth with
  | [] => .error (.invalidBranch depth f.scopes.length)
  | scope :: outer => do
    let (kept, below) ← f.stack.popMany scope.arity
    let stack := Stack.pushMany kept (below.drop (below.length - scope.height))
    if scope.isLoop then
      return { f with stack, scopes := { scope with rest := scope.body } :: outer }
    else return { f with stack, scopes := outer }

/-- The values that the caller gets, the deepest first. -/
def finish (f : Frame) : Except Trap (List Value) :=
  match f.results with
  | none => .ok f.stack.reverse
  | some count => (·.1) <$> f.stack.popMany count

end Frame

/-- The frames of a run: the running one, and its callers from the nearest out. -/
structure CallStack where
  top : Frame
  callers : List Frame
  /-- Whose frames have been pushed, the last one first.  Observers are shown this
  list. -/
  owners : List Owner
  /-- The number of frames, kept so that it need not be counted. -/
  depth : Nat
  depth_eq : depth = callers.length + 1 := by simp
  owners_length : owners.length = depth := by simp

namespace CallStack

/-- A run that starts with one frame. -/
def ofFrame (f : Frame) : CallStack :=
  { top := f, callers := [], owners := [f.owner], depth := 1 }

/-- Replaces the running frame. -/
def setTop (c : CallStack) (f : Frame) : CallStack :=
  { c with top := f }

/-- Puts a callee on top. -/
def push (c : CallStack) (f : Frame) : CallStack :=
  { top := f, callers := c.top :: c.callers, owners := f.owner :: c.owners,
    depth := c.depth + 1, depth_eq := by simp [c.depth_eq],
    owners_length := by simp [c.owners_length] }

/-- The frames below the top one, if there are any. -/
def pop? (c : CallStack) : Option CallStack :=
  match h : c.callers with
  | [] => none
  | f :: callers =>
    some { top := f, callers, owners := c.owners.tail, depth := c.depth - 1
           depth_eq := by simp [c.depth_eq, h]
           owners_length := by simp [c.owners_length] }

/-- All frames, the running one first. -/
def frames (c : CallStack) : List Frame :=
  c.top :: c.callers

end CallStack

end WasmVm
