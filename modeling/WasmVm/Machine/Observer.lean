/-
Watching a run.  An observer keeps a state of its own, which nothing else
depends on; only its refusal of an instruction has an effect.
-/
import WasmVm.Machine.Frame
import WasmVm.Machine.Store

namespace WasmVm

/-- What can be seen when an instruction is about to run. -/
structure View where
  calls : CallStack
  node : Node
  globals : Array GlobalState

namespace View

/-- What the running frame belongs to. -/
def owner (v : View) : Owner :=
  v.calls.top.owner

/-- Scopes open around the instruction, the body itself included. -/
def scopeDepth (v : View) : Nat :=
  v.calls.top.scopes.length

/-- Whose frames have been pushed, the outermost first. -/
def callStack (v : View) : List Owner :=
  v.calls.owners.reverse

/-- The number of frames on the call stack. -/
def callDepth (v : View) : Nat :=
  v.calls.depth

/-- The locals of the running frame, parameters first. -/
def locals (v : View) : List Value :=
  v.calls.top.locals.toList

/-- The value stack, the deepest value first. -/
def stack (v : View) : List Value :=
  v.calls.top.stack.reverse

/-- The frames listed are as many as are counted. -/
theorem length_callStack (v : View) : v.callStack.length = v.callDepth := by
  simp [callStack, callDepth, v.calls.owners_length]

end View

/-- Hooks of a run, over states of the type `σ`. -/
structure Observer (σ : Type) where
  /-- A frame is pushed. -/
  enter : Owner → σ → σ
  /-- A frame is popped. -/
  leave : Owner → σ → σ
  /-- An instruction is about to run; an error ends the run. -/
  step : View → σ → Except Error Unit × σ

/-- Sees nothing and refuses nothing. -/
def Observer.silent {σ : Type} : Observer σ where
  enter _ s := s
  leave _ s := s
  step _ s := (.ok (), s)

end WasmVm
