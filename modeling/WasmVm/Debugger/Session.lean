/-
The debugger: an observer that pauses at breakpoints and after steps, shows
where the run is, and lets a controller say how to go on.
-/
import WasmVm.Debugger.Command
import WasmVm.Listing
import WasmVm.Machine.Observer
import Std.Data.TreeSet

namespace WasmVm

/-- When to pause next, breakpoints apart.  A depth is the number of frames at
the last pause. -/
inductive PauseMode where
  | never
  | always
  /-- Once no more frames are there than at the last pause. -/
  | over (depth : Nat)
  /-- Once fewer frames are there than at the last pause. -/
  | out (depth : Nat)
  deriving DecidableEq

/-- The debugger between two instructions. -/
structure Debugger (κ : Type) where
  listing : Listing
  /-- Lines with breakpoints, counted from zero. -/
  breakpoints : Std.TreeSet Nat := ∅
  mode : PauseMode
  controller : κ

namespace Debugger

variable {κ : Type}

/-- A debugger that pauses at the first instruction it sees. -/
def start (m : Module) (style : Style) (controller : κ) : Debugger κ :=
  { listing := .ofModule m style, mode := .always, controller }

/-- Flips the breakpoint of a line and tells whether it is now set.  Lines that
show no instruction never hold one. -/
def toggle (d : Debugger κ) (line : Nat) : Bool × Debugger κ :=
  if (d.listing.point? line).isNone then (false, d)
  else if d.breakpoints.contains line then
    (false, { d with breakpoints := d.breakpoints.erase line })
  else (true, { d with breakpoints := d.breakpoints.insert line })

/-- Goes on to the next breakpoint. -/
def resume (d : Debugger κ) : Debugger κ :=
  { d with mode := .never }

/-- Whether to pause at a line with so many frames on the call stack. -/
def pauses (d : Debugger κ) (line depth : Nat) : Bool :=
  d.breakpoints.contains line || match d.mode with
    | .never => false
    | .always => true
    | .over paused => depth ≤ paused
    | .out paused => depth < paused

/-- Lines shown above the current one, and as many below it. -/
def window : Nat := 8

/-- One line of the listing behind its number, with a mark for the current line
or a breakpoint. -/
def screenLine (d : Debugger κ) (current number : Nat) : String :=
  let marker := if number = current then ">"
    else if d.breakpoints.contains number then "*" else " "
  let digits := toString (number + 1)
  let blanks := String.ofList (List.replicate (5 - digits.length) ' ')
  marker ++ blanks ++ digits ++ " " ++ (d.listing.text? number).getD "" ++ "\n"

/-- Values in a row. -/
def valuesText (values : List Value) : String :=
  ", ".intercalate (values.map Value.text)

/-- A global as the screen shows it. -/
def globalText : GlobalState → String
  | .ready v => v.text
  | .unbound => "unbound"
  | .pending => "pending"
  | .evaluating => "evaluating"

/-- The state of the run as the prompt shows it. -/
def screen (m : Module) (d : Debugger κ) (line : Nat) (v : View) : String :=
  let calls := "->".intercalate (v.callStack.map (Owner.describe m))
  let first := line - window
  let last := min (line + window + 1) d.listing.size
  let lines := (List.range (last - first)).map fun i => d.screenLine line (first + i)
  let globals := ", ".intercalate (v.globals.toList.map globalText)
  s!"wasmtree debugger: {v.owner.describe m}@{line + 1}    {calls}\n"
    ++ String.join lines
    ++ s!"stack: [{valuesText v.stack}]\n"
    ++ s!"locals: [{valuesText v.locals}]\n"
    ++ s!"globals: [{globals}]"

end Debugger

/-- Whoever answers at the prompt, over states of the type `κ`.  It is shown the
line, counted from zero, and the screen.  It cannot flip breakpoints for ever:
each time it does, its patience with this pause gets less.  The patience may
depend on all there is, so that whoever ends every pause has one. -/
structure Controller (κ : Type) where
  command : (line : Nat) → (screen : String) → κ → Command × κ
  patience : Module → (line : Nat) → View → Debugger κ → Nat
  patience_lt : ∀ {m line v} {d : Debugger κ} {target controller},
    command line (d.screen m line v) d.controller = (.toggle target, controller) →
      patience m line v { (d.toggle target).2 with controller } < patience m line v d

namespace Debugger

variable {κ : Type}

/-- Asks the controller until it says how to go on.  Flipping a breakpoint shows
the screen again. -/
def ask (m : Module) (c : Controller κ) (line : Nat) (v : View) (d : Debugger κ) :
    Except Error Unit × Debugger κ :=
  match _h : c.command line (d.screen m line v) d.controller with
  | (.toggle target, controller) =>
    ask m c line v { (d.toggle target).2 with controller }
  | (.resume, controller) => (.ok (), { d with controller, mode := .never })
  | (.stepOver, controller) =>
      (.ok (), { d with controller, mode := .over v.callDepth })
  | (.stepIn, controller) => (.ok (), { d with controller, mode := .always })
  | (.stepOut, controller) => (.ok (), { d with controller, mode := .out v.callDepth })
  | (.quit, controller) =>
    (.error (.trap (.interrupted "stopped by the debugger") none),
      { d with controller })
termination_by c.patience m line v d
decreasing_by exact c.patience_lt _h

/-- An instruction is about to run.  Only instructions of functions have lines to
pause at. -/
def step (m : Module) (c : Controller κ) (v : View) (d : Debugger κ) :
    Except Error Unit × Debugger κ :=
  match v.owner with
  | .function function =>
    match d.listing.lineOf? ⟨function, v.node.id⟩ with
    | none => (.ok (), d)
    | some line => if d.pauses line v.callDepth then d.ask m c line v else (.ok (), d)
  | _ => (.ok (), d)

/-- The debugger as an observer. -/
def observer (m : Module) (c : Controller κ) : Observer (Debugger κ) where
  enter _ d := d
  leave _ d := d
  step := step m c

end Debugger

end WasmVm
