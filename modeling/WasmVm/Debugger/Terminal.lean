/-
Answers typed at a terminal.
-/
import WasmVm.Debugger.Session

namespace WasmVm

/-- A terminal session so far. -/
structure Terminal where
  /-- Lines typed and not yet read. -/
  answers : List String
  /-- Whether the input ends after them. -/
  closed : Bool
  /-- All that has been written. -/
  output : String := ""
  /-- Whether an answer was wanted that has not been typed yet. -/
  starved : Bool := false

namespace Terminal

/-- The question below every screen. -/
def prompt : String :=
  "(c)ontinue (n)ext (s)tep in (o)ut (b N) breakpoint (q)uit> "

/-- A cleared screen with the prompt below it. -/
def page (screen : String) : String :=
  "\x1b[2J\x1b[H" ++ screen ++ "\n" ++ prompt

/-- Shows the screen until a line is typed that is a command.  The end of input
quits; where the input may go on, the session stops there and is marked so. -/
def askFrom (page : String) (closed : Bool) : List String → String → Command × Terminal
  | [], output => (.quit, ⟨[], closed, output ++ page, !closed⟩)
  | text :: rest, output =>
    match Command.ofText? text with
    | some c => (c, ⟨rest, closed, output ++ page, false⟩)
    | none => askFrom page closed rest (output ++ page)

/-- A flip of a breakpoint has used up a typed line at least. -/
theorem length_askFrom {page output : String} {closed : Bool}
    {texts : List String} {n : Nat}
    {t : Terminal} (h : askFrom page closed texts output = (.toggle n, t)) :
    t.answers.length < texts.length := by
  induction texts generalizing output with
  | nil => simp [askFrom] at h
  | cons text texts ih =>
    unfold askFrom at h
    split at h
    · simp only [Prod.mk.injEq] at h
      simp [← h.2]
    · have := ih h
      simp only [List.length_cons]
      omega

/-- The next command typed. -/
def command (screen : String) (t : Terminal) : Command × Terminal :=
  askFrom (page screen) t.closed t.answers t.output

/-- A terminal as a controller: every flip of a breakpoint uses up a line. -/
def controller : Controller Terminal where
  command _ screen t := command screen t
  patience _ _ _ d := d.controller.answers.length
  patience_lt h := length_askFrom h

end Terminal

end WasmVm
