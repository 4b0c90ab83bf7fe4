/-
Answers prepared beforehand.
-/
import WasmVm.Debugger.Session

namespace WasmVm

/-- One pause of a scripted session. -/
structure Pause where
  line : Nat
  screen : String
  command : Command

/-- Texts to answer with, and the pauses answered so far. -/
structure Script where
  answers : List String
  pauses : Array Pause := #[]

namespace Script

/-- The first text that is a command, and the texts after it. -/
def nextCommand : List String → Option (Command × List String)
  | [] => none
  | text :: rest =>
    match Command.ofText? text with
    | some c => some (c, rest)
    | none => nextCommand rest

/-- Taking a command uses up a text at least. -/
theorem length_of_nextCommand {texts rest : List String} {c : Command}
    (h : nextCommand texts = some (c, rest)) : rest.length < texts.length := by
  induction texts with
  | nil => simp [nextCommand] at h
  | cons text texts ih =>
    unfold nextCommand at h
    split at h
    · simp only [Option.some.injEq, Prod.mk.injEq] at h
      simp [← h.2]
    · have := ih h
      simp only [List.length_cons]
      omega

/-- Answers with the next command, and resumes when there is none. -/
def command (line : Nat) (screen : String) (s : Script) : Command × Script :=
  match nextCommand s.answers with
  | some (c, rest) => (c, ⟨rest, s.pauses.push ⟨line, screen, c⟩⟩)
  | none => (.resume, ⟨[], s.pauses.push ⟨line, screen, .resume⟩⟩)

/-- A script as a controller: every flip of a breakpoint uses up a text. -/
def controller : Controller Script where
  command := command
  patience _ _ _ d := d.controller.answers.length
  patience_lt := by
    intro m line v d target s h
    unfold command at h
    split at h
    · next c rest hnext =>
      simp only [Prod.mk.injEq] at h
      simpa [← h.2] using length_of_nextCommand hnext
    · simp at h

end Script

end WasmVm
