/-
The program: reads the file and the terminal, and prints what the command line
decides.
-/
import WasmVm.Cli

namespace WasmVm.Cli

/-- Fuel that no run uses up. -/
def plenty : Nat := 2 ^ 62

/-- The contents of a file, or the reason why it cannot be read. -/
def readContents (file : String) : IO (Except String (Array UInt8)) := do
  try
    let bytes ← IO.FS.readBinFile file
    return .ok bytes.data
  catch
    | .noFileOrDirectory .. => return .error missingFile
    | e => return .error (toString e)

/-- One typed line, or nothing at the end of input. -/
def readAnswer (input : IO.FS.Stream) : IO (Option String) := do
  try
    let line ← input.getLine
    return if line.isEmpty then none else some line
  catch _ => return none

/-- Carries out a command and goes back to the terminal for every answer that it
still wants; `printed` counts the characters already shown. -/
partial def drive (style : Style) (o : Options) (contents : Except String (Array UInt8))
    (answers : List String) (closed : Bool) (printed : Nat) : IO UInt32 := do
  let report := execute plenty style o contents answers closed
  let stdout ← IO.getStdout
  stdout.putStr (report.stdout.drop printed).toString
  stdout.flush
  match report.ending with
  | .exit code =>
    IO.eprint report.stderr
    return code.toUInt32
  | .unfinished => return 1
  | .starved =>
    match ← readAnswer (← IO.getStdin) with
    | some line => drive style o contents (answers ++ [line]) false report.stdout.length
    | none => drive style o contents answers true report.stdout.length

end WasmVm.Cli

open WasmVm in
def main (args : List String) : IO UInt32 := do
  match Cli.Options.ofArgs args with
  | .error failure =>
    IO.eprint failure.text
    return 1
  | .ok o =>
    let style := if ← (← IO.getStdout).isTty then Style.ansi else Style.plain
    Cli.drive style o (← Cli.readContents o.file) [] false 0
