/-
The command line: run an export, list a module, or debug a run.  Everything is
decided here as a function of the arguments, the file and the input; what is
left to do is reading and printing.
-/
import WasmVm.Debugger.Terminal
import WasmVm.Instance

namespace WasmVm.Cli

/-- Why a command failed, and the cause behind it if there is one. -/
structure Failure where
  message : String
  cause : Option String := none

namespace Failure

/-- A failure of the library, which has no further cause. -/
def ofError (e : Error) : Failure :=
  { message := e.text }

/-- A failure as it is printed, with its cause indented below. -/
def text (f : Failure) : String :=
  let cause := match f.cause with
    | some cause => "\n\nCaused by:\n    " ++ cause
    | none => ""
  "Error: " ++ f.message ++ cause ++ "\n"

end Failure

/-- How the program is called. -/
def usage : String :=
  "usage: wasmtree [--debug | --listing] <file.wasm> [export] [args...]"

/-- What the arguments ask for. -/
structure Options where
  debug : Bool := false
  listing : Bool := false
  file : String
  entry : String := "main"
  args : List String := []

namespace Options

/-- Splits arguments into switches and the rest; a call for help comes first. -/
def ofArgs (args : List String) : Except Failure Options :=
  let positional := args.filter fun a => a ≠ "--debug" ∧ a ≠ "--listing"
  if args.any fun a => a = "-h" ∨ a = "--help" then .error { message := usage }
  else
    match positional with
    | [] => .error { message := usage }
    | file :: rest =>
      .ok {
        debug := args.contains "--debug"
        listing := args.contains "--listing"
        file
        entry := rest.head?.getD "main"
        args := rest.tail }

end Options

/-- How a command ends. -/
inductive Ending where
  | exit (code : Nat)
  /-- The debugger waits for a line. -/
  | starved
  /-- The fuel was used up. -/
  | unfinished
  deriving DecidableEq

/-- What a command writes and how it ends. -/
structure Report where
  stdout : String := ""
  stderr : String := ""
  ending : Ending

namespace Report

/-- The end of a command that failed after writing something. -/
def failed (stdout : String) (f : Failure) : Report :=
  { stdout, stderr := f.text, ending := .exit 1 }

/-- The end of a command whose run gave no values. -/
def halted (stdout : String) : Halt → Report
  | .error e => failed stdout (.ofError e)
  | _ => { stdout, ending := .unfinished }

end Report

/-- The value of an argument. -/
def parseValue (type : ValType) (text : String) : Except Decimal.LiteralError Value :=
  match type with
  | .i32 => return .i32 (BitVec.ofInt 32 (← Decimal.readInt 32 text))
  | .i64 => return .i64 (BitVec.ofInt 64 (← Decimal.readInt 64 text))
  | .f32 => return .f32 (BitVec.ofNat 32 (← Decimal.readFloat .single text))
  | .f64 => return .f64 (BitVec.ofNat 64 (← Decimal.readFloat .double text))

/-- Arguments from the left; there may be fewer than parameters. -/
def parseFrom : (index : Nat) → List ValType → List String → Except Failure (List Value)
  | index, type :: types, text :: texts => do
    match parseValue type text with
    | .error e =>
      throw { message := s!"argument {index} is not an {type.name}",
              cause := some e.message }
    | .ok v => return v :: (← parseFrom (index + 1) types texts)
  | _, _, _ => return []

/-- Arguments for a function, no more than it has parameters. -/
def parseArguments (params : List ValType) (texts : List String) :
    Except Failure (List Value) :=
  if params.length < texts.length then
    throw
      { message := s!"expected at most {params.length} arguments, got {texts.length}" }
  else parseFrom 0 params texts

/-- Runs the wanted export of a module under an observer. -/
def runEntry {σ : Type} (fuel : Nat) (m : Module) (o : Options) (observer : Observer σ)
    (watch : σ) : Except (Failure ⊕ Halt) (List Value) × Option σ :=
  match Instance.create m ({} : Imports Unit) defaultMaxDepth observer () watch with
  | .error t => (.error (.inl (.ofError (.trap t none))), none)
  | .ok i =>
    match m.exportedFunction o.entry with
    | .error e => (.error (.inl (.ofError e)), none)
    | .ok f =>
      match parseArguments f.type.params o.args with
      | .error failure => (.error (.inl failure), none)
      | .ok args =>
        match i.callIndex fuel f.index args with
        | (.error h, i) => (.error (.inr h), some i.world.watch)
        | (.ok values, i) => (.ok values, some i.world.watch)

/-- The report of a run that has written something already. -/
def reportRun (stdout : String) : Except (Failure ⊕ Halt) (List Value) → Report
  | .error (.inl failure) => .failed stdout failure
  | .error (.inr h) => .halted stdout h
  | .ok values =>
    { stdout := stdout ++ String.join (values.map fun v => v.text ++ "\n"),
      ending := .exit 0 }

/-- Runs an export under the debugger. -/
def debugEntry (fuel : Nat) (m : Module) (o : Options) (answers : List String)
    (closed : Bool) : Report :=
  let debugger := Debugger.start m .ansi ({ answers, closed } : Terminal)
  match runEntry fuel m o (Debugger.observer m Terminal.controller) debugger with
  | (result, none) => reportRun "" result
  | (result, some debugger) =>
    let terminal := debugger.controller
    if terminal.starved then { stdout := terminal.output, ending := .starved }
    else reportRun terminal.output result

/-- Carries out a command on the contents of its file, or on the reason why they
cannot be read. -/
def execute (fuel : Nat) (style : Style) (o : Options)
    (contents : Except String (Array UInt8)) (answers : List String)
    (closed : Bool) : Report :=
  match contents with
  | .error reason =>
      .failed "" { message := s!"could not read `{o.file}`", cause := some reason }
  | .ok bytes =>
    match Module.decode fuel bytes with
    | .error h => .halted "" h
    | .ok m =>
      if o.listing then { stdout := (Listing.ofModule m style).text, ending := .exit 0 }
      else if o.debug then debugEntry fuel m o answers closed
      else reportRun "" (runEntry fuel m o .silent ()).1

/-- The reason why a file that does not exist cannot be read. -/
def missingFile : String :=
  "No such file or directory (os error 2)"

/-- The lines of an input, the last one also without a line break. -/
def lines (input : String) : List String :=
  let pieces := (input.splitOn "\n")
  if pieces.getLast? = some "" then pieces.dropLast else pieces

/-- A whole session with plain output, on files and an input given beforehand. -/
def session (fuel : Nat) (files : String → Option (Array UInt8)) (args : List String)
    (input : String) : Report :=
  match Options.ofArgs args with
  | .error failure => .failed "" failure
  | .ok o =>
    let contents := match files o.file with
      | some bytes => Except.ok bytes
      | none => Except.error missingFile
    execute fuel .plain o contents (lines input) true

end WasmVm.Cli
