/-
Listings: every defined function as text, one instruction to a line.  An
instruction line knows the program point it shows, so that a debugger can go
from lines to points and back.
-/
import WasmVm.Body.Flat
import WasmVm.Module.Basic
import Std.Data.HashMap

namespace WasmVm

/-- Whether a listing is coloured. -/
inductive Style where
  | plain | ansi
  deriving DecidableEq

/-- A function and the number of an instruction in its body. -/
structure ProgramPoint where
  function : Nat
  node : Nat
  deriving DecidableEq, Hashable

/-- What a line shows. -/
inductive LineText where
  /-- A function's signature or a local. -/
  | heading (text : String)
  | instruction (depth : Nat) (op : Opcode) (operands : String) (comments : List String)
  | blank

/-- One line of a listing. -/
structure Line where
  text : LineText
  /-- The instruction that the line shows, if it shows one. -/
  point : Option ProgramPoint

namespace Ansi

/-- Ends a colour. -/
def reset : String := "\x1b[0m"

/-- Starts faint text. -/
def dim : String := "\x1b[2m"

/-- The colour of operands. -/
def number : String := "\x1b[33m"

/-- The colour of an instruction's name. -/
def colour : Category → Option String
  | .scope => some "\x1b[95m"
  | .branch => some "\x1b[35m"
  | .variable => some "\x1b[31m"
  | .memory => some "\x1b[34m"
  | .numeric => some "\x1b[36m"
  | .trap => some "\x1b[91m"
  | .other => none

/-- A text in a colour; nothing is painted if there is nothing to show. -/
def paint (colour text : String) : String :=
  if text.isEmpty then "" else colour ++ text ++ reset

end Ansi

namespace LineText

/-- A line as it is printed. -/
def render (style : Style) : LineText → String
  | heading text =>
    match style with
    | .plain => text
    | .ansi => "\x1b[1m" ++ text ++ "\x1b[22m"
  | blank => ""
  | instruction depth op operands comments =>
    let indent := String.join (List.replicate (depth + 1) "  ")
    let comment := if comments.isEmpty then ""
      else " ;; " ++ " ;; ".intercalate comments
    match style with
    | .plain => indent ++ op.name ++ operands ++ comment
    | .ansi =>
      let name := match Ansi.colour op.category with
        | some colour => Ansi.paint colour op.name
        | none => op.name
      indent ++ name ++ Ansi.paint Ansi.number operands ++ Ansi.paint Ansi.dim comment

end LineText

/-- A signature, such as `(i32, i32) -> (i64)`. -/
def FuncType.text (t : FuncType) : String :=
  let types (ts : List ValType) : String := ", ".intercalate (ts.map ValType.name)
  "(" ++ types t.params ++ ") -> (" ++ types t.results ++ ")"

/-- What a listing says about a call. -/
def CallTarget.comment (m : Module) (target : CallTarget) : String :=
  let signature := (m.types[target.typeIndex]?).elim "" FuncType.text
  match target.source with
  | some i => s!"import {i.module}.{i.name} {signature}"
  | none => s!"${m.functionName target.function} {signature}"

/-- Where a branch of a relative depth goes, seen from an absolute depth. -/
def gotoComment (depth relative : Nat) : String :=
  if relative ≤ depth then s!"goto @{depth - relative}"
  else s!"goto out of range ({relative})"

namespace FlatEntry

/-- The name that branches use for the scope that starts at the entry. -/
def label (e : FlatEntry) : String :=
  s!"label @{e.depth + 1}"

/-- Remarks on an instruction: the label it sets, or where it goes. -/
def comments (m : Module) (e : FlatEntry) : List String :=
  match e.node with
  | .scope .. => [e.label]
  | .plain _ instr =>
    match instr with
    | .catchTag _ | .catchAll => [e.label]
    | .br relative | .brIf relative => [gotoComment e.depth relative]
    | .call target => [target.comment m]
    | _ => []

/-- The text of an entry. -/
def lineText (m : Module) (e : FlatEntry) : LineText :=
  match e.mark with
  | .instruction => .instruction e.depth e.node.opcode e.node.operands (e.comments m)
  | .otherwise => .instruction e.depth .elseThen "" [e.label]
  | .close => .instruction e.depth .endScope "" []

/-- The line of an entry of a function's body; marks have no program point. -/
def line (m : Module) (function : Nat) (e : FlatEntry) : Line :=
  { text := e.lineText m
    point := if e.mark = .instruction then some ⟨function, e.node.id⟩ else none }

end FlatEntry

/-- The lines of a function: its signature, its locals, its body. -/
def Code.lines (m : Module) (function : Nat) (code : Code) : List Line :=
  let signature := (m.functionType? function).elim "(?)" FuncType.text
  let heading (text : String) : Line := ⟨.heading text, none⟩
  let locals := (code.locals.toList.zipIdx.drop code.params).map fun (type, index) =>
    heading s!";; local {index}: {type.name}"
  heading s!"{m.functionName function}({function}) {signature}" :: locals
    ++ code.body.entries.map (FlatEntry.line m function)

/-- The lines of all functions from a number on, with a blank line between two. -/
def functionLines (m : Module) : (turn : Nat) → List Code → List Line
  | _, [] => []
  | turn, code :: rest =>
    let lines := code.lines m (m.importedFunctions + turn)
    (if turn = 0 then lines else ⟨.blank, none⟩ :: lines) ++
      functionLines m (turn + 1) rest

/-- A listing with an index from program points to lines. -/
structure Listing where
  lines : Array Line
  index : Std.HashMap ProgramPoint Nat
  style : Style

namespace Listing

/-- The number of the line that shows each program point. -/
def indexLines (lines : List Line) : Std.HashMap ProgramPoint Nat :=
  lines.zipIdx.foldl (fun index (line, number) =>
    match line.point with
    | some p => index.insert p number
    | none => index) ∅

/-- The listing of all functions that a module defines. -/
def ofModule (m : Module) (style : Style) : Listing :=
  let lines := functionLines m 0 m.codes.toList
  ⟨lines.toArray, indexLines lines, style⟩

/-- The number of lines. -/
def size (l : Listing) : Nat :=
  l.lines.size

/-- The line that shows a program point. -/
def lineOf? (l : Listing) (p : ProgramPoint) : Option Nat :=
  l.index[p]?

/-- The program point that a line shows. -/
def point? (l : Listing) (line : Nat) : Option ProgramPoint :=
  (l.lines[line]?).bind (·.point)

/-- The text of a line. -/
def text? (l : Listing) (line : Nat) : Option String :=
  (l.lines[line]?).map fun line => line.text.render l.style

/-- All lines, each with a line break. -/
def text (l : Listing) : String :=
  l.lines.foldl (fun s line => s ++ line.text.render l.style ++ "\n") ""

end Listing

end WasmVm
