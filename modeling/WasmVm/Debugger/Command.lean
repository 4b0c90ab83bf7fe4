/-
What a user can tell the debugger.  A command is made of words between blanks, which
are the characters with the White_Space property.
-/
import WasmVm.Decimal.Literal

namespace WasmVm

namespace Text

/-- Whether a character has the White_Space property. -/
def isBlank (c : Char) : Bool :=
  let n := c.toNat
  (0x9 ≤ n && n ≤ 0xd) || n == 0x20 || n == 0x85 || n == 0xa0 || n == 0x1680
    || (0x2000 ≤ n && n ≤ 0x200a) || n == 0x2028 || n == 0x2029 || n ==
      0x202f || n == 0x205f
    || n == 0x3000

/-- The words of a text, given the start of the word that is being read. -/
def wordsFrom : List Char → List Char → List String
  | word, [] => if word.isEmpty then [] else [String.ofList word.reverse]
  | word, c :: rest =>
    if isBlank c then
      if word.isEmpty then wordsFrom [] rest
      else String.ofList word.reverse :: wordsFrom [] rest
    else wordsFrom (c :: word) rest

/-- The maximal runs of characters that are not blank. -/
def words (text : String) : List String :=
  wordsFrom [] text.toList

end Text

/-- An answer to the debugger's prompt. -/
inductive Command where
  | resume
  | stepOver
  | stepIn
  | stepOut
  /-- Flips the breakpoint on a line, counted from zero, and stays paused. -/
  | toggle (line : Nat)
  | quit
  deriving DecidableEq

namespace Command

/-- A line number as typed, counted from one, turned into one counted from zero. -/
def line? (word : String) : Option Nat :=
  match Decimal.readNat 64 word with
  | .ok (n + 1) => some n
  | _ => none

/-- The command that a typed line gives.  An empty line steps over; words after
the command are ignored. -/
def ofText? (text : String) : Option Command :=
  match Text.words text with
  | [] => some stepOver
  | word :: rest =>
    if word = "c" ∨ word = "continue" then some resume
    else if word = "n" ∨ word = "next" then some stepOver
    else if word = "s" ∨ word = "step" then some stepIn
    else if word = "o" ∨ word = "out" then some stepOut
    else if word = "q" ∨ word = "quit" then some quit
    else if word = "b" ∨ word = "break" then (rest.head?.bind line?).map toggle
    else none

end Command

end WasmVm
