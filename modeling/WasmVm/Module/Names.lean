/-
Names of functions.  The section that holds them is for people, so it is read as
far as it is well formed and never refused.
-/
import WasmVm.Leb128
import Std.Data.TreeMap

namespace WasmVm

/-- Function names by index. -/
abbrev Names := Std.TreeMap Nat String

namespace Names

/-- An index and its name. -/
def entry : Reading (Nat × String) := do
  let index ← Reading.u32
  let name ← Reading.name
  return (index, name)

/-- Adds entries until one is malformed, and tells whether all were well formed.
A later name for an index replaces an earlier one. -/
def addEntries : (left : Nat) → Names → Cursor → Names × Bool
  | 0, names, _ => (names, true)
  | left + 1, names, c =>
    match entry c with
    | .ok (index, name) c => addEntries left (names.insert index name) c
    | .error _ _ => (names, false)

/-- A subsection's number and contents. -/
def subsection : Reading (UInt8 × Cursor) := do
  let id ← Reading.byte
  let size ← Reading.u32
  return (id, ← Reading.window size)

/-- Adds the entries of every subsection of function names, with fuel for each
byte of the section. -/
def addSubsections : (fuel : Nat) → Names → Cursor → Names
  | 0, names, _ => names
  | fuel + 1, names, c =>
    if c.isFinished then names
    else
      match subsection c with
      | .error _ _ => names
      | .ok (id, inner) c =>
        if id ≠ 1 then addSubsections fuel names c
        else
          match Reading.u32 inner with
          | .error _ _ => names
          | .ok count inner =>
            match addEntries count names inner with
            | (names, true) => addSubsections fuel names c
            | (names, false) => names

/-- Adds the names of a section. -/
def add (names : Names) (c : Cursor) : Names :=
  addSubsections c.remaining names c

end Names

end WasmVm
