/-
Reading bytes one after the other.  A cursor looks at a window of the input and
knows where that window lies, so that messages give offsets in the whole input.
A failed read leaves the cursor where the failure was found.
-/
import WasmVm.Error
import WasmVm.LittleEndian
import WasmVm.Text.Utf8

namespace WasmVm

/-- A position in a window of bytes. -/
structure Cursor where
  /-- The window. -/
  bytes : Array UInt8
  /-- Bytes of the window read so far. -/
  pos : Nat
  /-- Where the window starts in the whole input. -/
  base : Nat

namespace Cursor

/-- The start of a whole input. -/
def ofBytes (bytes : Array UInt8) : Cursor :=
  ⟨bytes, 0, 0⟩

/-- Position in the whole input. -/
def offset (c : Cursor) : Nat :=
  c.base + c.pos

/-- Bytes of the window still to be read. -/
def remaining (c : Cursor) : Nat :=
  c.bytes.size - c.pos

/-- Whether the whole window has been read. -/
def isFinished (c : Cursor) : Bool :=
  c.bytes.size ≤ c.pos

/-- The bytes still to be read. -/
def rest (c : Cursor) : List UInt8 :=
  c.bytes.toList.drop c.pos

/-- The bytes read since the window's position `start`. -/
def since (c : Cursor) (start : Nat) : List UInt8 :=
  (c.bytes.extract start c.pos).toList

/-- The cursor `count` bytes further on. -/
def advance (c : Cursor) (count : Nat) : Cursor :=
  { c with pos := c.pos + count }

@[simp] theorem bytes_advance (c : Cursor) (count : Nat) :
    (c.advance count).bytes = c.bytes := rfl

@[simp] theorem base_advance (c : Cursor) (count : Nat) :
    (c.advance count).base = c.base := rfl

@[simp] theorem pos_advance (c : Cursor) (count : Nat) :
    (c.advance count).pos = c.pos + count := rfl

/-- Moving on drops bytes from the rest. -/
@[simp] theorem rest_advance (c : Cursor) (count : Nat) :
    (c.advance count).rest = c.rest.drop count := by
  simp [rest, List.drop_drop]

/-- There are as many bytes to read as are counted. -/
@[simp] theorem length_rest (c : Cursor) : c.rest.length = c.remaining := by
  simp [rest, remaining]

end Cursor

/-- A computation that reads bytes and may fail. -/
abbrev Reading := EStateM Error Cursor

namespace Reading

variable {α : Type}

/-- Refuses the input. -/
def fail (fault : FormatFault) : Reading α := fun c =>
  .error (.format fault) c

/-- The offset of the next byte. -/
def offset : Reading Nat := fun c =>
  .ok c.offset c

/-- The next byte. -/
def byte : Reading UInt8 := fun c =>
  match c.bytes[c.pos]? with
  | some b => .ok b (c.advance 1)
  | none => .error (.format (.endOfInput c.offset)) c

/-- The next `count` bytes; nothing is read if there are fewer. -/
def bytes (count : Nat) : Reading (Array UInt8) := fun c =>
  if c.remaining < count then
    .error (.format (.shortInput count c.offset c.remaining)) c
  else
    .ok (c.bytes.extract c.pos (c.pos + count)) (c.advance count)

/-- Passes over the next `count` bytes, if there are as many. -/
def skip (count : Nat) : Reading Unit := do
  let _ ← bytes count

/-- Splits off the next `count` bytes as a window of their own. -/
def window (count : Nat) : Reading Cursor := do
  let base ← offset
  return ⟨← bytes count, 0, base⟩

/-- Four bytes as the bits of a 32-bit float. -/
def f32 : Reading (BitVec 32) :=
  return BitVec.ofNat 32 (ofLittleEndian (← bytes 4).toList)

/-- Eight bytes as the bits of a 64-bit float. -/
def f64 : Reading (BitVec 64) :=
  return BitVec.ofNat 64 (ofLittleEndian (← bytes 8).toList)

/-- A value type. -/
def valType : Reading ValType := do
  let b ← byte
  match ValType.ofByte? b with
  | some t => return t
  | none => fail (.valueType b)

/-- Repeats a read that builds on what it has, with the number of the turn. -/
def forRange (read : Nat → α → Reading α) : (left turn : Nat) → α → Reading α
  | 0, _, a => pure a
  | left + 1, turn, a => do forRange read left (turn + 1) (← read turn a)

/-- Reads `count` items in order. -/
def many (item : Reading α) (count : Nat) : Reading (Array α) :=
  forRange (fun _ items => return items.push (← item)) count 0 #[]

end Reading

end WasmVm
