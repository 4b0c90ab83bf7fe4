/-
Linear memory: whole pages of bytes with bounds-checked access.  Addresses and
lengths are natural numbers, so that no sum of them wraps.
-/
import WasmVm.Error
import WasmVm.LittleEndian

namespace WasmVm

/-- A memory and the number of pages it may grow to. -/
structure Memory where
  bytes : ByteArray
  maximum : Nat

namespace Memory

/-- So many zero bytes. -/
def zeros (n : Nat) : ByteArray :=
  ⟨Array.replicate n 0⟩

/-- A fresh memory.  The minimum gives way to the maximum. -/
def ofLimits (l : Limits) : Memory :=
  let maximum := min (l.max.getD maxPages) maxPages
  ⟨zeros (min l.min maximum * pageSize), maximum⟩

/-- Size in bytes. -/
def size (m : Memory) : Nat :=
  m.bytes.size

/-- Size in pages. -/
def pages (m : Memory) : Nat :=
  m.size / pageSize

/-- The byte at an address, zero outside. -/
def byte (m : Memory) (i : Nat) : UInt8 :=
  if h : i < m.bytes.size then m.bytes[i] else 0

/-- The `length` bytes from `start` on. -/
def slice (m : Memory) (start length : Nat) : List UInt8 :=
  (List.range length).map fun i => m.byte (start + i)

/-- The memory with `source` laid over the bytes from `start` on. -/
def overlay (m : Memory) (start : Nat) (source : ByteArray) : Memory :=
  { m with bytes := source.copySlice 0 m.bytes start source.size }

/-- Refuses a range that passes the end. -/
def check (m : Memory) (start length : Nat) : Except Trap Unit :=
  if m.size < start + length then .error (.access length start m.size) else .ok ()

/-- Whether `delta` more pages keep within the maximum. -/
def canGrow (m : Memory) (delta : Nat) : Bool :=
  m.pages + delta ≤ m.maximum

/-- The memory with `delta` more pages of zeros. -/
def extend (m : Memory) (delta : Nat) : Memory :=
  { m with bytes := m.bytes ++ zeros (delta * pageSize) }

/-- The former page count and the memory with more pages, if it may have them. -/
def grow (m : Memory) (delta : Nat) : Option (Nat × Memory) :=
  if m.canGrow delta then some (m.pages, m.extend delta) else none

/-- The `length` bytes at an address and a constant offset. -/
def load (m : Memory) (address offset length : Nat) : Except Trap (List UInt8) := do
  m.check (address + offset) length
  return m.slice (address + offset) length

/-- Writes bytes at an address and a constant offset. -/
def store (m : Memory) (address offset : Nat) (bytes : List UInt8) :
    Except Trap Memory := do
  m.check (address + offset) bytes.length
  return m.overlay (address + offset) ⟨bytes.toArray⟩

/-- Sets `length` bytes to one value. -/
def fill (m : Memory) (address : Nat) (value : UInt8) (length : Nat) :
    Except Trap Memory := do
  m.check address length
  return m.overlay address ⟨Array.replicate length value⟩

/-- Copies bytes as they were before, also where the ranges overlap.  The source
is checked first. -/
def copy (m : Memory) (target source length : Nat) : Except Trap Memory := do
  m.check source length
  m.check target length
  return m.overlay target (m.bytes.extract source (source + length))

end Memory

end WasmVm
