/-
Reads go on inside their windows.  A cursor in its window comes to a later one of the
same window, whatever is read; this is what makes every access to the input one that is
in range.
-/
import WasmVm.Proofs.Decoding.Indices

namespace WasmVm

/-- The position is inside the window or at its end. -/
def Cursor.InWindow (c : Cursor) : Prop :=
  c.pos ≤ c.bytes.size

/-- A later position in the same window. -/
structure Cursor.Precedes (c c' : Cursor) : Prop where
  bytes : c'.bytes = c.bytes
  pos : c.pos ≤ c'.pos
  inWindow : c'.InWindow

namespace Cursor

variable {c c' c'' : Cursor}

theorem Precedes.refl (h : c.InWindow) : c.Precedes c :=
  ⟨rfl, Nat.le_refl _, h⟩

theorem Precedes.trans (h : c.Precedes c') (h' : c'.Precedes c'') : c.Precedes c'' :=
  ⟨h'.bytes.trans h.bytes, Nat.le_trans h.pos h'.pos, h'.inWindow⟩

theorem InWindow.advance (h : c.InWindow) {bytes : List UInt8}
    (hahead : bytes <+: c.rest) :
    c.Precedes (c.advance bytes.length) := by
  have hlength := hahead.length_le
  rw [length_rest, remaining] at hlength
  refine ⟨rfl, Nat.le_add_right _ _, ?_⟩
  unfold InWindow at h ⊢
  rw [pos_advance, bytes_advance]
  omega

end Cursor

/-- A read that goes on inside its window. -/
def Onward {ε α : Type} (x : EStateM ε Cursor α) : Prop :=
  ∀ c a c', x c = .ok a c' → c.InWindow → c.Precedes c'

theorem Reads.onward {α : Type} {r : Reading α} {E : α → List UInt8 → Prop}
    (h : Reads r E) :
    Onward r := by
  intro c a c' hok hc
  obtain ⟨bytes, -, hahead, rfl⟩ := (h c a c').mp hok
  exact hc.advance hahead

namespace Onward

variable {ε α β : Type} {x : EStateM ε Cursor α} {f : α → EStateM ε Cursor β}

theorem pure (a : α) : Onward (Pure.pure a : EStateM ε Cursor α) := by
  rintro c _ _ ⟨⟩ hc
  exact .refl hc

theorem fail (fault : FormatFault) : Onward (Reading.fail fault : Reading α) := by
  rintro c _ _ ⟨⟩

theorem bind (hx : Onward x) (hf : ∀ a, Onward (f a)) : Onward (x >>= f) := by
  intro c b c' hok hc
  obtain ⟨a, mid, hmid, hrest⟩ := EStateM.bind_eq_ok hok
  have hfirst := hx c a mid hmid hc
  exact hfirst.trans (hf a mid b c' hrest hfirst.inWindow)

theorem ite {p : Prop} [Decidable p] {y : EStateM ε Cursor α} (hx : Onward x)
    (hy : Onward y) :
    Onward (if p then x else y) := by
  split
  · exact hx
  · exact hy

end Onward

namespace Reading

open Onward

theorem offset_onward : Onward offset := by
  rintro c _ _ ⟨⟩ hc
  exact .refl hc

theorem byte_onward : Onward byte := byte_reads.onward

theorem u32_onward : Onward u32 := u32_reads.onward

theorem valType_onward : Onward valType := valType_reads.onward

theorem forRange_onward {α : Type} {read : Nat → α → Reading α}
    (hread : ∀ turn a, Onward (read turn a)) (left turn : Nat) (a : α) :
    Onward (forRange read left turn a) := by
  induction left generalizing turn a with
  | zero => exact .pure a
  | succ left ih => exact (hread turn a).bind fun a => ih (turn + 1) a

theorem valTypes_onward : Onward valTypes :=
  u32_onward.bind fun count => (many_reads valType_reads count).onward.bind
    fun _ => .pure _

theorem typeIndex_onward (m : Module) : Onward (typeIndex m) :=
  offset_onward.bind fun _ => u32_onward.bind fun _ => .ite (.pure _) (.fail _)

theorem limits_onward : Onward limits :=
  byte_onward.bind fun _ => u32_onward.bind fun _ =>
    .ite (.pure _) (.ite (u32_onward.bind fun _ => .pure _) (.fail _))

theorem memoryLimits_onward : Onward memoryLimits :=
  limits_onward.bind fun _ => .ite (.fail _) (.ite (.fail _) (.pure _))

theorem mutability_onward : Onward mutability :=
  byte_onward.bind fun _ => .ite (.pure _) (.ite (.pure _) (.fail _))

theorem tag_onward (m : Module) : Onward (tag m) :=
  byte_onward.bind fun _ => typeIndex_onward m

theorem exportKind_onward (name : String) : Onward (exportKind name) :=
  byte_onward.bind fun _ => .ite (.pure _) <| .ite (.pure _) <| .ite (.pure _) <|
    .ite (.pure _) <| .ite (.pure _) (.fail _)

theorem localGroup_onward (function : Nat) (locals : Array ValType) :
    Onward (localGroup function locals) :=
  u32_onward.bind fun _ => valType_onward.bind fun _ => .ite (.fail _) (.pure _)

end Reading

end WasmVm
