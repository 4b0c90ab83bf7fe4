/-
Cursors as views of one input.  Whatever is read or split off, and whether it succeeds
or fails, a cursor looks at one stretch of the input and knows where in the input it
stands.
-/
import WasmVm.Proofs.Reading.Exact

namespace WasmVm

namespace Reading

variable {α β : Type}

/-- Where a read leaves the cursor, whether it succeeds or fails. -/
def after (r : Reading α) (c : Cursor) : Cursor :=
  match r c with
  | .ok _ c' => c'
  | .error _ c' => c'

/-- The reads of as many bytes as are asked for. -/
inductive Sized : {α : Type} → Reading α → Prop
  | bytes (count : Nat) : Sized (bytes count)
  | skip (count : Nat) : Sized (skip count)
  | window (count : Nat) : Sized (window count)
  | f32 : Sized f32
  | f64 : Sized f64

/-- The operations of a cursor. -/
inductive Operation : {α : Type} → Reading α → Prop
  | sized {α : Type} {r : Reading α} (h : Sized r) : Operation r
  | byte : Operation byte
  | u32 : Operation u32
  | s32 : Operation s32
  | s33 : Operation s33
  | s64 : Operation s64
  | name : Operation name

/-! ### Reads that take nothing when they fail -/

/-- Where the read fails, the cursor has not moved. -/
def Untouched (r : Reading α) : Prop :=
  ∀ c e c', r c = .error e c' → c' = c

theorem Untouched.bind_pure {r : Reading α} (h : Untouched r) (f : α → β) :
    Untouched (r >>= fun a => pure (f a)) := by
  intro c e c' hfails
  rcases EStateM.bind_eq_error hfails with hr | ⟨a, mid, -, hpure⟩
  · exact h c e c' hr
  · cases hpure

theorem bytes_untouched (count : Nat) : Untouched (bytes count) := by
  intro c e c' hfails
  unfold bytes at hfails
  split at hfails <;> cases hfails
  rfl

theorem Sized.untouched {r : Reading α} (h : Sized r) : Untouched r := by
  cases h with
  | bytes count => exact bytes_untouched count
  | skip count => exact (bytes_untouched count).bind_pure fun _ => ()
  | window count =>
      -- The offset is looked up first, which neither fails nor moves.
      intro c e c' hfails
      let split (taken : Array UInt8) : Cursor := ⟨taken, 0, c.offset⟩
      exact (bytes_untouched count).bind_pure split c e c' hfails
  | f32 => exact (bytes_untouched 4).bind_pure _
  | f64 => exact (bytes_untouched 8).bind_pure _

/-! ### Reads that stay in their window -/

/-- The read goes on by some of the bytes that are left, also where it fails. -/
def Forward (r : Reading α) : Prop :=
  ∀ c, ∃ count ≤ c.remaining, r.after c = c.advance count

namespace Forward

theorem pure (a : α) : Forward (Pure.pure a : Reading α) :=
  fun _ => ⟨0, Nat.zero_le _, rfl⟩

theorem fail (fault : FormatFault) : Forward (Reading.fail fault : Reading α) :=
  fun _ => ⟨0, Nat.zero_le _, rfl⟩

/-- One read after the other. -/
theorem bind {r : Reading α} {f : α → Reading β} (hr : Forward r)
    (hf : ∀ a, Forward (f a)) :
    Forward (r >>= f) := by
  intro c
  obtain ⟨first, hfirst, hafter⟩ := hr c
  unfold after at hafter ⊢
  cases hread : r c with
  | error e mid =>
      rw [hread] at hafter
      rw [EStateM.bind_of_error hread]
      exact ⟨first, hfirst, hafter⟩
  | ok a mid =>
      rw [hread] at hafter
      obtain rfl := hafter
      obtain ⟨next, hnext, hlast⟩ := hf a (c.advance first)
      rw [EStateM.bind_of_ok hread]
      have hleft : (c.advance first).remaining = c.remaining - first := by
        simp only [Cursor.remaining, Cursor.bytes_advance,
          Cursor.pos_advance, Nat.sub_add_eq]
      refine ⟨first + next, by omega, ?_⟩
      rw [← Cursor.advance_advance]
      exact hlast

theorem ite {p : Prop} [Decidable p] {r s : Reading α} (hr : Forward r)
    (hs : Forward s) :
    Forward (if p then r else s) := by
  split
  · exact hr
  · exact hs

end Forward

theorem offset_forward : Forward offset :=
  fun _ => ⟨0, Nat.zero_le _, rfl⟩

theorem byte_forward : Forward byte := by
  intro c
  unfold after byte
  cases hnext : c.bytes[c.pos]? with
  | none => exact ⟨0, Nat.zero_le _, rfl⟩
  | some b =>
      obtain ⟨hlt, -⟩ := Array.getElem?_eq_some_iff.mp hnext
      exact ⟨1, Nat.sub_pos_of_lt hlt, rfl⟩

theorem bytes_forward (count : Nat) : Forward (bytes count) := by
  intro c
  unfold after bytes
  by_cases hshort : c.remaining < count
  · rw [if_pos hshort]
    exact ⟨0, Nat.zero_le _, rfl⟩
  · rw [if_neg hshort]
    exact ⟨count, Nat.not_lt.mp hshort, rfl⟩

theorem group_forward (tooLong : FormatFault) (limit : Nat) :
    Forward (group tooLong limit) := by
  induction limit with
  | zero => exact .fail tooLong
  | succ limit ih =>
      exact byte_forward.bind fun _ => .ite (.pure _) (ih.bind fun _ => .pure _)

theorem u32_forward : Forward u32 :=
  offset_forward.bind fun _ => (group_forward _ 5).bind fun _ =>
    .ite (.pure _) (.fail _)

theorem wide_forward (bits : Nat) : Forward (wide bits) :=
  offset_forward.bind fun _ => (group_forward _ _).bind fun _ => .pure _

theorem Sized.forward {r : Reading α} (h : Sized r) : Forward r := by
  cases h with
  | bytes count => exact bytes_forward count
  | skip count => exact (bytes_forward count).bind fun _ => .pure _
  | window count => exact offset_forward.bind fun _ =>
      (bytes_forward count).bind fun _ => .pure _
  | f32 => exact (bytes_forward 4).bind fun _ => .pure _
  | f64 => exact (bytes_forward 8).bind fun _ => .pure _

/-- Every operation stays in its window. -/
theorem Operation.forward {r : Reading α} (h : Operation r) : Forward r := by
  cases h with
  | sized h => exact h.forward
  | byte => exact byte_forward
  | u32 => exact u32_forward
  | s32 =>
      exact offset_forward.bind fun _ => (wide_forward 32).bind fun _ =>
        .ite (.pure _) (.fail _)
  | s33 => exact wide_forward 33
  | s64 => exact wide_forward 64
  | name => exact u32_forward.bind fun length =>
      (bytes_forward length).bind fun _ => .pure _

/-! ### What is read -/

theorem byte_eq_ok_iff {c c' : Cursor} {b : UInt8} : byte c = .ok b c' ↔
    c.pos < c.bytes.size ∧ c.bytes[c.pos]? = some b ∧ c' = c.advance 1 := by
  unfold byte
  constructor
  · intro h
    split at h
    · next found hfound =>
        cases h
        exact ⟨(Array.getElem?_eq_some_iff.mp hfound).1, hfound, rfl⟩
    · cases h
  · rintro ⟨-, hb, rfl⟩
    rw [hb]

theorem bytes_eq_ok_iff {count : Nat} {c c' : Cursor} {taken : Array UInt8} :
    bytes count c = .ok taken c' ↔
      count ≤ c.remaining ∧ taken = c.bytes.extract c.pos (c.pos + count) ∧
        c' = c.advance count := by
  unfold bytes
  constructor
  · intro h
    split at h
    · cases h
    · next hlong =>
        cases h
        exact ⟨Nat.not_lt.mp hlong, rfl, rfl⟩
  · rintro ⟨hlong, rfl, rfl⟩
    rw [if_neg (Nat.not_lt.mpr hlong)]

/-- A window that is split off holds the next bytes, and stands at its start. -/
theorem window_eq_ok_iff {count : Nat} {c inner c' : Cursor} :
    window count c = .ok inner c' ↔
      count ≤ c.remaining ∧
      inner = ⟨c.bytes.extract c.pos (c.pos + count), 0, c.offset⟩ ∧
        c' = c.advance count := by
  constructor
  · intro h
    obtain ⟨base, _, ⟨⟩, h⟩ := EStateM.bind_eq_ok h
    obtain ⟨taken, mid, htaken, ⟨⟩⟩ := EStateM.bind_eq_ok h
    obtain ⟨hcount, rfl, rfl⟩ := bytes_eq_ok_iff.mp htaken
    exact ⟨hcount, rfl, rfl⟩
  · rintro ⟨hcount, rfl, rfl⟩
    change (bytes count >>= fun taken =>
      (pure ⟨taken, 0, c.offset⟩ : Reading Cursor)) c = _
    rw [EStateM.bind_of_ok (bytes_eq_ok_iff.mpr ⟨hcount, rfl, rfl⟩)]
    rfl

end Reading

namespace Cursor

/-- The cursors that come from a cursor by its operations, whether they succeed or
fail, and by the operations of the windows that are split off. -/
inductive Leads (c : Cursor) : Cursor → Prop
  | start : Leads c c
  | after {d} {α : Type} {r : Reading α} (h : Leads c d) (hr : Reading.Operation r) :
      Leads c (r.after d)
  | window {d inner d' count} (h : Leads c d)
      (hwindow : Reading.window count d = .ok inner d') :
      Leads c inner

theorem Leads.trans {c d e : Cursor} (h : c.Leads d) (h' : d.Leads e) : c.Leads e := by
  induction h' with
  | start => exact h
  | after _ hr ih => exact ih.after hr
  | window _ hwindow ih => exact ih.window hwindow

/-- A cursor over a stretch of what another one looks at. -/
structure Views (whole c : Cursor) : Prop where
  pos_le : c.pos ≤ c.bytes.size
  base_le : whole.base ≤ c.base
  end_le : c.base + c.bytes.size ≤ whole.base + whole.bytes.size
  bytes_eq : c.bytes =
    whole.bytes.extract (c.base - whole.base) (c.base - whole.base + c.bytes.size)

namespace Views

variable {whole c inner c' : Cursor}

theorem refl (h : c.pos ≤ c.bytes.size) : c.Views c :=
  ⟨h, Nat.le_refl _, Nat.le_refl _, by simp⟩

theorem advance (h : whole.Views c) {count : Nat} (hcount : count ≤ c.remaining) :
    whole.Views (c.advance count) := by
  refine { h with pos_le := ?_ }
  have hpos := h.pos_le
  rw [remaining] at hcount
  rw [pos_advance, bytes_advance]
  omega

/-- The next bytes are those of the whole at the same offset. -/
theorem extract_eq (h : whole.Views c) {count : Nat} (hcount : count ≤ c.remaining) :
    c.bytes.extract c.pos (c.pos + count) =
      whole.bytes.extract (c.offset - whole.base) (c.offset - whole.base + count) := by
  have hpos := h.pos_le
  have hbase := h.base_le
  rw [remaining] at hcount
  have hstart : c.base - whole.base + c.pos = c.offset - whole.base := by
    rw [offset]
    omega
  have hend : min (c.base - whole.base + (c.pos + count))
      (c.base - whole.base + c.bytes.size) = c.offset - whole.base + count := by
    rw [offset]
    omega
  rw [h.bytes_eq, Array.extract_extract, hstart, hend]

/-- So is the next byte. -/
theorem getElem?_eq (h : whole.Views c) (hmore : c.pos < c.bytes.size) :
    c.bytes[c.pos]? = whole.bytes[c.offset - whole.base]? := by
  have hone := h.extract_eq (show 1 ≤ c.remaining from Nat.sub_pos_of_lt hmore)
  have hpos := h.pos_le
  have hbase := h.base_le
  have hend := h.end_le
  have hinside : c.offset - whole.base < whole.bytes.size := by
    rw [offset]
    omega
  have hfirst := congrArg (·[0]?) hone
  simp only [Array.getElem?_extract, Nat.add_zero] at hfirst
  rwa [if_pos (by omega), if_pos (by omega)] at hfirst

theorem window (h : whole.Views c) {count : Nat}
    (hwindow : Reading.window count c = .ok inner c') : whole.Views inner := by
  obtain ⟨hcount, rfl, -⟩ := Reading.window_eq_ok_iff.mp hwindow
  have hpos := h.pos_le
  have hbase := h.base_le
  have hend := h.end_le
  have hsize : (c.bytes.extract c.pos (c.pos + count)).size = count := by
    rw [remaining] at hcount
    rw [Array.size_extract]
    omega
  refine ⟨Nat.zero_le _, ?_, ?_, ?_⟩
  · exact Nat.le_trans hbase (Nat.le_add_right _ _)
  · rw [remaining] at hcount
    rw [hsize]
    dsimp only [offset]
    omega
  · rw [hsize]
    exact h.extract_eq hcount

end Views

/-- Whatever comes from a cursor views a stretch of what it looks at. -/
theorem Leads.views {c d : Cursor} (h : c.Leads d) (hc : c.pos ≤ c.bytes.size) :
    c.Views d := by
  induction h with
  | start => exact .refl hc
  | after _ hr ih =>
      obtain ⟨count, hcount, hafter⟩ := hr.forward _
      rw [hafter]
      exact ih.advance hcount
  | window _ hwindow ih => exact ih.window hwindow

/-- A cursor that gives the bytes of an input from its offset on, as far as its window
goes. -/
structure StandsIn (input : Array UInt8) (c : Cursor) : Prop where
  pos_le : c.pos ≤ c.bytes.size
  remaining_eq : c.pos + c.remaining = c.bytes.size
  end_le : c.offset + c.remaining ≤ input.size
  slice : c.bytes = input.extract (c.offset - c.pos) (c.offset - c.pos + c.bytes.size)
  next : ∀ b c', Reading.byte c = .ok b c' ↔
    c.pos < c.bytes.size ∧ input[c.offset]? = some b ∧ c' = c.advance 1
  taken : ∀ count taken c', Reading.bytes count c = .ok taken c' ↔
    count ≤ c.remaining ∧ taken = input.extract c.offset (c.offset + count) ∧
    c' = c.advance count

theorem Views.standsIn {input : Array UInt8} {c : Cursor}
    (h : (ofBytes input).Views c) :
    c.StandsIn input := by
  have hpos := h.pos_le
  have hend := h.end_le
  have hbase : c.offset - c.pos = c.base := Nat.add_sub_cancel _ _
  refine ⟨hpos, ?_, ?_, ?_, fun b c' => ?_, fun count taken c' => ?_⟩
  · exact Nat.add_sub_cancel' hpos
  · dsimp only [ofBytes] at hend
    rw [remaining, offset]
    omega
  · rw [hbase]
    exact h.bytes_eq
  · rw [Reading.byte_eq_ok_iff]
    exact and_congr_right fun hmore => and_congr_left'
      (by rw [h.getElem?_eq hmore]; rfl)
  · rw [Reading.bytes_eq_ok_iff]
    exact and_congr_right fun hcount => and_congr_left'
      (by rw [h.extract_eq hcount]; rfl)

end Cursor

/-- Cursors stay where they are in the input.  Whatever was read, skipped or split off
before, and whether that succeeded or failed, a cursor stands inside its window, its
window is the stretch of the input that ends as many bytes behind its offset as are
left, and the byte that it gives next is that of the input at its offset.  A window
that is split off never gives a byte outside its own, and the cursor it comes from goes
on right behind them.  Reads of as many bytes as are asked for take none when they
fail. -/
theorem cursors_view_input {input : Array UInt8} {c : Cursor}
    (h : (Cursor.ofBytes input).Leads c) :
    c.StandsIn input ∧
    (∀ count inner c', Reading.window count c = .ok inner c' →
      (c'.bytes = c.bytes ∧ c'.offset = c.offset + count) ∧
      (inner.offset = c.offset ∧ inner.bytes = input.extract c.offset
        (c.offset + count)) ∧
      ∀ d, inner.Leads d → d.StandsIn input ∧
        c.offset ≤ d.offset ∧ d.offset + d.remaining ≤ c.offset + count) ∧
    ∀ {α : Type} (r : Reading α), Reading.Sized r → ∀ e c',
      r c = .error e c' → c' = c := by
  have hviews := h.views (Nat.zero_le _)
  refine ⟨hviews.standsIn, fun count inner c' hwindow => ?_, fun r hr => hr.untouched c⟩
  obtain ⟨hcount, rfl, rfl⟩ := Reading.window_eq_ok_iff.mp hwindow
  refine ⟨⟨rfl, Nat.add_assoc c.base c.pos count |>.symm⟩,
    ⟨rfl, hviews.extract_eq hcount⟩,
    fun d hd => ?_⟩
  have hinner := hd.views (Nat.zero_le _)
  refine ⟨(((h.window hwindow).trans hd).views (Nat.zero_le _)).standsIn, ?_, ?_⟩
  · exact Nat.le_trans hinner.base_le (Nat.le_add_right _ _)
  · have hpos := hinner.pos_le
    have hend := hinner.end_le
    rw [Array.size_extract] at hend
    rw [Cursor.remaining] at hcount ⊢
    rw [Cursor.offset]
    dsimp only at hend
    omega

namespace ViewsWitness

/-- Behind the first byte three bytes are split off, one of which is read. -/
theorem leads_inner :
    (Cursor.ofBytes #[7, 8, 9, 10, 11]).Leads ⟨#[8, 9, 10], 1, 1⟩ := by
  have hfirst : (Cursor.ofBytes #[7, 8, 9, 10, 11]).Leads ⟨#[7, 8, 9, 10, 11], 1, 0⟩ :=
    Cursor.Leads.start.after .byte
  have hwindow : Reading.window 3 ⟨#[7, 8, 9, 10, 11], 1, 0⟩ =
      .ok ⟨#[8, 9, 10], 0, 1⟩ ⟨#[7, 8, 9, 10, 11], 4, 0⟩ := rfl
  exact (hfirst.window hwindow).after .byte

/-- The window gives the byte at offset two, and a read of more than it holds takes
nothing. -/
theorem inner_stands_in_input :
    (Cursor.ofBytes #[7, 8, 9, 10, 11]).Leads ⟨#[8, 9, 10], 1, 1⟩ ∧
      Reading.byte ⟨#[8, 9, 10], 1, 1⟩ = .ok 9 ⟨#[8, 9, 10], 2, 1⟩ ∧
      Reading.after (Reading.bytes 3) ⟨#[8, 9, 10], 1, 1⟩ = ⟨#[8, 9, 10], 1, 1⟩ := by
  obtain ⟨hstands, -, huntouched⟩ := cursors_view_input leads_inner
  refine ⟨leads_inner, (hstands.next 9 _).mpr ⟨by decide, by decide, rfl⟩, ?_⟩
  exact huntouched (Reading.bytes 3) (.bytes 3) (.format (.shortInput 3 2 2)) _ rfl

end ViewsWitness

end WasmVm
