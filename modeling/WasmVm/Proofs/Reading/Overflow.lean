/-
Groups whose number does not fit.  The reads of 32 bits refuse them.  The read of 33
bits returns their number as it is, and the read of 64 bits cuts it off, which changes
it exactly if the tenth byte holds more than copies of the sign.
-/
import WasmVm.Proofs.Reading.Integers

namespace WasmVm

namespace Leb128

/-- The last byte carries the sign, and weighs as much as the bits before it. -/
theorem signed_append_singleton (front : List UInt8) (last : UInt8) :
    signed (front ++ [last]) = unsigned front + 2 ^ (7 * front.length) *
      signed [last] := by
  induction front with
  | nil => simp [unsigned]
  | cons b rest ih =>
      have hrest : rest ++ [last] ≠ [] := by simp
      rw [List.cons_append, signed.eq_3 b _ hrest, ih, unsigned, List.length_cons,
        two_pow_bits_succ]
      push_cast
      ring

theorem IsGroup.last_lt {front : List UInt8} {last : UInt8}
    (h : IsGroup (front ++ [last])) :
    last < 0x80 := by
  induction front with
  | nil =>
      cases h with
      | last hb => exact hb
      | more _ hrest => exact absurd rfl hrest.ne_nil
  | cons b rest ih =>
      rw [List.cons_append] at h
      generalize hrest : rest ++ [last] = tail at h
      cases h with
      | last => simp at hrest
      | more _ htail =>
          subst hrest
          exact ih htail

theorem IsGroup.exists_last {group : List UInt8} (h : IsGroup group) :
    ∃ front last, group = front ++ [last] ∧ last < 0x80 := by
  have hsplit := List.dropLast_concat_getLast h.ne_nil
  rw [← hsplit] at h
  exact ⟨_, _, hsplit.symm, h.last_lt⟩

theorem IsGroup.getLast?_lt {group : List UInt8} {last : UInt8} (h : IsGroup group)
    (hlast : group.getLast? = some last) : last < 0x80 := by
  obtain ⟨front, b, rfl, hb⟩ := h.exists_last
  obtain rfl : b = last := by simpa using hlast
  exact hb

/-- A number fits a width if its last byte fits what the bytes before it leave of the
width. -/
theorem fitsSigned_append_iff {width : Nat} {front : List UInt8} {last : UInt8}
    (hwidth : 7 * front.length < width) :
    FitsSigned width (signed (front ++ [last])) ↔
      FitsSigned (width - 7 * front.length) (signed [last]) := by
  have hlt := unsigned_lt front
  have hpow : (2 : Int) ^ (width - 1) =
      2 ^ (width - 7 * front.length - 1) * 2 ^ (7 * front.length) := by
    rw [← Int.pow_add]
    congr 1
    omega
  have hpos : (0 : Int) < 2 ^ (7 * front.length) := Int.pow_pos (by decide)
  have hquotient : signed (front ++ [last]) / 2 ^ (7 * front.length) =
      signed [last] := by
    rw [signed_append_singleton, Int.add_mul_ediv_left _ _ hpos.ne',
      Int.ediv_eq_zero_of_lt (Int.natCast_nonneg _) (by exact_mod_cast hlt),
        Int.zero_add]
  rw [FitsSigned, FitsSigned, hpow, ← Int.neg_mul, ← Int.le_ediv_iff_mul_le hpos,
    ← Int.ediv_lt_iff_lt_mul hpos, hquotient]

/-- A number of one byte fits seven bits. -/
theorem fitsSigned_singleton_of_seven_le {width : Nat}
    (hwidth : 7 ≤ width) {last : UInt8}
    (hlast : last < 0x80) : FitsSigned width (signed [last]) := by
  have hlt : last.toNat < 128 := hlast
  have hpow : (2 : Int) ^ 6 ≤ 2 ^ (width - 1) :=
    pow_le_pow_right₀ (by decide) (by omega)
  rw [FitsSigned, signed]
  split <;> omega

/-- Only the last byte of a group of full length can make its number too large. -/
theorem fitsSigned_iff {width : Nat} {group : List UInt8} {last : UInt8}
    (hgroup : Within ((width + 6) / 7) group) (hlast : group.getLast? = some last) :
    FitsSigned width (bits group).toInt ↔ group.length < (width + 6) / 7 ∨
      FitsSigned (width - 7 * ((width + 6) / 7 - 1)) (signed [last]) := by
  obtain ⟨hisGroup, hlength⟩ := hgroup
  obtain ⟨front, b, rfl, hb⟩ := hisGroup.exists_last
  obtain rfl : b = last := by simpa using hlast
  rw [List.length_append, List.length_singleton] at hlength
  rw [toInt_bits, fitsSigned_append_iff (by omega), List.length_append,
    List.length_singleton]
  by_cases hshort : front.length + 1 < (width + 6) / 7
  · have hfits : FitsSigned (width - 7 * front.length) (signed [b]) :=
      fitsSigned_singleton_of_seven_le (by omega) hb
    exact iff_of_true hfits (.inl hshort)
  · have hfull : front.length = (width + 6) / 7 - 1 := by omega
    rw [or_iff_right hshort, hfull]

/-- A last byte fits what is left of a width just if its upper bits copy the sign. -/
theorem fitsSigned_singleton_iff {width : Nat} (hwidth : width ≤ 7) {last : UInt8}
    (hlast : last < 0x80) : FitsSigned width (signed [last]) ↔
      last.toNat < 2 ^ (width - 1) ∨ 128 ≤ last.toNat + 2 ^ (width - 1) := by
  have hlt : last.toNat < 128 := hlast
  have hpow : 2 ^ (width - 1) ≤ 2 ^ 6 := Nat.pow_le_pow_right (by decide) (by omega)
  have hcast : (2 : Int) ^ (width - 1) = (2 ^ (width - 1) : Nat) := by push_cast; rfl
  rw [FitsSigned, hcast, signed]
  split <;> omega

/-- The fifth byte leaves four digits beside the sign of a number of 33 bits. -/
theorem fitsSigned_five_iff {last : UInt8} (hlast : last < 0x80) :
    FitsSigned 5 (signed [last]) ↔ last < 0x10 ∨ 0x70 ≤ last := by
  rw [fitsSigned_singleton_iff (by decide) hlast, UInt8.lt_iff_toNat_lt,
    UInt8.le_iff_toNat_le]
  change last.toNat < 16 ∨ 128 ≤ last.toNat + 16 ↔ last.toNat < 16 ∨ 112 ≤ last.toNat
  omega

/-- The tenth byte has only the sign of a number of 64 bits. -/
theorem fitsSigned_one_iff {last : UInt8} (hlast : last < 0x80) :
    FitsSigned 1 (signed [last]) ↔ last = 0 ∨ last = 0x7f := by
  have hlt : last.toNat < 128 := hlast
  rw [fitsSigned_singleton_iff (by decide) hlast, ← UInt8.toNat_inj, ← UInt8.toNat_inj]
  change last.toNat < 1 ∨ 128 ≤ last.toNat + 1 ↔ last.toNat = 0 ∨ last.toNat = 127
  omega

/-- A number is cut off if it does not fit, and only then. -/
theorem toInt_signExtend_eq_iff (group : List UInt8) :
    ((bits group).signExtend 64).toInt = (bits group).toInt ↔
    FitsSigned 64 (bits group).toInt := by
  have hcut : ((bits group).signExtend 64).toInt = (bits group).toInt.bmod (2 ^ 64) :=
    BitVec.toInt_ofInt _
  rw [hcut, Int.bmod_eq_iff (by decide)]
  constructor
  · rintro ⟨hlower, hupper, -⟩
    exact ⟨hlower, hupper⟩
  · intro hfits
    exact ⟨hfits.1, hfits.2, by simp⟩

end Leb128

namespace Reading

open Leb128

variable {c : Cursor} {group : List UInt8}

/-- A group that is not too long is read. -/
theorem group_of_within {limit : Nat} (tooLong : FormatFault)
    (hgroup : Within limit group) (hahead : group <+: c.rest) :
    Reading.group tooLong limit c = .ok group (c.advance group.length) :=
  (group_reads tooLong limit c group _).mpr
    ⟨group, ⟨rfl, hgroup.1, hgroup.2⟩, hahead, rfl⟩

theorem u32_of_overflow (hgroup : Within 5 group) (hahead : group <+: c.rest)
    (hover : 2 ^ 32 ≤ (bits group).toNat) :
    u32 c = .error (.format (.unsignedOverflow c.offset)) (c.advance group.length) := by
  have hread := group_of_within (.unsignedTooLong c.offset) hgroup hahead
  rw [toNat_bits] at hover
  change (Reading.group (.unsignedTooLong c.offset) 5 >>= fun bytes =>
    if unsigned bytes < 2 ^ 32 then Pure.pure (unsigned bytes)
    else Reading.fail (.unsignedOverflow c.offset) : Reading Nat) c = _
  rw [EStateM.bind_of_ok hread, if_neg (Nat.not_lt.mpr hover)]
  rfl

theorem s32_of_overflow (hgroup : Within 5 group) (hahead : group <+: c.rest)
    (hover : ¬ FitsSigned 32 (bits group).toInt) :
    s32 c = .error (.format (.signedOverflow 32 c.offset))
      (c.advance group.length) := by
  have hreads : Reads (wide 32) (Signed 5) := wide_reads_of_le (by decide)
  have hread : wide 32 c = .ok (signed group) (c.advance group.length) :=
    (hreads c _ _).mpr ⟨group, ⟨hgroup.1, hgroup.2, rfl⟩, hahead, rfl⟩
  rw [toInt_bits] at hover
  have hrange : ¬ (-2 ^ 31 ≤ signed group ∧ signed group < 2 ^ 31) := hover
  change (wide 32 >>= fun i => if -2 ^ 31 ≤ i ∧ i < 2 ^ 31 then Pure.pure i
    else Reading.fail (.signedOverflow 32 c.offset) : Reading Int) c = _
  rw [EStateM.bind_of_ok hread, if_neg hrange]
  rfl

/-- The read of 33 bits does not change the number of its group. -/
theorem s33_reads_value : Reads s33 fun i group => Within 5 group ∧
    i = (bits group).toInt := by
  apply s33_reads.congr
  intro i group
  rw [toInt_bits, Signed, Within, and_assoc, eq_comm (a := i)]

/-- The read of 64 bits returns the lowest bits of the number of its group. -/
theorem s64_reads_lowest : Reads s64 fun i group =>
    Within 10 group ∧ i = ((bits group).signExtend 64).toInt := by
  apply (wide_reads_gathered 64).congr
  intro i group
  rw [gatherSigned_eq]

/-- Numbers that do not fit.  The reads of 32 bits refuse them.  The read of 33 bits
returns them as they are; that is a number of 33 bits unless the fifth byte has bits
that are not copies of the sign.  The read of 64 bits returns their lowest 64 bits;
that is another number just if the tenth byte is not made of copies of the sign. -/
theorem numbers_out_of_range (c : Cursor) :
    (∀ i c', s33 c = .ok i c' ↔ ∃ group, Within 5 group ∧ group <+: c.rest ∧
      c' = c.advance group.length ∧ i = (bits group).toInt) ∧
    (∀ group last, Within 5 group → group.getLast? = some last →
      (FitsSigned 33 (bits group).toInt ↔ group.length < 5 ∨
        last < 0x10 ∨ 0x70 ≤ last)) ∧
    (∀ i c', s64 c = .ok i c' ↔ ∃ group, Within 10 group ∧ group <+: c.rest ∧
      c' = c.advance group.length ∧ i = ((bits group).signExtend 64).toInt ∧
      FitsSigned 64 i ∧ (i = (bits group).toInt ↔ FitsSigned 64 (bits group).toInt)) ∧
    (∀ group last, Within 10 group → group.getLast? = some last →
      (FitsSigned 64 (bits group).toInt ↔ group.length < 10 ∨ last = 0 ∨ last = 0x7f)) ∧
    (∀ group, Within 5 group → group <+: c.rest → 2 ^ 32 ≤ (bits group).toNat →
      u32 c = .error (.format (.unsignedOverflow c.offset)) (c.advance group.length)) ∧
    ∀ group, Within 5 group → group <+: c.rest → ¬ FitsSigned 32 (bits group).toInt →
      s32 c = .error (.format (.signedOverflow 32 c.offset))
        (c.advance group.length) := by
  refine ⟨?_, ?_, ?_, ?_, ?_, ?_⟩
  · intro i c'
    rw [s33_reads_value c i c']
    constructor
    · rintro ⟨group, ⟨hgroup, hvalue⟩, hahead, hend⟩
      exact ⟨group, hgroup, hahead, hend, hvalue⟩
    · rintro ⟨group, hgroup, hahead, hend, hvalue⟩
      exact ⟨group, ⟨hgroup, hvalue⟩, hahead, hend⟩
  · intro group last hgroup hlast
    rw [fitsSigned_iff hgroup hlast]
    exact or_congr_right (fitsSigned_five_iff (hgroup.1.getLast?_lt hlast))
  · intro i c'
    rw [s64_reads_lowest c i c']
    constructor
    · rintro ⟨group, ⟨hgroup, rfl⟩, hahead, hend⟩
      have hfits : FitsSigned 64 ((bits group).signExtend 64).toInt :=
        ⟨BitVec.le_toInt _, BitVec.toInt_lt⟩
      exact ⟨group, hgroup, hahead, hend, rfl, hfits, toInt_signExtend_eq_iff group⟩
    · rintro ⟨group, hgroup, hahead, hend, hvalue, -⟩
      exact ⟨group, ⟨hgroup, hvalue⟩, hahead, hend⟩
  · intro group last hgroup hlast
    rw [fitsSigned_iff hgroup hlast]
    exact or_congr_right (fitsSigned_one_iff (hgroup.1.getLast?_lt hlast))
  · intro group hgroup hahead hover
    exact u32_of_overflow hgroup hahead hover
  · intro group hgroup hahead hover
    exact s32_of_overflow hgroup hahead hover

end Reading

namespace OverflowWitness

open Leb128

/-- The number 2^64 in ten bytes. -/
def tenBytes : Array UInt8 :=
  #[0x80, 0x80, 0x80, 0x80, 0x80, 0x80, 0x80, 0x80, 0x80, 0x02]

/-- The number 2^34 - 1 in five bytes. -/
def fiveBytes : Array UInt8 :=
  #[0xff, 0xff, 0xff, 0xff, 0x3f]

/-- Both are accepted, though neither fits, and the longer one is read as zero. -/
theorem large_numbers_accepted :
    Reading.s64 (.ofBytes tenBytes) = .ok 0 ⟨tenBytes, 10, 0⟩ ∧
    (bits tenBytes.toList).toInt = 2 ^ 64 ∧ ¬ FitsSigned 64 (2 ^ 64) ∧
    Reading.s33 (.ofBytes fiveBytes) = .ok (2 ^ 34 - 1) ⟨fiveBytes, 5, 0⟩ ∧
    (bits fiveBytes.toList).toInt = 2 ^ 34 - 1 ∧ ¬ FitsSigned 33 (2 ^ 34 - 1) := by
  refine ⟨rfl, ?_, ?_, rfl, ?_, ?_⟩
  all_goals decide

/-- The greatest number of 64 bits. -/
def greatest : List UInt8 :=
  [0xff, 0xff, 0xff, 0xff, 0xff, 0xff, 0xff, 0xff, 0xff, 0x00]

/-- The number 2^32. -/
def tooGreat : List UInt8 :=
  [0x80, 0x80, 0x80, 0x80, 0x10]

/-- Ten bytes of which the last copies the sign are read as their number, and 33 bits
are refused where 32 are wanted. -/
theorem greatest_read_and_greater_refused :
    Reading.s64 (.ofBytes greatest.toArray) = .ok (2 ^ 63 - 1)
      ⟨greatest.toArray, 10, 0⟩ ∧
    Reading.u32 (.ofBytes tooGreat.toArray) =
      .error (.format (.unsignedOverflow 0)) ⟨tooGreat.toArray, 5, 0⟩ := by
  obtain ⟨-, -, hs64, hfits, -⟩ :=
    Reading.numbers_out_of_range (.ofBytes greatest.toArray)
  obtain ⟨-, -, -, -, hu32, -⟩ :=
    Reading.numbers_out_of_range (.ofBytes tooGreat.toArray)
  have hgreatest : Within 10 greatest := by
    have hencoded : greatest = encodeSigned 9 (2 ^ 63 - 1) := by decide
    exact ⟨hencoded ▸ (encodeSigned_isGroup 9 _).1, by decide⟩
  have htooGreat : Within 5 tooGreat := by
    have hencoded : tooGreat = encodeSigned 4 (2 ^ 32) := by decide
    exact ⟨hencoded ▸ (encodeSigned_isGroup 4 _).1, by decide⟩
  constructor
  · have hfit : FitsSigned 64 (bits greatest).toInt :=
      (hfits greatest 0 hgreatest rfl).mpr (.inr (.inl rfl))
    have hvalue : 2 ^ 63 - 1 = (bits greatest).toInt := by decide
    have hlowest : 2 ^ 63 - 1 = ((bits greatest).signExtend 64).toInt := by
      rw [hvalue, (toInt_signExtend_eq_iff greatest).mpr hfit]
    exact (hs64 _ _).mpr ⟨greatest, hgreatest, List.prefix_rfl, rfl,
      hlowest, hvalue ▸ hfit, iff_of_true hvalue hfit⟩
  · exact hu32 tooGreat htooGreat List.prefix_rfl (by decide)

end OverflowWitness

end WasmVm
