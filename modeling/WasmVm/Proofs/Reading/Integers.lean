/-
The integers that groups of bytes stand for.  A group of k bytes is a vector of 7 k
bits: an unsigned number, or a signed one in two's complement.  Reads of 32 bits accept
just the groups whose number fits; those of 33 and 64 bits accept every group of a
number that fits, padded or not.  All of them return what the bytes give when they are
put together in a word of 64 bits. -/
import Mathlib.Data.Nat.Digits.Lemmas
import WasmVm.Proofs.Reading.Numbers

namespace WasmVm

namespace Leb128

/-- The bits of a group, the first byte's seven lowest. -/
def bits (group : List UInt8) : BitVec (7 * group.length) :=
  BitVec.ofNat _ (Nat.ofDigits 128 (group.map fun b => b.toNat % 128))

/-- A group that is not longer than a read allows. -/
def Within (limit : Nat) (group : List UInt8) : Prop :=
  IsGroup group ∧ group.length ≤ limit

/-- A number of a width in two's complement. -/
def FitsSigned (width : Nat) (i : Int) : Prop :=
  -2 ^ (width - 1) ≤ i ∧ i < 2 ^ (width - 1)

instance (width : Nat) (i : Int) : Decidable (FitsSigned width i) :=
  inferInstanceAs (Decidable (_ ∧ _))

/-- Whether bit six of the last byte is set, which is the sign. -/
def isNegative (group : List UInt8) : Bool :=
  group.getLast?.any fun b => 64 ≤ b.toNat % 128

/-! ### Unsigned numbers -/

theorem unsigned_eq_ofDigits (group : List UInt8) :
    unsigned group = Nat.ofDigits 128 (group.map fun b => b.toNat % 128) := by
  induction group with
  | nil => rfl
  | cons b rest ih => rw [unsigned, List.map_cons, Nat.ofDigits_cons, ih]

theorem unsigned_lt (group : List UInt8) : unsigned group < 2 ^ (7 * group.length) := by
  have hdigits : ∀ d ∈ group.map fun b => b.toNat % 128, d < 128 := by
    intro d hd
    obtain ⟨b, -, rfl⟩ := List.mem_map.mp hd
    exact Nat.mod_lt _ (by decide)
  have hlt := Nat.ofDigits_lt_base_pow_length (b := 128) (by decide) hdigits
  rwa [← unsigned_eq_ofDigits, List.length_map, show 128 = 2 ^ 7 from rfl,
    ← Nat.pow_mul] at hlt

theorem toNat_bits (group : List UInt8) : (bits group).toNat = unsigned group := by
  rw [bits, ← unsigned_eq_ofDigits, BitVec.toNat_ofNat,
    Nat.mod_eq_of_lt (unsigned_lt group)]

/-! ### Signed numbers -/

/-- The sign of a group weighs what the bit behind its last one would. -/
theorem signed_eq_sub (group : List UInt8) :
    signed group = unsigned group - (if isNegative group then 2 ^ (7 * group.length)
      else 0) := by
  unfold isNegative
  induction group with
  | nil => rfl
  | cons b rest ih =>
      cases rest with
      | nil =>
          simp only [signed, unsigned, List.getLast?_singleton, Option.any_some,
            decide_eq_true_eq, List.length_singleton]
          split <;> split <;> omega
      | cons next tail =>
          have hpow : (2 : Int) ^ (7 * (b :: next :: tail).length) =
              128 * 2 ^ (7 * (next :: tail).length) := by
            rw [List.length_cons, Nat.mul_succ, Int.pow_add]
            exact Int.mul_comm _ _
          have hunsigned : unsigned (b :: next :: tail) =
              b.toNat % 128 + 128 * unsigned (next :: tail) := rfl
          rw [signed, ih, hunsigned, List.getLast?_cons_cons, hpow]
          · split <;> push_cast <;> omega
          · simp

/-- The number of a group is what its bits are in two's complement. -/
theorem toInt_bits (group : List UInt8) : (bits group).toInt = signed group := by
  obtain ⟨hlower, hupper⟩ := signed_bounds group
  have hmod : (unsigned group : Int).bmod (2 ^ (7 * group.length)) =
      (signed group).bmod (2 ^ (7 * group.length)) := by
    rw [signed_eq_sub]
    split
    · have hsub := Int.sub_bmod_right (unsigned group) (2 ^ (7 * group.length))
      push_cast at hsub ⊢
      exact hsub.symm
    · rw [Int.sub_zero]
  rw [bits, ← unsigned_eq_ofDigits, BitVec.toInt_ofNat', hmod]
  apply Int.bmod_eq_of_le_mul_two <;> push_cast <;> omega

/-! ### Numbers put together in a word -/

/-- The bits of a group put into a word one byte after the other, each byte's seven
shifted past those before it. -/
def gather (word : BitVec 64) (shift : Nat) : List UInt8 → BitVec 64
  | [] => word
  | b :: rest => gather (word ||| BitVec.ofNat 64 (b.toNat % 128) <<< shift)
      (shift + 7) rest

/-- The bits of a group in a word, with copies of its sign above them. -/
def gatherSigned (group : List UInt8) : BitVec 64 :=
  if isNegative group then gather 0 0 group ||| BitVec.allOnes 64 <<< (7 * group.length)
  else gather 0 0 group

theorem toNat_or_shiftLeft {word x : BitVec 64} {shift : Nat}
    (hword : word.toNat < 2 ^ shift) :
    (word ||| x <<< shift).toNat = (word.toNat + x.toNat * 2 ^ shift) % 2 ^ 64 := by
  rw [BitVec.toNat_or, BitVec.toNat_shiftLeft, ← Nat.mod_eq_of_lt word.isLt, ←
    Nat.or_mod_two_pow, Nat.or_comm, Nat.mod_eq_of_lt word.isLt, ←
      Nat.shiftLeft_add_eq_or_of_lt hword,
    Nat.shiftLeft_eq, Nat.add_comm]

theorem gather_add (word : BitVec 64) (shift : Nat) (group : List UInt8)
    (hword : word.toNat < 2 ^ shift) :
    gather word shift group = BitVec.ofNat 64
      (word.toNat + unsigned group * 2 ^ shift) := by
  induction group generalizing word shift with
  | nil => simp [gather, unsigned]
  | cons b rest ih =>
      have hdigit : (BitVec.ofNat 64 (b.toNat % 128)).toNat = b.toNat % 128 := by
        rw [BitVec.toNat_ofNat]
        omega
      have hnext := toNat_or_shiftLeft (x := BitVec.ofNat 64 (b.toNat % 128)) hword
      rw [hdigit] at hnext
      rw [gather, ih, hnext]
      · apply BitVec.eq_of_toNat_eq
        rw [BitVec.toNat_ofNat, BitVec.toNat_ofNat, Nat.mod_add_mod,
          unsigned, Nat.pow_add]
        congr 1
        ring
      · have hlt : b.toNat % 128 < 128 := Nat.mod_lt _ (by decide)
        calc _ ≤ word.toNat + b.toNat % 128 * 2 ^ shift := hnext ▸ Nat.mod_le ..
          _ < 2 ^ shift + 127 * 2 ^ shift := by
            have := Nat.mul_le_mul_right (2 ^ shift) (Nat.le_of_lt_succ hlt)
            omega
          _ = 2 ^ (shift + 7) := by rw [Nat.pow_add]; ring

/-- Nine bytes are put together without loss. -/
theorem gather_eq (group : List UInt8) :
    gather 0 0 group = BitVec.ofNat 64 (unsigned group) := by
  rw [gather_add 0 0 group (by decide)]
  simp

theorem toNat_gather {group : List UInt8} (hlength : group.length ≤ 9) :
    (gather 0 0 group).toNat = (bits group).toNat := by
  have hlt : unsigned group < 2 ^ 64 :=
    calc unsigned group < 2 ^ (7 * group.length) := unsigned_lt group
      _ ≤ 2 ^ 64 := Nat.pow_le_pow_right (by decide) (by omega)
  rw [gather_eq, toNat_bits, BitVec.toNat_ofNat, Nat.mod_eq_of_lt hlt]

/-- A group in a word is the group's bits, cut or filled up with copies of the sign. -/
theorem gatherSigned_eq (group : List UInt8) :
    gatherSigned group = (bits group).signExtend 64 := by
  change _ = BitVec.ofInt 64 (bits group).toInt
  rw [toInt_bits, signed_eq_sub, gatherSigned, gather_eq]
  split
  · have hword : (BitVec.ofNat 64 (unsigned group)).toNat < 2 ^ (7 * group.length) := by
      rw [BitVec.toNat_ofNat]
      exact Nat.lt_of_le_of_lt (Nat.mod_le ..) (unsigned_lt group)
    apply BitVec.eq_of_toNat_eq
    rw [toNat_or_shiftLeft hword, BitVec.toNat_ofInt, BitVec.toNat_ofNat,
      BitVec.toNat_allOnes, Nat.mod_add_mod]
    -- All ones are minus one.
    have hsign : (2 : Int) ^ (7 * group.length) =
        ((2 ^ (7 * group.length) : Nat) : Int) :=
      (Nat.cast_pow 2 _).symm
    rw [hsign]
    generalize 2 ^ (7 * group.length) = sign
    omega
  · rw [Int.sub_zero, BitVec.ofInt_natCast]

/-! ### Encodings of a length -/

/-- A signed number in `more + 1` bytes: those it does not need copy its sign. -/
def encodeSigned : (more : Nat) → Int → List UInt8
  | 0, i => [UInt8.ofNat (i % 128).toNat]
  | more + 1, i => UInt8.ofNat ((i % 128).toNat + 128) :: encodeSigned more (i / 128)

theorem IsGroup.eq_encodeSigned {group : List UInt8} (h : IsGroup group) :
    group = encodeSigned (group.length - 1) (signed group) := by
  induction h with
  | @last b hb =>
      have hlt : b.toNat < 128 := hb
      have hdigit : (signed [b] % 128).toNat = b.toNat := by
        rw [signed]
        split <;> omega
      rw [List.length_singleton, Nat.sub_self, encodeSigned, hdigit, UInt8.ofNat_toNat]
  | @more b rest hb hrest ih =>
      have hge : 128 ≤ b.toNat := Nat.not_lt.mp hb
      have hlt : b.toNat < 256 := b.toNat_lt
      have hlength : (b :: rest).length - 1 = (rest.length - 1) + 1 := by
        have hpos := List.length_pos_iff.mpr hrest.ne_nil
        rw [List.length_cons]
        omega
      have hsigned : signed (b :: rest) = (b.toNat % 128 : Int) + 128 * signed rest :=
        signed.eq_3 b rest hrest.ne_nil
      have hdigit : (signed (b :: rest) % 128).toNat + 128 = b.toNat := by omega
      have hquotient : signed (b :: rest) / 128 = signed rest := by omega
      rw [hlength, encodeSigned, hdigit, hquotient, ← ih, UInt8.ofNat_toNat]

theorem toNat_ofNat_digit (i : Int) :
    (UInt8.ofNat (i % 128).toNat).toNat = (i % 128).toNat := by
  rw [UInt8.toNat_ofNat']
  omega

theorem toNat_ofNat_more (i : Int) :
    (UInt8.ofNat ((i % 128).toNat + 128)).toNat = (i % 128).toNat + 128 := by
  rw [UInt8.toNat_ofNat']
  omega

theorem encodeSigned_isGroup (more : Nat) (i : Int) :
    IsGroup (encodeSigned more i) ∧ (encodeSigned more i).length = more + 1 := by
  induction more generalizing i with
  | zero =>
      have hlast : UInt8.ofNat (i % 128).toNat < 0x80 := by
        rw [UInt8.lt_iff_toNat_lt, toNat_ofNat_digit]
        change (i % 128).toNat < 128
        omega
      exact ⟨.last hlast, rfl⟩
  | succ more ih =>
      obtain ⟨hgroup, hlength⟩ := ih (i / 128)
      have hmore : ¬ UInt8.ofNat ((i % 128).toNat + 128) < 0x80 := by
        rw [UInt8.lt_iff_toNat_lt, toNat_ofNat_more]
        exact Nat.not_lt.mpr (Nat.le_add_left ..)
      exact ⟨.more hmore hgroup, congrArg Nat.succ hlength⟩

/-- A number that fits has the value it should. -/
theorem signed_encodeSigned {more : Nat} {i : Int} (hlower : -(64 * 128 ^ more) ≤ i)
    (hupper : i < 64 * 128 ^ more) : signed (encodeSigned more i) = i := by
  induction more generalizing i with
  | zero =>
      rw [encodeSigned, signed, toNat_ofNat_digit]
      split <;> omega
  | succ more ih =>
      rw [Int.pow_succ] at hlower hupper
      have hrest : encodeSigned more (i / 128) ≠ [] :=
        (encodeSigned_isGroup more _).1.ne_nil
      rw [encodeSigned, signed.eq_3 _ _ hrest, toNat_ofNat_more,
        ih (by omega) (by omega)]
      omega

/-- A number has one encoding of each length that it fits, the shortest or one padded
with copies of its sign, and no other. -/
theorem encodings_iff {more : Nat} {i : Int} {group : List UInt8} :
    IsGroup group ∧ group.length = more + 1 ∧ (bits group).toInt = i ↔
      group = encodeSigned more i ∧ -(64 * 128 ^ more) ≤ i ∧ i < 64 * 128 ^ more := by
  rw [toInt_bits]
  constructor
  · rintro ⟨hgroup, hlength, rfl⟩
    have hbounds := signed_bounds group
    have hpow : (2 : Int) ^ (7 * group.length) = 128 * 128 ^ more := by
      rw [hlength, two_pow_bits_succ, Int.pow_mul]
      rfl
    rw [hpow] at hbounds
    refine ⟨?_, by omega, by omega⟩
    conv_lhs => rw [hgroup.eq_encodeSigned, hlength]
    rfl
  · rintro ⟨rfl, hlower, hupper⟩
    obtain ⟨hgroup, hlength⟩ := encodeSigned_isGroup more i
    exact ⟨hgroup, hlength, signed_encodeSigned hlower hupper⟩

end Leb128

namespace Reading

open Leb128

/-- What the wide reads return is the group as it stands in a word of 64 bits. -/
theorem wide_reads_gathered (width : Nat) :
    Reads (wide width) fun i group =>
      Within ((width + 6) / 7) group ∧ i = (gatherSigned group).toInt := by
  have hvalue : ∀ group, (signed group).bmod (2 ^ 64) = (gatherSigned group).toInt := by
    intro group
    rw [gatherSigned_eq, ← toInt_bits]
    exact (BitVec.toInt_ofInt _).symm
  apply (wide_reads width).congr
  intro i group
  constructor
  · intro henc
    obtain ⟨_, ⟨hgroup, hlength, rfl⟩, rfl⟩ := henc
    exact ⟨⟨hgroup, hlength⟩, hvalue group⟩
  · intro henc
    obtain ⟨⟨hgroup, hlength⟩, rfl⟩ := henc
    exact ⟨_, ⟨hgroup, hlength, rfl⟩, (hvalue group).symm⟩

/-- A number that fits is read from all its encodings. -/
theorem wide_of_fits {width : Nat} (hwidth : width ≤ 64) {i : Int}
    (hfits : FitsSigned width i) {group : List UInt8}
    (hgroup : Within ((width + 6) / 7) group) (hvalue : (bits group).toInt = i)
    {c : Cursor} (hahead : group <+: c.rest) :
    wide width c = .ok i (c.advance group.length) := by
  obtain ⟨hlower, hupper⟩ := hfits
  have hpow : (2 : Int) ^ (width - 1) ≤ 2 ^ 63 :=
    pow_le_pow_right₀ (by decide) (by omega)
  have hcut : i = i.bmod (2 ^ 64) := by
    symm
    apply Int.bmod_eq_of_le_mul_two <;> omega
  rw [toInt_bits] at hvalue
  exact (wide_reads width c i _).mpr ⟨group, ⟨i, ⟨hgroup.1, hgroup.2, hvalue⟩, hcut⟩,
    hahead, rfl⟩

/-- What the reads of integers accept.  Those of 32 bits accept the groups of at most
five bytes whose number fits, and no others; those of 33 and 64 bits accept every
group, of at most five and ten bytes, of a number that fits.  A number has such a group
of each length that it fits, which is its shortest one padded with copies of the sign.
What is returned is what the bytes give when they are put together in a word of 64
bits. -/
theorem integer_reads_exact :
    Reads u32 (fun n group => Within 5 group ∧ n = (bits group).toNat ∧ n < 2 ^ 32) ∧
    Reads s32 (fun i group => Within 5 group ∧ i = (bits group).toInt ∧
      FitsSigned 32 i) ∧
    (∀ i group c, FitsSigned 33 i → Within 5 group → (bits group).toInt = i →
      group <+: c.rest →
      s33 c = .ok i (c.advance group.length)) ∧
    (∀ i group c, FitsSigned 64 i → Within 10 group → (bits group).toInt = i →
      group <+: c.rest → s64 c = .ok i (c.advance group.length)) ∧
    (∀ more i group, IsGroup group ∧ group.length = more + 1 ∧ (bits group).toInt = i ↔
      group = encodeSigned more i ∧ -(64 * 128 ^ more) ≤ i ∧ i < 64 * 128 ^ more) ∧
    (∀ group, Within 5 group → (gather 0 0 group).toNat = (bits group).toNat) ∧
    ∀ width, Reads (wide width) fun i group =>
      Within ((width + 6) / 7) group ∧ i = (gatherSigned group).toInt := by
  refine ⟨?_, ?_, ?_, ?_, ?_, ?_, wide_reads_gathered⟩
  · apply u32_reads.congr
    intro n group
    rw [toNat_bits, U32, Within, and_assoc, eq_comm]
  · apply s32_reads.congr
    intro i group
    rw [toInt_bits, Signed, Within, and_assoc, and_assoc, and_assoc, eq_comm (a := i)]
    rfl
  · intro i group c hfits hgroup hvalue hahead
    exact wide_of_fits (by decide) hfits hgroup hvalue hahead
  · intro i group c hfits hgroup hvalue hahead
    exact wide_of_fits (by decide) hfits hgroup hvalue hahead
  · intro more i group
    exact encodings_iff
  · intro group hgroup
    exact toNat_gather (Nat.le_trans hgroup.2 (by decide))

end Reading

namespace IntegerWitness

/-- The least number of 33 bits in five bytes, and the least of 64 bits in ten. -/
theorem least_numbers_read :
    Reading.s33 (.ofBytes #[0x80, 0x80, 0x80, 0x80, 0x70, 0x0b]) =
      .ok (-2 ^ 32) ⟨#[0x80, 0x80, 0x80, 0x80, 0x70, 0x0b], 5, 0⟩ ∧
    Reading.s64
        (.ofBytes #[0x80, 0x80, 0x80, 0x80, 0x80, 0x80, 0x80, 0x80, 0x80, 0x7f]) =
      .ok (-2 ^ 63)
        ⟨#[0x80, 0x80, 0x80, 0x80, 0x80, 0x80, 0x80, 0x80, 0x80, 0x7f], 10, 0⟩ := by
  obtain ⟨-, -, hs33, hs64, hencodings, -⟩ := Reading.integer_reads_exact
  have hfive := (hencodings 4 (-2 ^ 32) _).mpr ⟨rfl, by decide, by decide⟩
  have hten := (hencodings 9 (-2 ^ 63) _).mpr ⟨rfl, by decide, by decide⟩
  constructor
  · exact hs33 _ _ _ ⟨by decide, by decide⟩ ⟨hfive.1, by decide⟩ hfive.2.2 ⟨[0x0b], rfl⟩
  · exact hs64 _ _ _ ⟨by decide, by decide⟩ ⟨hten.1, by decide⟩ hten.2.2 ⟨[], rfl⟩

end IntegerWitness

end WasmVm
