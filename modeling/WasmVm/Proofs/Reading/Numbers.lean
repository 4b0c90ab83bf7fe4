/-
The encodings of numbers, value types and lists of them.
-/
import WasmVm.Proofs.Reading.Exact

namespace WasmVm

namespace Leb128

/-- The groups: every byte but the last has its top bit set. -/
inductive IsGroup : List UInt8 → Prop
  | last {b : UInt8} (hb : b < 0x80) : IsGroup [b]
  | more {b : UInt8} {bytes} (hb : ¬ b < 0x80) (hbytes : IsGroup bytes) :
      IsGroup (b :: bytes)

/-- The encodings of an unsigned number of 32 bits. -/
def U32 (n : Nat) (bytes : List UInt8) : Prop :=
  IsGroup bytes ∧ bytes.length ≤ 5 ∧ unsigned bytes = n ∧ n < 2 ^ 32

/-- The encodings of a signed number in at most `limit` bytes. -/
def Signed (limit : Nat) (i : Int) (bytes : List UInt8) : Prop :=
  IsGroup bytes ∧ bytes.length ≤ limit ∧ signed bytes = i

theorem IsGroup.ne_nil {bytes : List UInt8} (h : IsGroup bytes) : bytes ≠ [] := by
  cases h <;> simp

/-- A group tells where it ends, so nothing begins with two of them. -/
theorem IsGroup.unique {group group' bytes : List UInt8} (h : IsGroup group)
    (h' : IsGroup group') (hahead : group <+: bytes) (hahead' : group' <+: bytes) :
    group = group' := by
  induction h generalizing group' bytes with
  | last hb =>
      obtain ⟨rest, rfl⟩ := hahead
      cases h' with
      | last => rw [(List.cons_prefix_cons.mp hahead').1]
      | more hb' => exact absurd ((List.cons_prefix_cons.mp hahead').1 ▸ hb) hb'
  | more hb _ ih =>
      obtain ⟨rest, rfl⟩ := hahead
      cases h' with
      | last hb' => exact absurd ((List.cons_prefix_cons.mp hahead').1 ▸ hb') hb
      | more _ hgroup =>
          obtain ⟨rfl, htail⟩ := List.cons_prefix_cons.mp hahead'
          rw [ih hgroup (List.prefix_append _ rest) htail]

theorem two_pow_bits_succ (n : Nat) :
    (2 : Int) ^ (7 * (n + 1)) = 128 * 2 ^ (7 * n) := by
  rw [Nat.mul_succ, Int.pow_add]
  exact Int.mul_comm _ _

/-- A group of `k` bytes has seven bits for each of them, one of which is the sign. -/
theorem signed_bounds (bytes : List UInt8) :
    -(2 : Int) ^ (7 * bytes.length) ≤ 2 * signed bytes ∧
      2 * signed bytes < (2 : Int) ^ (7 * bytes.length) := by
  induction bytes with
  | nil => decide
  | cons b rest ih =>
      have hb : b.toNat % 128 < 128 := Nat.mod_lt _ (by decide)
      cases rest with
      | nil =>
          simp only [signed, List.length_cons, List.length_nil]
          split <;> omega
      | cons next tail =>
          rw [List.length_cons, two_pow_bits_succ] at ih
          rw [signed, List.length_cons, List.length_cons, two_pow_bits_succ,
            two_pow_bits_succ]
          · omega
          · simp

/-- Nine bytes stay within 64 bits. -/
theorem bmod_signed_of_length_le {bytes : List UInt8} (hlength : bytes.length ≤ 9) :
    (signed bytes).bmod (2 ^ 64) = signed bytes := by
  obtain ⟨hlower, hupper⟩ := signed_bounds bytes
  have hpow : (2 : Int) ^ (7 * bytes.length) < 2 ^ 64 :=
    Int.pow_lt_pow_of_lt (by decide) (by omega)
  apply Int.bmod_eq_of_le_mul_two <;> omega

/-- The shortest group of a number is one of its encodings. -/
theorem encodeFrom_isGroup (fuel n : Nat) (hn : n < 128 ^ (fuel + 1)) :
    IsGroup (encodeFrom fuel n) ∧ unsigned (encodeFrom fuel n) = n := by
  induction fuel generalizing n with
  | zero =>
      have hlt : n < 128 := by simpa using hn
      have hb : (UInt8.ofNat (n % 128)).toNat = n := by
        simp
        omega
      refine ⟨.last ?_, ?_⟩
      · rw [UInt8.lt_iff_toNat_lt, hb]
        exact hlt
      · simp only [encodeFrom, unsigned, hb]
        omega
  | succ fuel ih =>
      unfold encodeFrom
      split
      · next hlt =>
          have hb : (UInt8.ofNat n).toNat = n := by
            simp
            omega
          refine ⟨.last ?_, ?_⟩
          · rw [UInt8.lt_iff_toNat_lt, hb]
            exact hlt
          · simp only [unsigned, hb]
            omega
      · next hge =>
          have hb : (UInt8.ofNat (n % 128 + 128)).toNat = n % 128 + 128 := by
            simp
            omega
          obtain ⟨hgroup, hvalue⟩ := ih (n / 128) (by
            rw [Nat.div_lt_iff_lt_mul (by decide), ← Nat.pow_succ]
            exact hn)
          refine ⟨.more ?_ hgroup, ?_⟩
          · rw [UInt8.lt_iff_toNat_lt, hb]
            simp
          · rw [unsigned, hvalue, hb]
            omega

theorem length_encodeFrom_le (fuel n k : Nat) (hn : n < 128 ^ (k + 1)) :
    (encodeFrom fuel n).length ≤ k + 1 := by
  induction fuel generalizing n k with
  | zero => simp [encodeFrom]
  | succ fuel ih =>
      unfold encodeFrom
      split
      · simp
      · next hge =>
          cases k with
          | zero => omega
          | succ k =>
              have hless := ih (n / 128) k (by
                rw [Nat.div_lt_iff_lt_mul (by decide), ← Nat.pow_succ]
                exact hn)
              simpa using hless

theorem encode_isGroup (n : Nat) : IsGroup (encode n) ∧ unsigned (encode n) = n := by
  apply encodeFrom_isGroup
  calc n < 2 ^ (n.log2 + 1) := Nat.lt_log2_self
    _ ≤ 128 ^ (n.log2 + 1) := Nat.pow_le_pow_left (by decide) _

theorem encode_u32 {n : Nat} (hn : n < 2 ^ 32) : U32 n (encode n) := by
  obtain ⟨hgroup, hvalue⟩ := encode_isGroup n
  exact ⟨hgroup, length_encodeFrom_le _ n 4 (by omega), hvalue, hn⟩

/-- A number of seven bits may take one byte. -/
theorem u32_singleton {b : UInt8} (hb : b < 0x80) : U32 b.toNat [b] := by
  have hlt : b.toNat < 128 := hb
  refine ⟨.last hb, by simp, ?_, by omega⟩
  simp only [unsigned]
  omega

end Leb128

/-- A type is read back from its own byte only. -/
theorem ValType.ofByte?_eq_some {b : UInt8} {t : ValType} :
    ofByte? b = some t ↔ b = t.toByte := by
  constructor
  · intro h
    unfold ofByte? at h
    split at h
    · cases h
      assumption
    · split at h
      · cases h
        assumption
      · split at h
        · cases h
          assumption
        · split at h
          · cases h
            assumption
          · cases h
  · rintro rfl
    exact ofByte?_toByte t

namespace Reading

open Leb128

theorem byte_reads : Reads byte fun b bytes => bytes = [b] := by
  intro c b c'
  unfold byte
  constructor
  · intro h
    split at h
    · next a ha =>
        cases h
        exact ⟨[b], rfl, Cursor.singleton_prefix_rest.mpr ha, rfl⟩
    · cases h
  · intro henc
    obtain ⟨_, rfl, hahead, rfl⟩ := henc
    rw [Cursor.singleton_prefix_rest.mp hahead]
    rfl

theorem bytes_reads (count : Nat) :
    Reads (bytes count) fun a bytes => a.toList = bytes ∧ bytes.length = count := by
  intro c a c'
  have hextract : (c.bytes.extract c.pos (c.pos + count)).toList =
      c.rest.take count := by
    simp [Cursor.rest, List.extract_eq_take_drop]
  unfold bytes
  split
  · next hshort =>
      constructor
      · intro h
        cases h
      · intro henc
        obtain ⟨_, ⟨rfl, rfl⟩, hahead, -⟩ := henc
        have hle := hahead.length_le
        rw [Cursor.length_rest] at hle
        omega
  · next hlong =>
      have hlength : (c.rest.take count).length = count := by
        rw [List.length_take, Cursor.length_rest]
        omega
      constructor
      · intro h
        cases h
        exact ⟨_, ⟨hextract, hlength⟩, List.take_prefix _ _, by rw [hlength]⟩
      · intro henc
        obtain ⟨_, ⟨rfl, hcount⟩, hahead, rfl⟩ := henc
        have htake : c.rest.take count = a.toList := by
          rw [← hcount]
          exact (List.prefix_iff_eq_take.mp hahead).symm
        rw [hcount, ← Array.toList_inj.mp (hextract.trans htake)]

/-- A group is read whole, and only a group is. -/
theorem group_reads (tooLong : FormatFault) (limit : Nat) :
    Reads (group tooLong limit) fun group bytes =>
      group = bytes ∧ IsGroup bytes ∧ bytes.length ≤ limit := by
  induction limit with
  | zero =>
      apply (Reads.fail tooLong).congr
      intro group bytes
      constructor
      · intro h
        exact h.elim
      · intro henc
        obtain ⟨-, hgroup, hlength⟩ := henc
        exact hgroup.ne_nil (List.eq_nil_of_length_eq_zero (Nat.le_zero.mp hlength))
  | succ limit ih =>
      have hstep : ∀ b : UInt8, Reads (if b < 0x80 then pure [b]
          else group tooLong limit >>= fun rest => pure (b :: rest) :
            Reading (List UInt8))
          fun result bytes => result = b :: bytes ∧ IsGroup (b :: bytes) ∧
            bytes.length ≤ limit := by
        intro b
        by_cases hb : b < 0x80
        · rw [if_pos hb]
          apply (Reads.pure [b]).congr
          intro result bytes
          constructor
          · intro henc
            obtain ⟨rfl, rfl⟩ := henc
            exact ⟨rfl, .last hb, Nat.zero_le _⟩
          · intro henc
            obtain ⟨rfl, hgroup, -⟩ := henc
            cases hgroup with
            | last => exact ⟨rfl, rfl⟩
            | more hb' => exact absurd hb hb'
        · rw [if_neg hb]
          apply ih.bind_pure.congr
          intro result bytes
          constructor
          · intro henc
            obtain ⟨rest, ⟨rfl, hgroup, hlength⟩, rfl⟩ := henc
            exact ⟨rfl, .more hb hgroup, hlength⟩
          · intro henc
            obtain ⟨rfl, hgroup, hlength⟩ := henc
            cases hgroup with
            | last hb' => exact absurd hb' hb
            | more _ hrest => exact ⟨bytes, ⟨rfl, hrest, hlength⟩, rfl⟩
      apply (byte_reads.bind hstep).congr
      intro result bytes
      constructor
      · intro henc
        obtain ⟨b, _, back, rfl, rfl, rfl, hgroup, hlength⟩ := henc
        exact ⟨rfl, hgroup, Nat.succ_le_succ hlength⟩
      · intro henc
        obtain ⟨rfl, hgroup, hlength⟩ := henc
        cases result with
        | nil => exact absurd rfl hgroup.ne_nil
        | cons b rest =>
            exact ⟨b, [b], rest, rfl, rfl, rfl, hgroup, Nat.le_of_succ_le_succ hlength⟩

theorem u32_reads : Reads u32 U32 := by
  apply Reads.offset_bind
  intro start
  apply (group_reads _ 5).bind_ite.congr
  intro n bytes
  constructor
  · intro henc
    obtain ⟨_, ⟨rfl, hgroup, hlength⟩, hn, rfl⟩ := henc
    exact ⟨hgroup, hlength, rfl, hn⟩
  · intro henc
    obtain ⟨hgroup, hlength, rfl, hn⟩ := henc
    exact ⟨bytes, ⟨rfl, hgroup, hlength⟩, hn, rfl⟩

theorem wide_reads (bits : Nat) :
    Reads (wide bits) fun i bytes =>
      ∃ whole, Signed ((bits + 6) / 7) whole bytes ∧ i = whole.bmod (2 ^ 64) := by
  apply Reads.offset_bind
  intro start
  apply (group_reads _ _).bind_pure.congr
  intro i bytes
  constructor
  · intro henc
    obtain ⟨_, ⟨rfl, hgroup, hlength⟩, rfl⟩ := henc
    exact ⟨_, ⟨hgroup, hlength, rfl⟩, rfl⟩
  · intro henc
    obtain ⟨_, ⟨hgroup, hlength, rfl⟩, rfl⟩ := henc
    exact ⟨bytes, ⟨rfl, hgroup, hlength⟩, rfl⟩

/-- Nothing is cut off where nine bytes are enough. -/
theorem wide_reads_of_le {bits : Nat} (hbits : (bits + 6) / 7 ≤ 9) :
    Reads (wide bits) (Signed ((bits + 6) / 7)) := by
  apply (wide_reads bits).congr
  intro i bytes
  constructor
  · intro henc
    obtain ⟨_, ⟨hgroup, hlength, rfl⟩, rfl⟩ := henc
    exact ⟨hgroup, hlength,
      (bmod_signed_of_length_le (Nat.le_trans hlength hbits)).symm⟩
  · intro henc
    obtain ⟨hgroup, hlength, rfl⟩ := henc
    exact ⟨_, ⟨hgroup, hlength, rfl⟩,
      (bmod_signed_of_length_le (Nat.le_trans hlength hbits)).symm⟩

theorem s33_reads : Reads s33 (Signed 5) :=
  wide_reads_of_le (by decide)

theorem s32_reads : Reads s32 fun i bytes => Signed 5 i bytes ∧ -2 ^ 31 ≤ i ∧
    i < 2 ^ 31 := by
  have hwide : Reads (wide 32) (Signed 5) := wide_reads_of_le (by decide)
  apply Reads.offset_bind
  intro start
  apply hwide.bind_ite.congr
  intro i bytes
  constructor
  · intro henc
    obtain ⟨_, hsigned, hrange, rfl⟩ := henc
    exact ⟨hsigned, hrange⟩
  · intro henc
    obtain ⟨hsigned, hrange⟩ := henc
    exact ⟨i, hsigned, hrange, rfl⟩

theorem valType_reads : Reads valType fun t bytes => bytes = [t.toByte] := by
  refine Reads.congr (byte_reads.bind_lookup ValType.ofByte? .valueType ?_ ?_) ?_
  · intro b t hb
    rw [hb]
  · intro b hb
    rw [hb]
  · intro t bytes
    constructor
    · intro henc
      obtain ⟨b, rfl, hb⟩ := henc
      rw [ValType.ofByte?_eq_some.mp hb]
    · rintro rfl
      exact ⟨t.toByte, rfl, ValType.ofByte?_eq_some.mpr rfl⟩

/-- Repeating a read, with what the turns before have gathered. -/
theorem forRange_reads {α : Type} {r : Reading α} {E : α → List UInt8 → Prop}
    (hr : Reads r E) (left turn : Nat) (done : Array α) :
    Reads (forRange (fun _ items => r >>= fun a => pure (items.push a)) left turn done)
      fun items bytes => ∃ more, Each E more bytes ∧ more.length = left ∧
        items.toList = done.toList ++ more := by
  induction left generalizing turn done with
  | zero =>
      apply (Reads.pure done).congr
      intro items bytes
      constructor
      · intro henc
        obtain ⟨rfl, rfl⟩ := henc
        exact ⟨[], .nil, rfl, (List.append_nil _).symm⟩
      · intro henc
        obtain ⟨more, heach, hlength, hitems⟩ := henc
        obtain rfl := List.eq_nil_of_length_eq_zero hlength
        cases heach
        rw [List.append_nil] at hitems
        exact ⟨Array.toList_inj.mp hitems, rfl⟩
  | succ left ih =>
      apply (hr.bind_pure.bind fun items => ih (turn + 1) items).congr
      intro items bytes
      constructor
      · intro henc
        obtain ⟨_, front, back, rfl, ⟨a, ha, rfl⟩, more, heach, rfl, hitems⟩ := henc
        refine ⟨a :: more, .cons ha heach, rfl, ?_⟩
        rw [hitems, Array.toList_push, List.append_assoc]
        rfl
      · intro henc
        obtain ⟨more, heach, hlength, hitems⟩ := henc
        cases heach with
        | nil => cases hlength
        | @cons a more front back ha hmore =>
            refine ⟨done.push a, front, back, rfl, ⟨a, ha, rfl⟩, more, hmore,
              Nat.succ.inj hlength, ?_⟩
            rw [hitems, Array.toList_push, List.append_assoc]
            rfl

theorem many_reads {α : Type} {r : Reading α} {E : α → List UInt8 → Prop}
    (hr : Reads r E) (count : Nat) :
    Reads (many r count) fun items bytes =>
      Each E items.toList bytes ∧ items.toList.length = count := by
  apply (forRange_reads hr count 0 #[]).congr
  intro items bytes
  constructor
  · intro henc
    obtain ⟨more, heach, hlength, hitems⟩ := henc
    rw [hitems]
    exact ⟨heach, hlength⟩
  · intro henc
    obtain ⟨heach, hlength⟩ := henc
    exact ⟨items.toList, heach, hlength, rfl⟩

end Reading

end WasmVm
