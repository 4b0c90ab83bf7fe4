/-
Integer operations as functions of integers.  Bits of a width stand for residues, which
are read as integers with or without a sign; the result is taken modulo the width
again.
-/
import Mathlib.Data.Nat.Count
import Mathlib.Data.Nat.Find
import WasmVm.Numeric.Integer

namespace WasmVm

/-- The integer that a residue modulo `2 ^ N` stands for. -/
def Sign.read (s : Sign) (N a : Nat) : Int :=
  match s with
  | signed => (a : Int).bmod (2 ^ N)
  | unsigned => a

/-- Whether a comparison holds between two residues. -/
def IntCompare.relates (op : IntCompare) (N a b : Nat) : Bool :=
  match op with
  | eq => a = b
  | ne => a ≠ b
  | lt s => s.read N a < s.read N b
  | gt s => s.read N a > s.read N b
  | le s => s.read N a ≤ s.read N b
  | ge s => s.read N a ≥ s.read N b

/-- Counts of the bits of a residue: how many zeros come first, how many come last, and
how many ones there are. -/
def IntUnary.count (op : IntUnary) (N a : Nat) : Nat :=
  match op with
  | clz => Nat.findGreatest (fun k => a < 2 ^ (N - k)) N
  | ctz => Nat.findGreatest (fun k => 2 ^ k ∣ a) N
  | popcnt => Nat.count (fun i => a.testBit i) N

namespace IntBinary

/-- The result for two residues.  Division truncates toward zero, and shifts to the
right round down. -/
def value (op : IntBinary) (N a b : Nat) : Int :=
  let count := b % N
  match op with
  | add => a + b
  | sub => a - b
  | mul => a * b
  | div s => (s.read N a).tdiv (s.read N b)
  | rem s => (s.read N a).tmod (s.read N b)
  | and => (a &&& b : Nat)
  | or => (a ||| b : Nat)
  | xor => (a ^^^ b : Nat)
  | shl => (a * 2 ^ count : Nat)
  | shr s => s.read N a / 2 ^ count
  | rotl => (a * 2 ^ count + a / 2 ^ (N - count) : Nat)
  | rotr => (a * 2 ^ (N - count) + a / 2 ^ count : Nat)

/-- Whether a residue is divided by zero. -/
def DividesByZero (op : IntBinary) (b : Nat) : Prop :=
  (∃ s, op = div s ∨ op = rem s) ∧ b = 0

/-- Whether the quotient is the one that does not fit: the least integer is divided by
`-1`. -/
def Overflows (op : IntBinary) (N a b : Nat) : Prop :=
  op = div .signed ∧ Sign.signed.read N a = -2 ^ (N - 1) ∧ Sign.signed.read N b = -1

end IntBinary

variable {n : Nat}

/-! ### Reading -/

@[simp] theorem Sign.read_signed (a : BitVec n) : signed.read n a.toNat = a.toInt :=
  (BitVec.toInt_eq_toNat_bmod a).symm

@[simp] theorem Sign.read_unsigned (N a : Nat) : unsigned.read N a = a := rfl

/-- The integer that bits stand for gives them back. -/
theorem Sign.ofInt_read (s : Sign) (a : BitVec n) :
    BitVec.ofInt n (s.read n a.toNat) = a := by
  cases s with
  | signed => rw [read_signed, BitVec.ofInt_toInt]
  | unsigned => rw [read_unsigned, BitVec.ofInt_natCast, BitVec.ofNat_toNat,
      BitVec.setWidth_eq]

theorem ofInt_toNat (a : BitVec n) : BitVec.ofInt n a.toNat = a :=
  Sign.unsigned.ofInt_read a

/-- Some of the low bits, with their sign, in another width. -/
theorem signExtend_setWidth (a : BitVec n) (low v : Nat) :
    (a.setWidth low).signExtend v = BitVec.ofInt v (Sign.signed.read low a.toNat) := by
  rw [BitVec.signExtend, BitVec.toInt_setWidth]
  rfl

/-! ### Comparisons -/

/-- A comparison of bits compares the integers that they stand for. -/
theorem IntCompare.holds_eq (op : IntCompare) (a b : BitVec n) :
    op.holds a b = op.relates n a.toNat b.toNat := by
  cases op with
  | eq | ne =>
      rw [Bool.eq_iff_iff]
      simp [holds, relates, BitVec.toNat_inj]
  | lt s => cases s <;> simp [holds, relates, BitVec.slt_eq_decide,
      BitVec.ult_eq_decide]
  | gt s => cases s <;> simp [holds, relates, BitVec.slt_eq_decide,
      BitVec.ult_eq_decide]
  | le s => cases s <;> simp [holds, relates, BitVec.sle_eq_decide,
      BitVec.ule_eq_decide]
  | ge s => cases s <;> simp [holds, relates, BitVec.sle_eq_decide,
      BitVec.ule_eq_decide]

/-! ### Counts -/

theorem toNat_clz_le (a : BitVec n) : a.clz.toNat ≤ n :=
  Nat.le_trans (BitVec.le_def.mp BitVec.clz_le) (Nat.mod_le _ _)

theorem toNat_ctz_le (a : BitVec n) : a.ctz.toNat ≤ n := by
  rw [BitVec.ctz_eq_reverse_clz]
  exact toNat_clz_le a.reverse

theorem toNat_clz_zero (n : Nat) : (0#n).clz.toNat = n := by
  rw [BitVec.clz_eq_iff_eq_zero.mpr rfl]
  exact Nat.mod_eq_of_lt Nat.lt_two_pow_self

theorem toNat_ctz_zero (n : Nat) : (0#n).ctz.toNat = n := by
  rw [BitVec.ctz_eq_reverse_clz, BitVec.reverse_eq_zero_iff.mpr rfl]
  exact toNat_clz_zero n

/-- As many zeros come first as keep the residue below the power of two for the other
bits. -/
theorem clz_eq_findGreatest (a : BitVec n) :
    a.clz.toNat = Nat.findGreatest (fun k => a.toNat < 2 ^ (n - k)) n := by
  symm
  rw [Nat.findGreatest_eq_iff]
  refine ⟨toNat_clz_le a, fun _ => BitVec.toNat_lt_two_pow_sub_clz,
    fun k hk hkn hlt => ?_⟩
  have hne : a ≠ 0#n := by
    rintro rfl
    rw [toNat_clz_zero] at hk
    omega
  have hle := BitVec.two_pow_sub_clz_le_toNat_of_ne_zero (by omega) hne
  have hpow : 2 ^ (n - k) ≤ 2 ^ (n - 1 - a.clz.toNat) :=
    Nat.pow_le_pow_right (by decide) (by omega)
  omega

/-- As many zeros come last as there are twos in the residue. -/
theorem ctz_eq_findGreatest (a : BitVec n) :
    a.ctz.toNat = Nat.findGreatest (fun k => 2 ^ k ∣ a.toNat) n := by
  symm
  rw [Nat.findGreatest_eq_iff]
  refine ⟨toNat_ctz_le a, fun _ => ?_, fun k hk hkn hdvd => ?_⟩
  · apply Nat.dvd_of_mod_eq_zero
    apply Nat.eq_of_testBit_eq
    intro i
    rw [Nat.testBit_mod_two_pow, Nat.zero_testBit, Bool.and_eq_false_imp,
      decide_eq_true_iff]
    exact fun hi => BitVec.getLsbD_false_of_lt_ctz hi
  · have hne : a ≠ 0#n := by
      rintro rfl
      rw [toNat_ctz_zero] at hk
      omega
    have hone : a.toNat.testBit a.ctz.toNat = true :=
      BitVec.getLsbD_true_ctz_of_ne_zero hne
    obtain ⟨c, hc⟩ := hdvd
    rw [hc, Nat.testBit_two_pow_mul, decide_eq_false (Nat.not_le.mpr hk)] at hone
    cases hone

theorem cpopNatRec_eq_count (a : BitVec n) (i acc : Nat) :
    a.cpopNatRec i acc = acc + Nat.count (fun i => a.toNat.testBit i) i := by
  induction i generalizing acc with
  | zero => simp
  | succ i ih =>
      rw [BitVec.cpopNatRec_succ, ih, Nat.count_succ, BitVec.getLsbD]
      cases a.toNat.testBit i <;> simp
      omega

theorem cpop_eq_count (a : BitVec n) :
    a.cpop.toNat = Nat.count (fun i => a.toNat.testBit i) n := by
  rw [BitVec.toNat_cpop, cpopNatRec_eq_count, Nat.zero_add]

theorem IntUnary.apply_eq (op : IntUnary) (a : BitVec n) :
    op.apply a = BitVec.ofNat n (op.count n a.toNat) := by
  cases op with
  | clz => simp only [apply, count, ← clz_eq_findGreatest, BitVec.ofNat_toNat,
      BitVec.setWidth_eq]
  | ctz => simp only [apply, count, ← ctz_eq_findGreatest, BitVec.ofNat_toNat,
      BitVec.setWidth_eq]
  | popcnt => simp only [apply, count, ← cpop_eq_count, BitVec.ofNat_toNat,
      BitVec.setWidth_eq]

/-! ### Arithmetic -/

/-- The two parts of a rotated residue have no bits in common. -/
theorem or_eq_add_of_rotated {a j k : Nat} (ha : a < 2 ^ (j + k)) :
    a <<< k % 2 ^ (j + k) ||| a >>> j = (a * 2 ^ k + a / 2 ^ j) % 2 ^ (j + k) := by
  have hlow : a / 2 ^ j < 2 ^ k := by
    rw [Nat.div_lt_iff_lt_mul (Nat.two_pow_pos j), ← Nat.pow_add, Nat.add_comm k j]
    exact ha
  have hhigh : a * 2 ^ k % 2 ^ (j + k) = 2 ^ k * (a % 2 ^ j) := by
    rw [Nat.pow_add, Nat.mul_mod_mul_right, Nat.mul_comm]
  have hmod : a % 2 ^ j < 2 ^ j := Nat.mod_lt _ (Nat.two_pow_pos j)
  have hsum : 2 ^ k * (a % 2 ^ j) + a / 2 ^ j < 2 ^ (j + k) := by
    calc 2 ^ k * (a % 2 ^ j) + a / 2 ^ j < 2 ^ k * (a % 2 ^ j) + 2 ^ k * 1 := by omega
      _ = 2 ^ k * (a % 2 ^ j + 1) := (Nat.mul_add ..).symm
      _ ≤ 2 ^ k * 2 ^ j := Nat.mul_le_mul_left _ hmod
      _ = 2 ^ (j + k) := by rw [← Nat.pow_add, Nat.add_comm]
  rw [Nat.shiftLeft_eq, Nat.shiftRight_eq_div_pow,
    hhigh, ← Nat.two_pow_add_eq_or_of_lt hlow, Nat.add_mod, hhigh, Nat.add_mod_mod,
      Nat.mod_eq_of_lt hsum]

theorem ofInt_tdiv (s : Sign) (a b : BitVec n) :
    BitVec.ofInt n ((s.read n a.toNat).tdiv (s.read n b.toNat)) =
      match s with
      | .signed => a.sdiv b
      | .unsigned => a / b := by
  cases s with
  | signed =>
      apply BitVec.eq_of_toInt_eq
      rw [BitVec.toInt_ofInt, Sign.read_signed, Sign.read_signed, BitVec.toInt_sdiv]
  | unsigned => exact ofInt_toNat (a / b)

theorem ofInt_tmod (s : Sign) (a b : BitVec n) :
    BitVec.ofInt n ((s.read n a.toNat).tmod (s.read n b.toNat)) =
      match s with
      | .signed => a.srem b
      | .unsigned => a % b := by
  cases s with
  | signed => rw [Sign.read_signed, Sign.read_signed, ← BitVec.toInt_srem,
      BitVec.ofInt_toInt]
  | unsigned => exact ofInt_toNat (a % b)

theorem ofInt_shiftLeft (a : BitVec n) (k : Nat) :
    BitVec.ofInt n (a.toNat * 2 ^ k : Nat) = a <<< k := by
  apply BitVec.eq_of_toNat_eq
  rw [BitVec.ofInt_natCast, BitVec.toNat_ofNat, BitVec.toNat_shiftLeft,
    Nat.shiftLeft_eq]

theorem ofInt_shiftRight (s : Sign) (a : BitVec n) (k : Nat) :
    BitVec.ofInt n (s.read n a.toNat / 2 ^ k) =
      match s with
      | .signed => a.sshiftRight k
      | .unsigned => a >>> k := by
  cases s with
  | signed =>
      rw [Sign.read_signed, BitVec.sshiftRight_eq, Int.shiftRight_eq_div_pow]
      rfl
  | unsigned =>
      rw [Sign.read_unsigned, ← ofInt_toNat (a >>> k), BitVec.toNat_ushiftRight,
        Nat.shiftRight_eq_div_pow]
      norm_cast

theorem ofInt_rotateLeft (a : BitVec n) {k : Nat} (hk : k < n) :
    BitVec.ofInt n (a.toNat * 2 ^ k + a.toNat / 2 ^ (n - k) : Nat) =
      a.rotateLeft k := by
  apply BitVec.eq_of_toNat_eq
  have hsplit : n - k + k = n := by omega
  have hrotated := or_eq_add_of_rotated
    (hsplit.symm ▸ a.isLt : a.toNat < 2 ^ (n - k + k))
  rw [hsplit] at hrotated
  rw [BitVec.toNat_rotateLeft, Nat.mod_eq_of_lt hk, hrotated, BitVec.ofInt_natCast,
    BitVec.toNat_ofNat]

theorem ofInt_rotateRight (a : BitVec n) {k : Nat} (hk : k < n) :
    BitVec.ofInt n (a.toNat * 2 ^ (n - k) + a.toNat / 2 ^ k : Nat) =
      a.rotateRight k := by
  apply BitVec.eq_of_toNat_eq
  have hsplit : k + (n - k) = n := by omega
  have hrotated := or_eq_add_of_rotated
    (hsplit.symm ▸ a.isLt : a.toNat < 2 ^ (k + (n - k)))
  rw [hsplit] at hrotated
  rw [BitVec.toNat_rotateRight, Nat.mod_eq_of_lt hk, Nat.or_comm, hrotated,
    BitVec.ofInt_natCast, BitVec.toNat_ofNat]

namespace IntBinary

variable {w : Width}

theorem dividesByZero_iff {op : IntBinary} {b : BitVec n} :
    op.DividesByZero b.toNat ↔ (∃ s, op = div s ∨ op = rem s) ∧ b = 0 := by
  rw [DividesByZero, ← BitVec.toNat_inj]
  rfl

theorem overflows_iff {op : IntBinary} {a b : BitVec w.bits} :
    op.Overflows w.bits a.toNat b.toNat ↔
      op = div .signed ∧ a = BitVec.intMin w.bits ∧ b = BitVec.allOnes w.bits := by
  have hmin : (BitVec.intMin w.bits).toInt = -2 ^ (w.bits - 1) := by cases w <;> rfl
  have hone : (BitVec.allOnes w.bits).toInt = -1 := by cases w <;> rfl
  rw [Overflows, Sign.read_signed, Sign.read_signed, ← hmin, ← hone, BitVec.toInt_inj,
    BitVec.toInt_inj]

/-- Unless it divides by zero or overflows, an operation on bits is the one on the
integers that they stand for, modulo the width. -/
theorem apply_eq_ok (op : IntBinary) (a b : BitVec w.bits)
    (hzero : ¬ op.DividesByZero b.toNat)
    (hover : ¬ op.Overflows w.bits a.toNat b.toNat) :
    op.apply w a b = .ok (BitVec.ofInt w.bits (op.value w.bits a.toNat b.toNat)) := by
  have hcount : b.toNat % w.bits < w.bits := Nat.mod_lt _ (by cases w <;> decide)
  rw [dividesByZero_iff] at hzero
  rw [overflows_iff] at hover
  cases op with
  | add => rw [value, BitVec.ofInt_add, ofInt_toNat, ofInt_toNat, apply]
  | sub =>
      rw [value, Int.sub_eq_add_neg, BitVec.ofInt_add, BitVec.ofInt_neg,
        ofInt_toNat, ofInt_toNat,
        ← BitVec.sub_eq_add_neg, apply]
  | mul => rw [value, BitVec.ofInt_mul, ofInt_toNat, ofInt_toNat, apply]
  | div s =>
      have hb : b ≠ 0 := fun hb => hzero ⟨⟨s, .inl rfl⟩, hb⟩
      rw [value, ofInt_tdiv]
      cases s with
      | signed =>
          rw [apply, if_neg hb, if_neg fun h => hover ⟨rfl, h⟩]
      | unsigned => rw [apply, if_neg hb]
  | rem s =>
      have hb : b ≠ 0 := fun hb => hzero ⟨⟨s, .inr rfl⟩, hb⟩
      rw [value, ofInt_tmod]
      cases s <;> rw [apply, if_neg hb]
  | and => exact congrArg _ (ofInt_toNat (a &&& b)).symm
  | or => exact congrArg _ (ofInt_toNat (a ||| b)).symm
  | xor => exact congrArg _ (ofInt_toNat (a ^^^ b)).symm
  | shl => rw [value, ofInt_shiftLeft, apply]
  | shr s =>
      rw [value, ofInt_shiftRight]
      cases s <;> rfl
  | rotl => rw [value, ofInt_rotateLeft a hcount, apply]
  | rotr => rw [value, ofInt_rotateRight a hcount, apply]

theorem apply_of_dividesByZero {op : IntBinary} {b : BitVec w.bits}
    (h : op.DividesByZero b.toNat) (a : BitVec w.bits) :
    op.apply w a b = .error (.divisionByZero w op) := by
  obtain ⟨⟨s, rfl | rfl⟩, hb⟩ := dividesByZero_iff.mp h <;> cases s <;>
    rw [apply, if_pos hb]

theorem apply_of_overflows {op : IntBinary} {a b : BitVec w.bits}
    (h : op.Overflows w.bits a.toNat b.toNat) :
    op.apply w a b = .error (.divisionOverflow w) := by
  obtain ⟨rfl, ha, rfl⟩ := overflows_iff.mp h
  have hne : BitVec.allOnes w.bits ≠ 0 := by cases w <;> decide
  rw [apply, if_neg hne, if_pos ⟨ha, rfl⟩]

theorem apply_eq_ok_iff {op : IntBinary} {a b r : BitVec w.bits} :
    op.apply w a b = .ok r ↔ ¬ op.DividesByZero b.toNat ∧
      ¬ op.Overflows w.bits a.toNat b.toNat ∧
        r = BitVec.ofInt w.bits (op.value w.bits a.toNat b.toNat) := by
  constructor
  · intro h
    have hzero : ¬ op.DividesByZero b.toNat := fun hzero => by
      rw [apply_of_dividesByZero hzero] at h
      cases h
    have hover : ¬ op.Overflows w.bits a.toNat b.toNat := fun hover => by
      rw [apply_of_overflows hover] at h
      cases h
    rw [apply_eq_ok op a b hzero hover] at h
    exact ⟨hzero, hover, (Except.ok.inj h).symm⟩
  · rintro ⟨hzero, hover, rfl⟩
    exact apply_eq_ok op a b hzero hover

/-! Division, of what bits stand for. -/

theorem quotient_of_apply {s : Sign} {a b q : BitVec w.bits}
    (h : (div s).apply w a b = .ok q) :
    s.read w.bits q.toNat = (s.read w.bits a.toNat).tdiv (s.read w.bits b.toNat) := by
  obtain ⟨-, hover, rfl⟩ := apply_eq_ok_iff.mp h
  rw [value, ofInt_tdiv]
  cases s with
  | signed =>
      rw [overflows_iff] at hover
      simp only [Sign.read_signed]
      apply BitVec.toInt_sdiv_of_ne_or_ne
      by_cases ha : a = BitVec.intMin w.bits
      · exact .inr fun hb => hover ⟨rfl, ha, hb.trans BitVec.neg_one_eq_allOnes⟩
      · exact .inl ha
  | unsigned => rfl

theorem read_divisor_ne_zero {s : Sign} {a b r : BitVec w.bits}
    (h : (rem s).apply w a b = .ok r) : s.read w.bits b.toNat ≠ 0 := by
  obtain ⟨hzero, -, -⟩ := apply_eq_ok_iff.mp h
  intro hread
  apply hzero
  rw [dividesByZero_iff, ← s.ofInt_read b, hread]
  exact ⟨⟨s, .inr rfl⟩, rfl⟩

theorem remainder_of_apply {s : Sign} {a b r : BitVec w.bits}
    (h : (rem s).apply w a b = .ok r) :
    s.read w.bits r.toNat = (s.read w.bits a.toNat).tmod (s.read w.bits b.toNat) := by
  obtain ⟨-, -, rfl⟩ := apply_eq_ok_iff.mp h
  rw [value, ofInt_tmod]
  cases s with
  | signed => simp only [Sign.read_signed, BitVec.toInt_srem]
  | unsigned => rfl

end IntBinary

end WasmVm
