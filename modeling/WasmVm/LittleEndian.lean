/-
Numbers as byte strings, least significant byte first.
-/

-- `b ^ n` on natural numbers and integers is the power that evaluates, also in modules
-- that have an algebraic power in scope.
attribute [instance (high), default_instance 20000] instPowNat

namespace WasmVm

/-- The number that `bytes` spell. -/
def ofLittleEndian : List UInt8 → Nat
  | [] => 0
  | b :: rest => b.toNat + 256 * ofLittleEndian rest

/-- The `count` low-order bytes of `n`. -/
def toLittleEndian : (count n : Nat) → List UInt8
  | 0, _ => []
  | count + 1, n => UInt8.ofNat n :: toLittleEndian count (n / 256)

/-- As many bytes are written as are asked for. -/
@[simp] theorem length_toLittleEndian (count n : Nat) :
    (toLittleEndian count n).length = count := by
  induction count generalizing n with
  | zero => rfl
  | succ count ih => simp [toLittleEndian, ih]

/-- Reading back what was written gives the number cut to the bytes written. -/
theorem ofLittleEndian_toLittleEndian (count n : Nat) :
    ofLittleEndian (toLittleEndian count n) = n % 256 ^ count := by
  induction count generalizing n with
  | zero => simp [toLittleEndian, ofLittleEndian, Nat.mod_one]
  | succ count ih =>
    rw [toLittleEndian, ofLittleEndian, ih, Nat.pow_succ,
      Nat.mul_comm (256 ^ count) 256, Nat.mod_mul]
    simp

end WasmVm
