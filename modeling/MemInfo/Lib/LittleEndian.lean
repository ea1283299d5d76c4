import Mathlib.Algebra.GroupWithZero.Nat

/-! # Numbers as bytes

Unsigned integers of a fixed number of bytes, the least significant one first.
-/

namespace Lib.LittleEndian

/-- The `k` low bytes of `n`. -/
def encode : ℕ → ℕ → List UInt8
  | 0, _ => []
  | k + 1, n => UInt8.ofNat n :: encode k (n / 256)

def decode : List UInt8 → ℕ
  | [] => 0
  | b :: s => b.toNat + 256 * decode s

@[simp] theorem length_encode (k n : ℕ) : (encode k n).length = k := by
  induction k generalizing n with
  | zero => rfl
  | succ k ih => simp [encode, ih]

theorem decode_encode (k n : ℕ) : decode (encode k n) = n % 256 ^ k := by
  induction k generalizing n with
  | zero => simp [encode, decode, Nat.mod_one]
  | succ k ih =>
    have hsplit : n % 256 ^ (k + 1) = n % 256 + 256 * (n / 256 % 256 ^ k) := by
      rw [Nat.pow_succ', Nat.mod_mul]
    simp [encode, decode, ih, hsplit]

theorem decode_encode_of_lt {k n : ℕ} (h : n < 256 ^ k) : decode (encode k n) = n := by
  rw [decode_encode, Nat.mod_eq_of_lt h]

theorem decode_take_encode {k n : ℕ} (h : n < 256 ^ k) (s : List UInt8) :
    decode ((encode k n ++ s).take k) = n := by
  rw [List.take_left' (length_encode k n), decode_encode_of_lt h]

end Lib.LittleEndian
