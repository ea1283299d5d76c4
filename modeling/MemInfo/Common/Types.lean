import Mathlib.Algebra.GroupWithZero.Nat

/-! # Words, limits and exceptions

Sizes, offsets, handles and session ids are 64-bit unsigned integers. They are
natural numbers here, and `wrap` marks the sums that the machine reduces.
-/

namespace MemInfo

abbrev Byte := UInt8

def wrap (n : ℕ) : ℕ := n % 2 ^ 64

def wrapSub (m n : ℕ) : ℕ := wrap (m + (2 ^ 64 - wrap n))

/-- `std::numeric_limits<size_t>::max()`. -/
def sizeMax : ℕ := 2 ^ 64 - 1

/-- `MAX_MESSAGE_SIZE`, 64 MiB. -/
def maxMessageSize : ℕ := 64 * 1024 * 1024

/-- `MEMINFO_PROTOCOL_VERSION`. -/
def protocolVersion : ℕ := 1

/-- The exceptions thrown by the daemon and the client, with their messages. -/
inductive Err where
  | permissionDenied
  | invalidArgument (what : String)
  | badAlloc
  | outOfRange (what : String)
  | runtimeError (what : String)
  -- indexing a vector outside its bounds; no exception in the source, and no result
  | undefinedBehaviour
  deriving DecidableEq, Repr

/-- `std::exception::what`. -/
def Err.what : Err → String
  | .permissionDenied => "Permission denied: handle owned by another session"
  | .invalidArgument w => w
  | .badAlloc => "std::bad_alloc"
  | .outOfRange w => w
  | .runtimeError w => w
  | .undefinedBehaviour => ""

theorem wrap_of_lt {n : ℕ} (h : n < 2 ^ 64) : wrap n = n := Nat.mod_eq_of_lt h

theorem wrap_lt (n : ℕ) : wrap n < 2 ^ 64 := Nat.mod_lt _ (by decide)

theorem wrapSub_of_le {m n : ℕ} (h : n ≤ m) (hm : m < 2 ^ 64) : wrapSub m n = m - n := by
  rw [wrapSub, wrap_of_lt (Nat.lt_of_le_of_lt h hm), wrap]
  omega

theorem and_mask {x k : ℕ} (hx : x < 2 ^ 64) (hk : k < 64) :
    x &&& (sizeMax - (2 ^ k - 1)) = x / 2 ^ k * 2 ^ k := by
  have hpow : 2 ^ k - 1 < 2 ^ 64 := by
    have := Nat.pow_lt_pow_right (a := 2) (by decide) hk
    omega
  have hmask : sizeMax - (2 ^ k - 1) = 2 ^ 64 - (2 ^ k - 1 + 1) := by
    unfold sizeMax
    omega
  apply Nat.eq_of_testBit_eq
  intro i
  rw [hmask, Nat.testBit_and, Nat.testBit_two_pow_sub_succ hpow, Nat.testBit_two_pow_sub_one,
    Nat.testBit_mul_two_pow, Nat.testBit_div_two_pow]
  by_cases hi : k ≤ i
  · by_cases hi' : i < 64
    · simp [hi, hi', Nat.not_lt.mpr hi]
    · have hfalse : x.testBit i = false :=
        Nat.testBit_lt_two_pow (Nat.lt_of_lt_of_le hx (Nat.pow_le_pow_right (by decide) (by omega)))
      simp [hi, hfalse]
  · simp [hi, Nat.lt_of_not_le hi]

end MemInfo
