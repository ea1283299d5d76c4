import Mathlib.Data.Nat.Notation
import MemInfo.Common.Types
import MemInfo.Lib.Window

/-! # Page-fault backends

`IPageFaultBackend` as its users see it: which pages of the region hold contents, which are
reported dirty, and what its operations may do. A page here is the range that one call is
about.
-/

namespace MemInfo

open Lib

/-- `round_up`, in 64-bit arithmetic. -/
def roundUp (value multiple : ℕ) : ℕ := wrap (value + multiple - 1) / multiple * multiple

theorem roundUp_lt (value multiple : ℕ) : roundUp value multiple < 2 ^ 64 :=
  Nat.lt_of_le_of_lt (Nat.div_mul_le_self ..) (wrap_lt _)

theorem roundUp_of_dvd {value multiple : ℕ} (h : multiple ∣ value)
    (hlt : value + multiple ≤ 2 ^ 64) (hpos : 0 < multiple) : roundUp value multiple = value := by
  obtain ⟨n, rfl⟩ := h
  rw [roundUp, wrap_of_lt (by omega), Nat.add_sub_assoc hpos, Nat.mul_add_div hpos,
    Nat.div_eq_of_lt (by omega), Nat.add_zero, Nat.mul_comm]

theorem dvd_roundUp (value multiple : ℕ) : multiple ∣ roundUp value multiple :=
  Nat.dvd_mul_left ..

theorem le_roundUp {value multiple : ℕ} (hlt : value + multiple ≤ 2 ^ 64) (hpos : 0 < multiple) :
    value ≤ roundUp value multiple := by
  have hdiv := Nat.div_add_mod (value + multiple - 1) multiple
  have hmod := Nat.mod_lt (value + multiple - 1) hpos
  rw [roundUp, wrap_of_lt (by omega), Nat.mul_comm]
  omega

theorem roundUp_wraps {value multiple : ℕ} (hv : value < 2 ^ 64) (hm : multiple < 2 ^ 64)
    (h : 2 ^ 64 < value + multiple) : roundUp value multiple = 0 := by
  have hwrap : wrap (value + multiple - 1) = value + multiple - 1 - 2 ^ 64 := by
    unfold wrap
    omega
  rw [roundUp, hwrap, Nat.div_eq_of_lt (by omega), Nat.zero_mul]

/-- The operations of a backend with states `β`. -/
structure PageFaultBackend (β : Type) where
  /-- What a page holds. An access to a page without contents faults. -/
  contents : β → ℕ → Option (List Byte)
  isDirty : β → ℕ → Bool
  /-- An access to a page that has contents. -/
  load : ℕ → β → β → Prop
  store : ℕ → ℕ → Byte → β → β → Prop
  /-- The last argument of the call is whether the fault was a store, the answer whether the
  fault is resolved. -/
  resolveFault : ℕ → List Byte → Bool → β → Bool → β → Prop
  clearDirty : ℕ → β → β → Prop
  evictPages : ℕ → β → Bool → β → Prop

namespace PageFaultBackend

variable {β : Type}

def Elsewhere (B : PageFaultBackend β) (page : ℕ) (b b' : β) : Prop :=
  ∀ q, q ≠ page → B.contents b' q = B.contents b q ∧ (B.isDirty b q → B.isDirty b' q)

/-- The contract of the interface. A page that was stored to is reported dirty until it is
cleared or evicted. A load may be taken for a store, and `clear_dirty` may leave a page dirty:
backends over-report. An operation that fails changes nothing. -/
structure Contract (B : PageFaultBackend β) : Prop where
  load : ∀ {page b b'}, B.load page b b' → B.Elsewhere page b b' ∧
    B.contents b' page = B.contents b page ∧ (B.isDirty b page → B.isDirty b' page)
  store : ∀ {page off v b b' bytes}, B.store page off v b b' → B.contents b page = some bytes →
    off < bytes.length → B.Elsewhere page b b' ∧
      B.contents b' page = some (splice bytes off [v]) ∧ B.isDirty b' page
  resolveFault : ∀ {page data isWrite b b'}, B.resolveFault page data isWrite b true b' →
    B.Elsewhere page b b' ∧ B.contents b' page = some data
  resolveFault_failed : ∀ {page data isWrite b b'},
    B.resolveFault page data isWrite b false b' → b' = b
  clearDirty : ∀ {page b b'}, B.clearDirty page b b' → B.Elsewhere page b b' ∧
    B.contents b' page = B.contents b page
  evictPages : ∀ {page b b'}, B.evictPages page b true b' → B.Elsewhere page b b' ∧
    B.contents b' page = none
  evictPages_failed : ∀ {page b b'}, B.evictPages page b false b' → b' = b

end PageFaultBackend

end MemInfo
