import Mathlib.Data.List.Basic
import Mathlib.Tactic.Common

/-! # Windows of a flat memory

A memory assigns a cell to every address. Lists are copied into it and read
out of it at an address; a list is also spliced over a range of a longer list.
-/

namespace Lib

variable {α : Type*}

/-- The memory after copying a list to the addresses from `a` on. -/
def blit (m : ℕ → α) (a : ℕ) (xs : List α) : ℕ → α :=
  fun i => if a ≤ i then (xs[i - a]?).getD (m i) else m i

/-- The `n` cells from address `a` on. -/
def window (m : ℕ → α) (a n : ℕ) : List α := (List.range n).map fun i => m (a + i)

/-- Overwrite the range of `xs` that starts at `off` by `ys`. -/
def splice (xs : List α) (off : ℕ) (ys : List α) : List α :=
  xs.take off ++ ys ++ xs.drop (off + ys.length)

/-- The `n` entries of `xs` from `off` on. -/
def slice (xs : List α) (off n : ℕ) : List α := (xs.drop off).take n

theorem blit_inside {m : ℕ → α} {a : ℕ} {xs : List α} {j : ℕ} (hj : j < xs.length) :
    blit m a xs (a + j) = xs[j] := by
  simp [blit, hj]

theorem blit_outside {m : ℕ → α} {a i : ℕ} {xs : List α} (h : i < a ∨ a + xs.length ≤ i) :
    blit m a xs i = m i := by
  unfold blit
  split
  · rw [List.getElem?_eq_none (by omega), Option.getD_none]
  · rfl

@[simp] theorem length_window (m : ℕ → α) (a n : ℕ) : (window m a n).length = n := by
  simp [window]

@[simp] theorem getElem_window (m : ℕ → α) (a n i : ℕ) (hi : i < (window m a n).length) :
    (window m a n)[i] = m (a + i) := by
  simp [window]

theorem window_blit_self (m : ℕ → α) (a : ℕ) (xs : List α) :
    window (blit m a xs) a xs.length = xs := by
  apply List.ext_getElem (length_window ..)
  intro i hi hi'
  rw [getElem_window, blit_inside hi']

@[simp] theorem length_slice (xs : List α) (off n : ℕ) :
    (slice xs off n).length = min n (xs.length - off) := by
  simp [slice]

theorem getElem?_slice (xs : List α) (off n i : ℕ) :
    (slice xs off n)[i]? = if i < n then xs[off + i]? else none := by
  simp [slice, List.getElem?_take]

theorem mem_of_mem_slice {xs : List α} {off n : ℕ} {b : α} (h : b ∈ slice xs off n) : b ∈ xs :=
  List.mem_of_mem_drop (List.mem_of_mem_take h)

theorem mem_of_mem_splice {xs ys : List α} {off : ℕ} {b : α} (h : b ∈ splice xs off ys) :
    b ∈ xs ∨ b ∈ ys := by
  rcases List.mem_append.mp h with h | h
  · exact (List.mem_append.mp h).imp_left List.mem_of_mem_take
  · exact .inl (List.mem_of_mem_drop h)

theorem slice_append_slice (xs : List α) (off k n : ℕ) :
    slice xs off k ++ slice xs (off + k) n = slice xs off (k + n) := by
  rw [slice, slice, slice, ← List.drop_drop, ← List.take_add]

theorem length_splice {xs ys : List α} {off : ℕ} (h : off + ys.length ≤ xs.length) :
    (splice xs off ys).length = xs.length := by
  simp [splice]; omega

theorem getElem?_splice {xs ys : List α} {off : ℕ} (h : off + ys.length ≤ xs.length) (i : ℕ) :
    (splice xs off ys)[i]? =
      if off ≤ i ∧ i < off + ys.length then ys[i - off]? else xs[i]? := by
  have hl : (xs.take off).length = off := by simp; omega
  unfold splice
  rw [List.append_assoc, List.getElem?_append, hl]
  split_ifs with h₁ h₂ h₂
  · omega
  · rw [List.getElem?_take_of_lt h₁]
  · rw [List.getElem?_append_left (by omega)]
  · rw [List.getElem?_append_right (by omega), List.getElem?_drop]
    congr 1; omega

theorem splice_eq_self {xs : List α} {off : ℕ} {x : α} (h : xs[off]? = some x) :
    splice xs off [x] = xs := by
  have hlt := (List.getElem?_eq_some_iff.1 h).1
  ext1 i
  rw [getElem?_splice hlt]
  split_ifs with hi
  · obtain rfl : i = off := by
      rw [List.length_singleton] at hi
      omega
    simp [h]
  · rfl

@[simp] theorem splice_nil (xs : List α) (off : ℕ) : splice xs off [] = xs := by
  simp [splice]

theorem slice_slice {off l i n : ℕ} (h : i + n ≤ l) (xs : List α) :
    slice (slice xs off l) i n = slice xs (off + i) n := by
  ext1 j
  simp only [getElem?_slice]
  split_ifs <;> first | rfl | omega | rw [Nat.add_assoc]

theorem slice_splice_inside {xs ys : List α} {pos off n : ℕ} (h₁ : off ≤ pos)
    (h₂ : pos + ys.length ≤ off + n) (h₃ : off + n ≤ xs.length) :
    slice (splice xs pos ys) off n = splice (slice xs off n) (pos - off) ys := by
  have hlen : (slice xs off n).length = n := by rw [length_slice]; omega
  ext1 i
  rw [getElem?_slice, getElem?_splice (by omega), getElem?_splice (by omega), getElem?_slice]
  split_ifs <;> first | rfl | omega | exact congrArg (ys[·]?) (by omega)

theorem slice_splice_outside {xs ys : List α} {pos off n : ℕ}
    (h : pos + ys.length ≤ off ∨ off + n ≤ pos) (hle : pos + ys.length ≤ xs.length) :
    slice (splice xs pos ys) off n = slice xs off n := by
  ext1 i
  rw [getElem?_slice, getElem?_slice, getElem?_splice hle]
  split_ifs <;> first | rfl | omega

theorem slice_splice_self {xs ys : List α} {off : ℕ} (h : off + ys.length ≤ xs.length) :
    slice (splice xs off ys) off ys.length = ys := by
  ext1 i
  rw [getElem?_slice, getElem?_splice h, Nat.add_sub_cancel_left]
  split_ifs with h₁ h₂ <;> first | rfl | omega | exact (List.getElem?_eq_none (by omega)).symm

theorem splice_splice_slice {xs ys : List α} {off k n : ℕ} (h : off + ys.length ≤ xs.length)
    (hk : k + n ≤ ys.length) :
    splice (splice xs off (ys.take k)) (off + k) (slice ys k n) =
      splice xs off (ys.take (k + n)) := by
  have h₁ : (ys.take k).length = k := by rw [List.length_take]; omega
  have h₂ : (slice ys k n).length = n := by rw [length_slice]; omega
  have h₃ : (ys.take (k + n)).length = k + n := by rw [List.length_take]; omega
  have h₄ : (splice xs off (ys.take k)).length = xs.length := length_splice (by omega)
  ext1 i
  rw [getElem?_splice (by omega), getElem?_splice (by omega), getElem?_splice (by omega), h₁, h₂,
    h₃]
  simp only [getElem?_slice, List.getElem?_take]
  split_ifs <;> first | rfl | omega | exact congrArg (ys[·]?) (by omega)

theorem splice_fill {xs : List α} {off k m n : ℕ} (z : α) (h : off + n ≤ xs.length)
    (hk : k + m ≤ n) :
    splice (slice xs off k ++ List.replicate (n - k) z) k (slice xs (off + k) m) =
      slice xs off (k + m) ++ List.replicate (n - (k + m)) z := by
  have h₁ : (slice xs off k).length = k := by rw [length_slice]; omega
  have h₂ : (slice xs (off + k) m).length = m := by rw [length_slice]; omega
  rw [splice, List.take_left' h₁, h₂, ← slice_append_slice, List.drop_append, h₁,
    List.drop_eq_nil_of_le (by omega), List.nil_append, List.drop_replicate]
  congr 2
  omega

end Lib
