import Mathlib.Logic.Function.Iterate
import Mathlib.Tactic.Common

/-! # Reflected cyclic redundancy checks

A register of `w` bits takes in a message bit by bit at its low end, and shifts each bit out
through a polynomial. The register is linear in exclusive or. If the polynomial has its top bit,
then a shift can be undone, and messages that differ in `w` consecutive bits only leave different
registers.
-/

namespace Lib.ReflectedCrc

variable {w : ℕ} (poly : BitVec w)

def shift (c : BitVec w) : BitVec w := if c.getLsbD 0 then c >>> 1 ^^^ poly else c >>> 1

def ofBits (w : ℕ) (bits : List Bool) : BitVec w := (BitVec.ofBoolListLE bits).setWidth w

def step (c : BitVec w) (bit : Bool) : BitVec w := shift poly (c ^^^ ofBits w [bit])

def feed (c : BitVec w) (bits : List Bool) : BitVec w := bits.foldl (step poly) c

variable {poly} {a b c : BitVec w} {bits bits' : List Bool}

theorem getLsbD_ofBits (i : ℕ) :
    (ofBits w bits).getLsbD i = (decide (i < w) && bits.getD i false) := by
  rw [ofBits, BitVec.getLsbD_setWidth, BitVec.getLsbD_ofBoolListLE]

@[simp] theorem feed_nil : feed poly c [] = c := rfl

@[simp] theorem feed_cons (bit : Bool) :
    feed poly c (bit :: bits) = feed poly (step poly c bit) bits := rfl

theorem feed_append : feed poly c (bits ++ bits') = feed poly (feed poly c bits) bits' :=
  List.foldl_append

theorem shift_xor (a b : BitVec w) : shift poly (a ^^^ b) = shift poly a ^^^ shift poly b := by
  have hcancel (x y : BitVec w) : x ^^^ poly ^^^ (y ^^^ poly) = x ^^^ y := by
    rw [BitVec.xor_comm y, BitVec.xor_assoc, ← BitVec.xor_assoc poly, BitVec.xor_self,
      BitVec.zero_xor]
  unfold shift
  rw [BitVec.getLsbD_xor, BitVec.ushiftRight_xor_distrib]
  cases a.getLsbD 0 <;> cases b.getLsbD 0
  · rfl
  · exact BitVec.xor_assoc _ _ _
  · change a >>> 1 ^^^ b >>> 1 ^^^ poly = a >>> 1 ^^^ poly ^^^ b >>> 1
    rw [BitVec.xor_assoc, BitVec.xor_comm (b >>> 1), BitVec.xor_assoc]
  · exact (hcancel _ _).symm

theorem iterate_shift_xor (n : ℕ) (a b : BitVec w) :
    (shift poly)^[n] (a ^^^ b) = (shift poly)^[n] a ^^^ (shift poly)^[n] b := by
  induction n generalizing a b with
  | zero => rfl
  | succ n ih => rw [Function.iterate_succ_apply, shift_xor, ih]; rfl

theorem iterate_shift_of_clear {n : ℕ} (h : ∀ i < n, c.getLsbD i = false) :
    (shift poly)^[n] c = c >>> n := by
  induction n generalizing c with
  | zero => exact (BitVec.ushiftRight_zero c).symm
  | succ n ih =>
    have hshift : shift poly c = c >>> 1 := by
      rw [shift, h 0 n.succ_pos, if_neg Bool.false_ne_true]
    have hclear : ∀ i < n, (c >>> 1).getLsbD i = false := by
      intro i hi
      rw [BitVec.getLsbD_ushiftRight]
      exact h (1 + i) (by omega)
    rw [Function.iterate_succ_apply, hshift, ih hclear, Nat.add_comm n, BitVec.shiftRight_add]

theorem feed_eq (h : bits.length ≤ w) :
    feed poly c bits = (shift poly)^[bits.length] (c ^^^ ofBits w bits) := by
  induction bits generalizing c with
  | nil =>
    have hzero : ofBits w [] = 0#w := by
      apply BitVec.eq_of_getLsbD_eq
      intro i hi
      rw [getLsbD_ofBits]
      simp
    rw [hzero, BitVec.xor_zero]
    rfl
  | cons bit bits ih =>
    rw [List.length_cons] at h
    -- the later bits wait above the first, and come down with its shift
    have hsplit : ofBits w (bit :: bits) = ofBits w [bit] ^^^ ofBits w bits <<< 1 := by
      apply BitVec.eq_of_getLsbD_eq
      intro i hi
      rw [BitVec.getLsbD_xor, BitVec.getLsbD_shiftLeft]
      simp only [getLsbD_ofBits]
      cases i with
      | zero => simp [hi]
      | succ i =>
        have hi' : i < w := by omega
        simp [hi, hi']
    have hdown : shift poly (ofBits w bits <<< 1) = ofBits w bits := by
      have hclear : (ofBits w bits <<< 1).getLsbD 0 = false := by
        rw [BitVec.getLsbD_shiftLeft]
        simp
      rw [shift, hclear, if_neg Bool.false_ne_true]
      apply BitVec.eq_of_getLsbD_eq
      intro i hi
      rw [BitVec.getLsbD_ushiftRight, BitVec.getLsbD_shiftLeft]
      simp only [getLsbD_ofBits]
      by_cases htop : 1 + i < w
      · simp [htop, hi]
      · have hout : bits.length ≤ i := by omega
        simp [htop, List.getElem?_eq_none hout]
    rw [feed_cons, ih (by omega), List.length_cons, Function.iterate_succ_apply, hsplit,
      ← BitVec.xor_assoc, shift_xor, hdown]
    rfl

theorem shift_injective (hpoly : poly.msb = true) : Function.Injective (shift poly) := by
  have hzero {x : BitVec w} (hx : shift poly x = 0#w) : x = 0#w := by
    unfold shift at hx
    split_ifs at hx with hlow
    · -- the top bit of the polynomial is left
      have hmsb := congrArg BitVec.msb hx
      rw [BitVec.msb_xor, BitVec.msb_ushiftRight, hpoly, BitVec.msb_zero] at hmsb
      simp at hmsb
    · apply BitVec.eq_of_getLsbD_eq
      intro i hi
      rw [BitVec.getLsbD_zero]
      cases i with
      | zero => simpa using hlow
      | succ i =>
        have hbit := congrArg (BitVec.getLsbD · i) hx
        simpa [BitVec.getLsbD_ushiftRight, Nat.add_comm 1 i] using hbit
  intro a b hab
  apply BitVec.xor_eq_zero_iff.mp
  apply hzero
  rw [shift_xor, hab, BitVec.xor_self]

theorem feed_injective (hpoly : poly.msb = true) (bits : List Bool) :
    Function.Injective fun c => feed poly c bits := by
  induction bits with
  | nil => exact fun _ _ h => h
  | cons bit bits ih =>
    intro a b hab
    exact (BitVec.xor_left_inj _).mp (shift_injective hpoly (ih hab))

theorem eq_of_feed_eq (hpoly : poly.msb = true) (hlen : bits.length = bits'.length)
    (hw : bits.length ≤ w) (h : feed poly c bits = feed poly c bits') : bits = bits' := by
  rw [feed_eq hw, feed_eq (hlen ▸ hw), hlen] at h
  have hof := (BitVec.xor_right_inj c).mp ((shift_injective hpoly).iterate _ h)
  apply List.ext_getElem hlen
  intro i hi hi'
  have hbit : (ofBits w bits).getLsbD i = (ofBits w bits').getLsbD i := by rw [hof]
  rw [getLsbD_ofBits, getLsbD_ofBits] at hbit
  simpa [Nat.lt_of_lt_of_le hi hw, hi, hi'] using hbit

theorem feed_burst (hpoly : poly.msb = true) (before after : List Bool)
    (hlen : bits.length = bits'.length) (hw : bits.length ≤ w)
    (h : feed poly c (before ++ bits ++ after) = feed poly c (before ++ bits' ++ after)) :
    bits = bits' := by
  rw [feed_append, feed_append, feed_append, feed_append] at h
  exact eq_of_feed_eq hpoly hlen hw (feed_injective hpoly after h)

end Lib.ReflectedCrc
