import Mathlib.Logic.Function.Basic
import MemInfo.Lib.Window

/-! # Memory that is handed out in blocks

The live blocks of an allocator, by their addresses, and the memory they lie in. A block keeps
its contents until it is released, whatever happens to the others.
-/

namespace Lib

variable {τ α : Type*}

/-- Who issued a block, the size that was asked for and the size that can be used. -/
structure Block (τ : Type*) where
  owner : τ
  size : ℕ
  usable : ℕ
  deriving DecidableEq, Repr

def Block.span (b : Block τ) : ℕ := max 1 b.usable

abbrev Blocks (τ : Type*) := ℕ → Option (Block τ)

namespace Blocks

structure WellFormed (B : Blocks τ) : Prop where
  null : B 0 = none
  size_le : ∀ p b, B p = some b → b.size ≤ b.usable
  apart : ∀ p b q c, B p = some b → B q = some c → p ≠ q → p + b.span ≤ q ∨ q + c.span ≤ p

def Keeps (B : Blocks τ) (m m' : ℕ → α) : Prop :=
  ∀ p b, B p = some b → ∀ i < b.usable, m' (p + i) = m (p + i)

variable {B : Blocks τ} {m m' m'' : ℕ → α} {p q : ℕ} {b : Block τ}

theorem Keeps.refl : B.Keeps m m := fun _ _ _ _ _ => rfl

theorem Keeps.trans (h : B.Keeps m m') (h' : B.Keeps m' m'') : B.Keeps m m'' :=
  fun p b hp i hi => (h' p b hp i hi).trans (h p b hp i hi)

theorem Keeps.mono {B' : Blocks τ} (h : B.Keeps m m') (hB : ∀ q b, B' q = some b → B q = some b) :
    B'.Keeps m m' := fun q b hq => h q b (hB q b hq)

theorem of_release {c : Block τ} (h : Function.update B p none q = some c) :
    q ≠ p ∧ B q = some c := by
  by_cases hq : q = p
  · subst hq
    simp at h
  · rw [Function.update_of_ne hq] at h
    exact ⟨hq, h⟩

theorem WellFormed.keeps_blit (h : B.WellFormed) (hp : B p = some b) {xs : List α}
    (hlen : xs.length ≤ b.usable) :
    Keeps (Function.update B p none) m (blit m p xs) := by
  intro q c hq i hi
  obtain ⟨hne, hc⟩ := of_release hq
  have hb : b.usable ≤ b.span := Nat.le_max_right ..
  have hc' : c.usable ≤ c.span := Nat.le_max_right ..
  have := h.apart q c p b hc hp hne
  exact blit_outside (by omega)

end Blocks

structure BlockHeap (τ α : Type*) where
  blocks : Blocks τ
  mem : ℕ → α

namespace BlockHeap

variable {h h₁ h₂ : BlockHeap τ α} {p q n : ℕ}

def Same (h h' : BlockHeap τ α) : Prop := h'.blocks = h.blocks ∧ h.blocks.Keeps h.mem h'.mem

def Issues (h : BlockHeap τ α) (p n : ℕ) (h' : BlockHeap τ α) : Prop :=
  p ≠ 0 ∧ h.blocks p = none ∧ h.blocks.Keeps h.mem h'.mem ∧
    ∃ b, b.size = n ∧ h'.blocks = Function.update h.blocks p (some b)

def Releases (h : BlockHeap τ α) (p : ℕ) (h' : BlockHeap τ α) : Prop :=
  h'.blocks = Function.update h.blocks p none ∧ h'.blocks.Keeps h.mem h'.mem

/-- A block is released and another one issued, with what was in it. -/
def Moves (h : BlockHeap τ α) (p q n : ℕ) (h' : BlockHeap τ α) : Prop :=
  ∃ old, h.blocks p = some old ∧
    Issues ⟨Function.update h.blocks p none, h.mem⟩ q n h' ∧
    ∀ i < min old.size n, h'.mem (q + i) = h.mem (p + i)

theorem Same.refl : Same h h := ⟨rfl, .refl⟩

theorem Same.trans (h₁₂ : Same h h₁) (h₂₃ : Same h₁ h₂) : Same h h₂ :=
  ⟨h₂₃.1.trans h₁₂.1, h₁₂.2.trans (h₁₂.1 ▸ h₂₃.2)⟩

theorem Same.issues (hs : Same h h₁) (hi : Issues h₁ p n h₂) : Issues h p n h₂ := by
  obtain ⟨hp, hnone, hkeep, hb⟩ := hi
  rw [hs.1] at hnone hkeep hb
  exact ⟨hp, hnone, hs.2.trans hkeep, hb⟩

theorem Releases.same (hr : Releases h p h₁) (hp : h.blocks p = none) : Same h h₁ := by
  obtain ⟨hblocks, hkeep⟩ := hr
  rw [Function.update_eq_self_iff.mpr hp.symm] at hblocks
  exact ⟨hblocks, hblocks ▸ hkeep⟩

theorem Issues.block (hi : Issues h p n h₁) : ∃ b, b.size = n ∧ h₁.blocks p = some b := by
  obtain ⟨-, -, -, b, hsize, hblocks⟩ := hi
  exact ⟨b, hsize, by rw [hblocks, Function.update_self]⟩

theorem Issues.others {b : Block τ} (hi : Issues h p n h₁) (hq : h.blocks q = some b) :
    q ≠ p ∧ h₁.blocks q = some b := by
  obtain ⟨-, hnone, -, b', -, hblocks⟩ := hi
  have hne : q ≠ p := by
    rintro rfl
    simp [hnone] at hq
  exact ⟨hne, by rw [hblocks, Function.update_of_ne hne, hq]⟩

theorem Issues.write (hi : Issues h p n h₁) (hwf : h₁.blocks.WellFormed) (xs : List α)
    (hlen : xs.length ≤ n) : Issues h p n ⟨h₁.blocks, blit h₁.mem p xs⟩ := by
  obtain ⟨hp, hnone, hkeep, b, hsize, hblocks⟩ := hi
  refine ⟨hp, hnone, hkeep.trans ?_, b, hsize, hblocks⟩
  have hb : h₁.blocks p = some b := by rw [hblocks, Function.update_self]
  have hle := hwf.size_le p b hb
  refine (hwf.keeps_blit hb (by omega)).mono fun q c hq => ?_
  have hne : q ≠ p := by
    rintro rfl
    simp [hnone] at hq
  rw [Function.update_of_ne hne, hblocks, Function.update_of_ne hne, hq]

theorem Same.moves (hwf : h.blocks.WellFormed) (hs : Same h h₁) (hm : Moves h₁ p q n h₂) :
    Moves h p q n h₂ := by
  obtain ⟨hblocks, hkeep⟩ := hs
  obtain ⟨old, hp, hissue, hcopy⟩ := hm
  rw [hblocks] at hp hissue
  have hrest : Same ⟨Function.update h.blocks p none, h.mem⟩
      ⟨Function.update h.blocks p none, h₁.mem⟩ :=
    ⟨rfl, hkeep.mono fun r c hr => (Blocks.of_release hr).2⟩
  refine ⟨old, hp, hrest.issues hissue, fun i hi => ?_⟩
  have hle := hwf.size_le p old hp
  exact (hcopy i hi).trans (hkeep p old hp i (by omega))

/-- Moving a block by hand: a new one is issued, the contents are copied and the old one is
released. -/
theorem Issues.moves {b : Block τ} (hi : Issues h q n h₁) (hwf : h₁.blocks.WellFormed)
    (hp : h.blocks p = some b) {k : ℕ} (hk : k ≤ n) (hmin : min b.size n ≤ k) (hb : k ≤ b.usable)
    (hr : Releases ⟨h₁.blocks, blit h₁.mem q (window h₁.mem p k)⟩ p h₂) : Moves h p q n h₂ := by
  obtain ⟨hq, hnone, hkeep, b', hsize, hblocks⟩ := hi.write hwf (window h₁.mem p k) (by simpa)
  obtain ⟨hblocks₂, hkeep₂⟩ := hr
  dsimp only at hkeep hblocks hblocks₂ hkeep₂
  have hne : q ≠ p := by
    rintro rfl
    simp [hp] at hnone
  have hq₂ : h₂.blocks q = some b' := by
    rw [hblocks₂, Function.update_of_ne hne, hblocks, Function.update_self]
  have hq₁ : h₁.blocks q = some b' := by
    rw [hblocks, Function.update_self]
  have husable := hwf.size_le q b' hq₁
  refine ⟨b, hp, ⟨hq, ?_, ?_, b', hsize, ?_⟩, fun i hi' => ?_⟩
  · exact (Function.update_of_ne hne ..).trans hnone
  · refine (hkeep.mono fun r c hr => (Blocks.of_release hr).2).trans
      (hkeep₂.mono fun r c hr => ?_)
    obtain ⟨hrp, hr⟩ := Blocks.of_release hr
    have hrq : r ≠ q := by
      rintro rfl
      simp [hnone] at hr
    rw [hblocks₂, Function.update_of_ne hrp, hblocks, Function.update_of_ne hrq, hr]
  · rw [hblocks₂, hblocks, Function.update_comm hne]
  · have hik : i < (window h₁.mem p k).length := by
      rw [length_window]
      omega
    rw [hkeep₂ q b' hq₂ i (by omega), blit_inside hik, getElem_window]
    exact hi.2.2.1 p b hp i (by omega)

end BlockHeap

end Lib
