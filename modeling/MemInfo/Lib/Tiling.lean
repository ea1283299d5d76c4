import Mathlib.Data.Set.Insert
import Mathlib.Order.Lattice.Nat
import MemInfo.Lib.OrdMap

/-! # Tilings of an interval

Sets of non-empty tagged intervals that cover an interval of natural numbers and do
not overlap. A tile may be cut, two neighbours may be joined, and a tag may change.
-/

namespace Lib

/-- The interval `[start, start + len)` with a tag. -/
@[ext] structure Tile (τ : Type*) where
  tag : τ
  start : ℕ
  len : ℕ

/-- The tile on `[start, start + len)`, or none if that is empty. -/
def Tile.span {τ : Type*} (t : τ) (start len : ℕ) : Set (Tile τ) :=
  {b | 0 < len ∧ b = ⟨t, start, len⟩}

theorem Tile.span_pos {τ : Type*} (t : τ) (start : ℕ) {len : ℕ} (h : 0 < len) :
    Tile.span t start len = {⟨t, start, len⟩} := by
  ext b
  simp [Tile.span, h]

def OrdMap.tiles {τ : Type*} (t : τ) (m : OrdMap ℕ ℕ) : Set (Tile τ) :=
  {b | b.tag = t ∧ (b.start, b.len) ∈ m.entries}

variable {τ : Type*} {lo hi p q : ℕ} {b c : Tile τ} {B P Q R : Set (Tile τ)}

/-- The tiles of `B` cover `[lo, hi)` exactly, without overlap. -/
structure Tiling (lo hi : ℕ) (B : Set (Tile τ)) : Prop where
  pos : ∀ b ∈ B, 0 < b.len
  lower : ∀ b ∈ B, lo ≤ b.start
  upper : ∀ b ∈ B, b.start + b.len ≤ hi
  disjoint : ∀ b ∈ B, ∀ c ∈ B, b ≠ c → b.start + b.len ≤ c.start ∨ c.start + c.len ≤ b.start
  cover : ∀ x, lo ≤ x → x < hi → ∃ b ∈ B, b.start ≤ x ∧ x < b.start + b.len

namespace Tiling

theorem span (t : τ) (lo n : ℕ) : Tiling lo (lo + n) (Tile.span t lo n) := by
  refine ⟨?_, ?_, ?_, ?_, fun x h h' => ⟨_, ⟨by omega, rfl⟩, h, h'⟩⟩
  · rintro b ⟨hn, rfl⟩
    exact hn
  · rintro b ⟨-, rfl⟩
    exact le_rfl
  · rintro b ⟨-, rfl⟩
    exact le_rfl
  · rintro b ⟨-, rfl⟩ c ⟨-, rfl⟩ hne
    exact absurd rfl hne

theorem append {mid : ℕ} (h₁ : Tiling lo mid P) (h₂ : Tiling mid hi Q) (hl : lo ≤ mid)
    (hr : mid ≤ hi) : Tiling lo hi (P ∪ Q) := by
  refine ⟨?_, ?_, ?_, ?_, ?_⟩
  · rintro b (hb | hb)
    · exact h₁.pos b hb
    · exact h₂.pos b hb
  · rintro b (hb | hb)
    · exact h₁.lower b hb
    · exact hl.trans (h₂.lower b hb)
  · rintro b (hb | hb)
    · exact (h₁.upper b hb).trans hr
    · exact h₂.upper b hb
  · rintro b (hb | hb) c (hc | hc) hne
    · exact h₁.disjoint b hb c hc hne
    · exact .inl ((h₁.upper b hb).trans (h₂.lower c hc))
    · exact .inr ((h₁.upper c hc).trans (h₂.lower b hb))
    · exact h₂.disjoint b hb c hc hne
  · intro x hx hx'
    rcases Nat.lt_or_ge x mid with hm | hm
    · obtain ⟨b, hb, hc⟩ := h₁.cover x hx hm
      exact ⟨b, .inl hb, hc⟩
    · obtain ⟨b, hb, hc⟩ := h₂.cover x hm hx'
      exact ⟨b, .inr hb, hc⟩

theorem eq_of_mem (h : Tiling lo hi B) (hb : b ∈ B) (hc : c ∈ B) {x : ℕ}
    (hxb : b.start ≤ x ∧ x < b.start + b.len) (hxc : c.start ≤ x ∧ x < c.start + c.len) :
    b = c := by
  by_contra hne
  have := h.disjoint b hb c hc hne
  omega

theorem replace (h : Tiling lo hi (P ∪ R)) (hPR : ∀ b ∈ P, b ∉ R) (hP : Tiling p q P)
    (hQ : Tiling p q Q) : Tiling lo hi (Q ∪ R) := by
  -- a tile of `Q` lies where the tiles of `P` were, so it meets no tile of `R`
  have hinside : ∀ b ∈ Q, ∀ x, b.start ≤ x → x < b.start + b.len →
      ∃ c ∈ P, c.start ≤ x ∧ x < c.start + c.len := by
    intro b hb x hx hx'
    have hlo := hQ.lower b hb
    have hup := hQ.upper b hb
    exact hP.cover x (by omega) (by omega)
  have hapart : ∀ b ∈ Q, ∀ c ∈ R, b.start + b.len ≤ c.start ∨ c.start + c.len ≤ b.start := by
    intro b hb c hc
    by_contra hover
    have hbpos := hQ.pos b hb
    have hcpos := h.pos c (.inr hc)
    obtain ⟨d, hd, hd₁, hd₂⟩ := hinside b hb (max b.start c.start) (by omega) (by omega)
    have : d = c := h.eq_of_mem (.inl hd) (.inr hc) ⟨hd₁, hd₂⟩ (by omega)
    exact hPR d hd (this ▸ hc)
  refine ⟨?_, ?_, ?_, ?_, ?_⟩
  · rintro b (hb | hb)
    · exact hQ.pos b hb
    · exact h.pos b (.inr hb)
  · rintro b (hb | hb)
    · have hpos := hQ.pos b hb
      obtain ⟨d, hd, hd₁, -⟩ := hinside b hb b.start le_rfl (by omega)
      exact (h.lower d (.inl hd)).trans hd₁
    · exact h.lower b (.inr hb)
  · rintro b (hb | hb)
    · have hpos := hQ.pos b hb
      obtain ⟨d, hd, -, hd₂⟩ := hinside b hb (b.start + b.len - 1) (by omega) (by omega)
      have := h.upper d (.inl hd)
      omega
    · exact h.upper b (.inr hb)
  · rintro b (hb | hb) c (hc | hc) hne
    · exact hQ.disjoint b hb c hc hne
    · exact hapart b hb c hc
    · exact (hapart c hc b hb).symm
    · exact h.disjoint b (.inr hb) c (.inr hc) hne
  · intro x hx hx'
    obtain ⟨b, hb | hb, hb₁, hb₂⟩ := h.cover x hx hx'
    · have hlo := hP.lower b hb
      have hup := hP.upper b hb
      obtain ⟨c, hc, hcx⟩ := hQ.cover x (by omega) (by omega)
      exact ⟨c, .inl hc, hcx⟩
    · exact ⟨b, .inr hb, hb₁, hb₂⟩

theorem singleton (h : Tiling lo hi B) (hb : b ∈ B) : Tiling b.start (b.start + b.len) {b} := by
  rw [← Tile.span_pos b.tag b.start (h.pos b hb)]
  exact span _ _ _

theorem replace_one (h : Tiling lo hi (insert b R)) (hb : b ∉ R)
    (hQ : Tiling b.start (b.start + b.len) Q) : Tiling lo hi (Q ∪ R) := by
  have hP := h.singleton (.inl rfl)
  rw [Set.insert_eq] at h
  exact h.replace (by rintro _ rfl; exact hb) hP hQ

theorem join (h : Tiling lo hi (insert b (insert c R))) (hb : b ∉ R) (hc : c ∉ R)
    (hadj : b.start + b.len = c.start) (t : τ) :
    Tiling lo hi (insert ⟨t, b.start, b.len + c.len⟩ R) := by
  have hb' := h.singleton (.inl rfl)
  have hc' := h.singleton (.inr (.inl rfl))
  rw [← hadj] at hc'
  have hP := hb'.append hc' (by omega) (by omega)
  have hpos := h.pos b (.inl rfl)
  have hQ := span t b.start (b.len + c.len)
  rw [Tile.span_pos t b.start (by omega), ← Nat.add_assoc] at hQ
  rw [Set.insert_eq, Set.insert_eq, ← Set.union_assoc] at h
  rw [Set.insert_eq]
  refine h.replace ?_ hP hQ
  rintro _ (rfl | rfl)
  · exact hb
  · exact hc

end Tiling

namespace OrdMap

variable {m : OrdMap ℕ ℕ} {k n : ℕ}

theorem tiles_erase (t : τ) (h : (k, n) ∈ m.entries) :
    m.tiles t = insert ⟨t, k, n⟩ ((m.erase k).tiles t) := by
  ext ⟨t', s, l⟩
  simp only [tiles, Set.mem_ofPred_eq, Set.mem_insert_iff, Tile.mk.injEq, mem_erase]
  constructor
  · rintro ⟨rfl, hm⟩
    by_cases hs : s = k
    · subst hs
      exact .inl ⟨rfl, rfl, mem_unique hm h⟩
    · exact .inr ⟨rfl, hm, hs⟩
  · rintro (⟨rfl, rfl, rfl⟩ | ⟨rfl, hm, -⟩)
    · exact ⟨rfl, h⟩
    · exact ⟨rfl, hm⟩

theorem tiles_emplace (t : τ) (h : m.find k = none) (n : ℕ) :
    (m.emplace k n).tiles t = insert ⟨t, k, n⟩ (m.tiles t) := by
  ext ⟨t', s, l⟩
  simp only [tiles, Set.mem_ofPred_eq, Set.mem_insert_iff, Tile.mk.injEq, mem_emplace h,
    Prod.mk.injEq]
  constructor
  · rintro ⟨rfl, ⟨rfl, rfl⟩ | hm⟩
    · exact .inl ⟨rfl, rfl, rfl⟩
    · exact .inr ⟨rfl, hm⟩
  · rintro (⟨rfl, rfl, rfl⟩ | ⟨rfl, hm⟩)
    · exact ⟨rfl, .inl ⟨rfl, rfl⟩⟩
    · exact ⟨rfl, .inr hm⟩

end OrdMap

end Lib
