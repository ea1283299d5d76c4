import MemInfo.Lib.Run
import MemInfo.Lib.Tiling
import MemInfo.Memclient.HeapArena

/-! # The blocks of the heap arena tile its range

Free and live blocks cover the managed range without overlap, no two free blocks are
neighbours, and the byte counts add up, whatever calls are made.
-/

namespace MemInfo

open Lib

/-- The state of a block; `released` is a live block on its way to the free blocks. -/
inductive BlockState where
  | free
  | live
  | released
  deriving DecidableEq, Repr

namespace HeapArena

/-- The bytes under management: none at all under a null base. -/
def extent (a : HeapArena) : ℕ := if a.base = 0 then 0 else a.size

def tiles (a : HeapArena) : Set (Tile BlockState) :=
  a.freeBlocks.tiles .free ∪ a.liveBlocks.tiles .live

def Apart (free : OrdMap ℕ ℕ) : Prop :=
  ∀ e ∈ free.entries, ∀ e' ∈ free.entries, e.1 + e.2 ≠ e'.1

structure Inv (a : HeapArena) : Prop where
  fits : a.base + a.size < 2 ^ 64
  tiling : Tiling 0 a.extent a.tiles
  apart : Apart a.freeBlocks
  total : a.freeBlocks.total + a.liveBlocks.total = a.extent
  inUse : a.inUseBytes = a.liveBlocks.total

variable {a : HeapArena} {free live : OrdMap ℕ ℕ} {n s len : ℕ}

theorem extent_le (a : HeapArena) : a.extent ≤ a.size := by
  unfold extent
  split_ifs <;> omega

theorem extent_new (base size : ℕ) :
    (HeapArena.new base size).extent = if base = 0 then 0 else size := rfl

theorem Inv.new {base size : ℕ} (h : base + size < 2 ^ 64) : Inv (HeapArena.new base size) := by
  have hfind : (OrdMap.empty : OrdMap ℕ ℕ).find 0 = none := rfl
  have hempty (t : BlockState) : (OrdMap.empty : OrdMap ℕ ℕ).tiles t = ∅ := by
    ext b
    simp [OrdMap.tiles, OrdMap.empty]
  by_cases hb : base ≠ 0 ∧ size ≠ 0
  · have hspan := Tiling.span BlockState.free 0 size
    rw [Tile.span_pos _ _ (Nat.pos_of_ne_zero hb.2), Nat.zero_add] at hspan
    refine ⟨h, ?_, ?_, ?_, rfl⟩
    · simpa [HeapArena.new, hb, extent, tiles, OrdMap.tiles_emplace _ hfind, hempty] using hspan
    · simp only [HeapArena.new, hb, ne_eq, not_false_eq_true, and_self, if_true]
      intro e he e' he'
      rw [OrdMap.mem_emplace hfind] at he he'
      obtain rfl : e = (0, size) := he.resolve_right (by simp [OrdMap.empty])
      obtain rfl : e' = (0, size) := he'.resolve_right (by simp [OrdMap.empty])
      simpa using hb.2
    · simp [HeapArena.new, hb, OrdMap.total_emplace hfind, extent]
      rfl
  · have hz : (HeapArena.new base size).extent = 0 := by
      rw [extent_new]
      by_cases h₀ : base = 0
      · rw [if_pos h₀]
      · rw [if_neg h₀]
        simpa [h₀] using hb
    refine ⟨h, ?_, ?_, ?_, rfl⟩
    · rw [hz]
      simp only [HeapArena.new, hb, if_false, tiles, hempty, Set.union_self]
      simpa [Tile.span] using Tiling.span BlockState.free 0 0
    · simp only [HeapArena.new, hb, if_false]
      intro e he
      simp [OrdMap.empty] at he
    · rw [hz]
      simp only [HeapArena.new, hb, if_false]
      rfl

section Allocate

def carved (a : HeapArena) (bytes start len lead : ℕ) : HeapArena :=
  { a with
    freeBlocks := addFree (addFree (a.freeBlocks.erase start) start lead) (start + lead + bytes)
      (len - lead - bytes)
    liveBlocks := a.liveBlocks.emplace (start + lead) bytes
    inUseBytes := a.inUseBytes + bytes }

theorem tiles_addFree {k : ℕ} (h : 0 < n → free.find k = none) :
    (addFree free k n).tiles BlockState.free = Tile.span .free k n ∪ free.tiles .free := by
  unfold addFree
  split_ifs with hn
  · rw [OrdMap.tiles_emplace _ (h hn), Tile.span_pos _ _ hn, Set.insert_eq]
  · have : Tile.span BlockState.free k n = ∅ := by
      ext b
      simp [Tile.span, Nat.eq_zero_of_not_pos hn]
    rw [this, Set.empty_union]

theorem total_addFree {k : ℕ} (h : 0 < n → free.find k = none) :
    (addFree free k n).total = n + free.total := by
  unfold addFree
  split_ifs with hn
  · exact OrdMap.total_emplace (h hn)
  · omega

theorem mem_addFree {k : ℕ} (h : 0 < n → free.find k = none) {e : ℕ × ℕ}
    (he : e ∈ (addFree free k n).entries) : (0 < n ∧ e = (k, n)) ∨ e ∈ free.entries := by
  unfold addFree at he
  split_ifs at he with hn
  · rw [OrdMap.mem_emplace (h hn)] at he
    exact he.imp_left fun he => ⟨hn, he⟩
  · exact .inr he

variable {bytes start lead : ℕ}

theorem Inv.free_disjoint (hi : Inv a) (hf : (start, len) ∈ a.freeBlocks.entries) {e : ℕ × ℕ}
    (he : e ∈ a.freeBlocks.entries ∧ e.1 ≠ start ∨ e ∈ a.liveBlocks.entries) :
    0 < e.2 ∧ (e.1 + e.2 ≤ start ∨ start + len ≤ e.1) := by
  have hb : (⟨.free, start, len⟩ : Tile BlockState) ∈ a.tiles := .inl ⟨rfl, hf⟩
  rcases he with ⟨he, hne⟩ | he
  · have hc : (⟨.free, e.1, e.2⟩ : Tile BlockState) ∈ a.tiles := .inl ⟨rfl, he⟩
    refine ⟨hi.tiling.pos _ hc, hi.tiling.disjoint _ hc _ hb ?_⟩
    intro heq
    exact hne (Tile.mk.inj heq).2.1
  · have hc : (⟨.live, e.1, e.2⟩ : Tile BlockState) ∈ a.tiles := .inr ⟨rfl, he⟩
    exact ⟨hi.tiling.pos _ hc, hi.tiling.disjoint _ hc _ hb (by simp)⟩

theorem Inv.free_upper (hi : Inv a) (hf : (start, len) ∈ a.freeBlocks.entries) :
    start + len ≤ a.extent :=
  hi.tiling.upper ⟨.free, start, len⟩ (.inl ⟨rfl, hf⟩)

section Carving

variable (hi : Inv a) (hf : (start, len) ∈ a.freeBlocks.entries) (hb : 0 < bytes)
  (hlen : lead + bytes ≤ len)

include hi hf hb hlen

theorem Inv.find_trail (ht : 0 < len - lead - bytes) :
    (addFree (a.freeBlocks.erase start) start lead).find (start + lead + bytes) = none := by
  rw [OrdMap.find_eq_none_iff]
  intro v hv
  rcases mem_addFree (fun _ => OrdMap.find_erase_self) hv with ⟨-, he⟩ | he
  · have := (Prod.mk.inj he).1
    omega
  · obtain ⟨hpos, hd⟩ := hi.free_disjoint hf (.inl (OrdMap.mem_erase.mp he))
    simp only at hpos hd
    omega

theorem Inv.find_live : a.liveBlocks.find (start + lead) = none := by
  rw [OrdMap.find_eq_none_iff]
  intro v hv
  obtain ⟨hpos, hd⟩ := hi.free_disjoint hf (.inr hv)
  simp only at hpos hd
  omega

theorem Inv.carved_tiling : Tiling 0 a.extent (a.carved bytes start len lead).tiles := by
  have hQ := ((Tiling.span BlockState.free start lead).append
    (Tiling.span .live (start + lead) bytes) (by omega) (by omega)).append
    (Tiling.span .free (start + lead + bytes) (len - lead - bytes)) (by omega) (by omega)
  rw [show start + lead + bytes + (len - lead - bytes) = start + len by omega] at hQ
  have hnot : (⟨.free, start, len⟩ : Tile BlockState) ∉
      (a.freeBlocks.erase start).tiles .free ∪ a.liveBlocks.tiles .live := by
    rintro (⟨-, hm⟩ | ⟨ht, -⟩)
    · exact (OrdMap.mem_erase.mp hm).2 rfl
    · cases ht
  have h := hi.tiling
  rw [tiles, OrdMap.tiles_erase _ hf, Set.insert_union] at h
  have h' := h.replace_one hnot hQ
  simp only [tiles, carved]
  rw [tiles_addFree (hi.find_trail hf hb hlen), tiles_addFree fun _ => OrdMap.find_erase_self,
    OrdMap.tiles_emplace _ (hi.find_live hf hb hlen)]
  rw [Tile.span_pos BlockState.live _ hb] at h'
  convert h' using 1
  ext b
  simp only [Set.mem_union, Set.mem_insert_iff, Set.mem_singleton_iff]
  tauto

theorem Inv.carved_total :
    (a.carved bytes start len lead).freeBlocks.total +
      (a.carved bytes start len lead).liveBlocks.total = a.extent := by
  have herase := OrdMap.total_erase hf
  have htotal := hi.total
  simp only [carved]
  rw [total_addFree (hi.find_trail hf hb hlen), total_addFree fun _ => OrdMap.find_erase_self,
    OrdMap.total_emplace (hi.find_live hf hb hlen)]
  omega

theorem Inv.carved_apart : Apart (a.carved bytes start len lead).freeBlocks := by
  -- a free block of the carved arena is the lead, the trail, or one of the others
  have hcases : ∀ e ∈ (a.carved bytes start len lead).freeBlocks.entries,
      (0 < lead ∧ e = (start, lead)) ∨
      (0 < len - lead - bytes ∧ e = (start + lead + bytes, len - lead - bytes)) ∨
      (e ∈ a.freeBlocks.entries ∧ 0 < e.2 ∧ (e.1 + e.2 < start ∨ start + len < e.1)) := by
    intro e he
    rcases mem_addFree (hi.find_trail hf hb hlen) he with he | he
    · exact .inr (.inl he)
    rcases mem_addFree (fun _ => OrdMap.find_erase_self) he with he | he
    · exact .inl he
    obtain ⟨hm, hne⟩ := OrdMap.mem_erase.mp he
    obtain ⟨hpos, hd⟩ := hi.free_disjoint hf (.inl ⟨hm, hne⟩)
    have h₁ := hi.apart _ hm _ hf
    have h₂ := hi.apart _ hf _ hm
    exact .inr (.inr ⟨hm, hpos, by omega⟩)
  intro e he e' he'
  obtain ⟨h, rfl⟩ | ⟨h, rfl⟩ | ⟨hm, h⟩ := hcases e he <;>
    obtain ⟨h', rfl⟩ | ⟨h', rfl⟩ | ⟨hm', h'⟩ := hcases e' he'
  case inr.inr.inr.inr => exact hi.apart _ hm _ hm'
  all_goals
    simp only
    omega

theorem Inv.carved : Inv (a.carved bytes start len lead) :=
  ⟨hi.fits, hi.carved_tiling hf hb hlen, hi.carved_apart hf hb hlen, hi.carved_total hf hb hlen, by
    simp only [HeapArena.carved]
    rw [hi.inUse, OrdMap.total_emplace (hi.find_live hf hb hlen), Nat.add_comm]⟩

end Carving

theorem Inv.firstFit_cases (hi : Inv a) (bytes alignment : ℕ) {l : List (ℕ × ℕ)}
    (hl : l ⊆ a.freeBlocks.entries) :
    a.firstFit bytes alignment l = (0, a) ∨
    ∃ start len lead, (start, len) ∈ a.freeBlocks.entries ∧ lead + bytes ≤ len ∧
      a.base + (start + lead) = alignUp (a.base + start) alignment ∧
      a.firstFit bytes alignment l = (a.base + (start + lead), a.carved bytes start len lead) := by
  induction l with
  | nil => exact .inl rfl
  | cons e l ih =>
    obtain ⟨start, len⟩ := e
    have hf : (start, len) ∈ a.freeBlocks.entries := hl (by simp)
    have hup := hi.free_upper hf
    have hsize := a.extent_le
    have hfits := hi.fits
    have hbytes : len ≤ a.freeBlocks.total := by
      have := OrdMap.total_erase hf
      omega
    have htotal := hi.total
    have hinuse := hi.inUse
    simp only [firstFit]
    split_ifs with hc
    · exact ih fun e he => hl (List.mem_cons_of_mem _ he)
    · rw [wrap_of_lt (show a.base + start < 2 ^ 64 by omega)] at hc ⊢
      have hX : alignUp (a.base + start) alignment < 2 ^ 64 :=
        Nat.lt_of_le_of_lt Nat.and_le_left (wrap_lt _)
      obtain ⟨X, hXdef⟩ : ∃ X, alignUp (a.base + start) alignment = X := ⟨_, rfl⟩
      rw [hXdef] at hX hc ⊢
      -- in 64 bits `aligned` is `start + lead`, since that stays inside the block
      obtain ⟨lead, hlead⟩ : ∃ lead, wrapSub (wrapSub X a.base) start = lead := ⟨_, rfl⟩
      rw [hlead] at hc ⊢
      rw [not_or, Nat.not_lt, Nat.not_lt] at hc
      have haligned : wrapSub X a.base = start + lead := by
        unfold wrapSub wrap at hlead ⊢
        omega
      have hX' : a.base + (start + lead) = X := by
        unfold wrapSub wrap at haligned
        omega
      refine .inr ⟨start, len, lead, hf, by omega, hX'.trans hXdef.symm, ?_⟩
      rw [haligned, wrap_of_lt (show a.base + (start + lead) < 2 ^ 64 by omega),
        wrap_of_lt (show start + lead + bytes < 2 ^ 64 by omega),
        wrap_of_lt (show a.inUseBytes + bytes < 2 ^ 64 by omega)]
      rfl

/-- An allocation fails and changes nothing, or it carves an aligned block. -/
theorem Inv.allocate_cases (hi : Inv a) (bytes alignment : ℕ) :
    a.allocate bytes alignment = (0, a) ∨
    ∃ start len lead, a.base ≠ 0 ∧ 0 < bytes ∧ alignment ≠ 0 ∧
      alignment &&& wrapSub alignment 1 = 0 ∧ (start, len) ∈ a.freeBlocks.entries ∧
      lead + bytes ≤ len ∧ a.base + (start + lead) = alignUp (a.base + start) alignment ∧
      a.allocate bytes alignment = (a.base + (start + lead), a.carved bytes start len lead) := by
  unfold allocate
  split_ifs with h₁ h₂
  · exact .inl rfl
  · exact .inl rfl
  · rw [not_or] at h₁
    rw [not_or, not_not] at h₂
    obtain h | ⟨start, len, lead, hf, hlen, hx, h⟩ :=
      hi.firstFit_cases bytes alignment (List.Subset.refl a.freeBlocks.entries)
    · exact .inl h
    · exact .inr ⟨start, len, lead, h₁.2, Nat.pos_of_ne_zero h₁.1, h₂.1, h₂.2, hf, hlen, hx, h⟩

theorem dvd_alignUp {alignment : ℕ} (value : ℕ) (hlt : alignment < 2 ^ 64) (h₀ : alignment ≠ 0)
    (hp : alignment &&& wrapSub alignment 1 = 0) : alignment ∣ alignUp value alignment := by
  have hmask : wrapSub alignment 1 = alignment - 1 := wrapSub_of_le (Nat.pos_of_ne_zero h₀) hlt
  rw [hmask] at hp
  obtain ⟨k, rfl⟩ := (Nat.and_sub_one_eq_zero_iff_isPowerOfTwo h₀).mp hp
  have hk : k ≤ 64 := (Nat.pow_lt_pow_iff_right (by decide)).mp hlt |>.le
  rw [alignUp, hmask, Nat.dvd_iff_mod_eq_zero, Nat.and_mod_two_pow]
  have hcomp : (sizeMax - (2 ^ k - 1)) % 2 ^ k = 0 := by
    have hd : 2 ^ k ∣ 2 ^ 64 := Nat.pow_dvd_pow 2 hk
    have : sizeMax - (2 ^ k - 1) = 2 ^ 64 - 2 ^ k := by
      have := Nat.two_pow_pos k
      unfold sizeMax
      omega
    rw [this]
    exact Nat.mod_eq_zero_of_dvd (Nat.dvd_sub hd (Nat.dvd_refl _))
  rw [hcomp, Nat.and_zero]

end Allocate

section Deallocate

variable {extent o : ℕ}

/-- The blocks while `[o, o + len)` is on its way to the free blocks. -/
structure Released (extent : ℕ) (free live : OrdMap ℕ ℕ) (o len : ℕ) : Prop where
  tiling : Tiling 0 extent
    (insert ⟨.released, o, len⟩ (free.tiles .free ∪ live.tiles BlockState.live))
  apart : Apart free
  total : free.total + live.total + len = extent
  extent_lt : extent < 2 ^ 64

theorem not_mem_released (o len : ℕ) :
    (⟨.released, o, len⟩ : Tile BlockState) ∉ free.tiles .free ∪ live.tiles .live := by
  rintro (⟨ht, -⟩ | ⟨ht, -⟩) <;> cases ht

theorem Apart.erase (h : Apart free) (k : ℕ) : Apart (free.erase k) :=
  fun e he e' he' => h e (OrdMap.mem_erase.mp he).1 e' (OrdMap.mem_erase.mp he').1

theorem not_mem_erase {k n : ℕ} :
    (⟨.free, k, n⟩ : Tile BlockState) ∉ (free.erase k).tiles .free ∪ live.tiles .live := by
  rintro (⟨-, hm⟩ | ⟨ht, -⟩)
  · exact (OrdMap.mem_erase.mp hm).2 rfl
  · cases ht

theorem Released.upper (hr : Released extent free live o len) : o + len ≤ extent :=
  hr.tiling.upper ⟨.released, o, len⟩ (.inl rfl)

theorem Released.free_disjoint (hr : Released extent free live o len) {e : ℕ × ℕ}
    (he : e ∈ free.entries) :
    0 < e.2 ∧ e.1 + e.2 ≤ extent ∧ (e.1 + e.2 ≤ o ∨ o + len ≤ e.1) := by
  have hb : (⟨.released, o, len⟩ : Tile BlockState) ∈
      insert ⟨.released, o, len⟩ (free.tiles .free ∪ live.tiles .live) := .inl rfl
  have hc : (⟨.free, e.1, e.2⟩ : Tile BlockState) ∈
      insert ⟨.released, o, len⟩ (free.tiles .free ∪ live.tiles .live) := .inr (.inl ⟨rfl, he⟩)
  exact ⟨hr.tiling.pos _ hc, hr.tiling.upper _ hc, hr.tiling.disjoint _ hc _ hb (by simp)⟩

theorem Released.mergeNext (hr : Released extent free live o len) :
    Released extent (mergeNext free o len).1 live o (mergeNext free o len).2 ∧
      ∀ e ∈ (mergeNext free o len).1.entries, e.1 ≠ o + (mergeNext free o len).2 := by
  have hlt := hr.extent_lt
  have hup := hr.upper
  simp only [HeapArena.mergeNext, wrap_of_lt (show o + len < 2 ^ 64 by omega)]
  cases hf : free.find (o + len) with
  | none => exact ⟨hr, fun e he heq => OrdMap.find_eq_none_iff.mp hf e.2 (heq ▸ he)⟩
  | some n =>
    have hm := OrdMap.find_eq_some_iff.mp hf
    have htotal := OrdMap.total_erase hm
    have hsum := hr.total
    simp only [wrap_of_lt (show len + n < 2 ^ 64 by omega)]
    refine ⟨⟨?_, hr.apart.erase _, by omega, hlt⟩, ?_⟩
    · have h := hr.tiling
      rw [OrdMap.tiles_erase _ hm, Set.insert_union] at h
      exact h.join (not_mem_released o len) not_mem_erase rfl .released
    · intro e he heq
      have := hr.apart _ hm _ (OrdMap.mem_erase.mp he).1
      omega

theorem Released.mergePrev (hr : Released extent free live o len)
    (hnext : ∀ e ∈ free.entries, e.1 ≠ o + len) :
    let r := mergePrev free o len
    Released extent r.1 live r.2.1 r.2.2 ∧ (∀ e ∈ r.1.entries, e.1 ≠ r.2.1 + r.2.2) ∧
      ∀ e ∈ r.1.entries, e.1 + e.2 ≠ r.2.1 := by
  have hlt := hr.extent_lt
  simp only [HeapArena.mergePrev]
  cases hf : free.before o with
  | none =>
    refine ⟨hr, hnext, fun e he (heq : e.1 + e.2 = o) => ?_⟩
    have := OrdMap.before_eq_none hf he
    have := (hr.free_disjoint he).1
    omega
  | some prev =>
    obtain ⟨hm, hlt'⟩ := OrdMap.mem_of_before hf
    have htotal := OrdMap.total_erase hm
    have hsum := hr.total
    obtain ⟨hpos, hup, -⟩ := hr.free_disjoint hm
    simp only [wrap_of_lt (show prev.1 + prev.2 < 2 ^ 64 by omega)]
    split_ifs with he
    · simp only [wrap_of_lt (show len + prev.2 < 2 ^ 64 by omega)]
      refine ⟨⟨?_, hr.apart.erase _, by omega, hlt⟩, ?_, ?_⟩
      · have h := hr.tiling
        rw [OrdMap.tiles_erase _ hm, Set.insert_union, Set.insert_comm] at h
        have h' := h.join not_mem_erase (not_mem_released o len) he .released
        rwa [Nat.add_comm prev.2 len] at h'
      · intro e he'
        have := hnext e (OrdMap.mem_erase.mp he').1
        omega
      · intro e he' heq
        exact hr.apart _ (OrdMap.mem_erase.mp he').1 _ hm heq
    · refine ⟨hr, hnext, fun e hm' (heq : e.1 + e.2 = o) => ?_⟩
      -- a block that ends at `o` is the last one before `o`
      obtain ⟨hpos', -, -⟩ := hr.free_disjoint hm'
      have hle := OrdMap.le_of_before hf hm' (by omega)
      have hd := hr.tiling.disjoint ⟨.free, e.1, e.2⟩ (.inr (.inl ⟨rfl, hm'⟩))
        ⟨.free, prev.1, prev.2⟩ (.inr (.inl ⟨rfl, hm⟩)) (by
          intro h
          obtain ⟨-, h₁, h₂⟩ := Tile.mk.inj h
          omega)
      simp only at hd
      omega

theorem Released.insertFree (hr : Released extent free live o len) :
    Tiling 0 extent ((insertFree free o len).tiles .free ∪ live.tiles BlockState.live) ∧
      Apart (insertFree free o len) ∧ (insertFree free o len).total + live.total = extent := by
  obtain ⟨hr₁, hnext⟩ := hr.mergeNext
  obtain ⟨hr₂, hnext, hprev⟩ := hr₁.mergePrev hnext
  simp only [HeapArena.insertFree]
  generalize HeapArena.mergePrev _ o _ = r at hr₂ hnext hprev ⊢
  have hpos := hr₂.tiling.pos ⟨.released, r.2.1, r.2.2⟩ (.inl rfl)
  simp only at hpos
  have hfind : r.1.find r.2.1 = none := by
    rw [OrdMap.find_eq_none_iff]
    intro v hv
    have := hr₂.free_disjoint hv
    simp only at this
    omega
  refine ⟨?_, ?_, ?_⟩
  · have h := hr₂.tiling.replace_one (not_mem_released _ _) (Tiling.span .free r.2.1 r.2.2)
    rw [Tile.span_pos _ _ hpos] at h
    rwa [OrdMap.tiles_emplace _ hfind, Set.insert_union, Set.insert_eq]
  · intro e he e' he'
    rw [OrdMap.mem_emplace hfind] at he he'
    rcases he with rfl | he <;> rcases he' with rfl | he'
    · simp only
      omega
    · exact (hnext e' he').symm
    · exact hprev e he
    · exact hr₂.apart e he e' he'
  · rw [OrdMap.total_emplace hfind]
    have := hr₂.total
    omega

theorem Inv.live_upper (hi : Inv a) {e : ℕ × ℕ} (he : e ∈ a.liveBlocks.entries) :
    0 < e.2 ∧ e.1 + e.2 ≤ a.extent :=
  have hb : (⟨.live, e.1, e.2⟩ : Tile BlockState) ∈ a.tiles := .inr ⟨rfl, he⟩
  ⟨hi.tiling.pos _ hb, hi.tiling.upper _ hb⟩

theorem Inv.base_ne_zero (hi : Inv a) {e : ℕ × ℕ} (he : e ∈ a.liveBlocks.entries) :
    a.base ≠ 0 := by
  intro h
  have := hi.live_upper he
  rw [extent, if_pos h] at this
  omega

theorem Inv.deallocate_cases (hi : Inv a) (ptr : ℕ) :
    (a.deallocate ptr = a ∧ ∀ e ∈ a.liveBlocks.entries, ptr ≠ a.base + e.1) ∨
    ∃ len, (ptr - a.base, len) ∈ a.liveBlocks.entries ∧ a.base ≤ ptr ∧
      a.deallocate ptr =
        { a with
          freeBlocks := insertFree a.freeBlocks (ptr - a.base) len
          liveBlocks := a.liveBlocks.erase (ptr - a.base)
          inUseBytes := a.inUseBytes - len } := by
  have hfits := hi.fits
  have hle := a.extent_le
  unfold deallocate
  split_ifs with h₁
  · refine .inl ⟨rfl, ?_⟩
    rintro e he rfl
    have hbase := hi.base_ne_zero he
    have hup := hi.live_upper he
    simp only [owns, wrap_of_lt hfits, decide_eq_true_eq] at h₁
    omega
  · rw [not_or, not_not] at h₁
    simp only [owns, decide_eq_true_eq, wrap_of_lt hfits] at h₁
    have hoff : wrapSub ptr a.base = ptr - a.base := wrapSub_of_le h₁.2.1 (by omega)
    simp only [hoff]
    cases hf : a.liveBlocks.find (ptr - a.base) with
    | none =>
      refine .inl ⟨rfl, ?_⟩
      rintro e he rfl
      rw [Nat.add_sub_cancel_left] at hf
      exact OrdMap.find_eq_none_iff.mp hf e.2 he
    | some len =>
      have hm := OrdMap.find_eq_some_iff.mp hf
      have htotal := OrdMap.total_erase hm
      have hsum := hi.total
      have hin := hi.inUse
      have hsub : wrapSub a.inUseBytes len = a.inUseBytes - len :=
        wrapSub_of_le (by omega) (by omega)
      exact .inr ⟨len, hm, h₁.2.1, by simp only [hsub]⟩

theorem Inv.deallocate (hi : Inv a) (ptr : ℕ) : Inv (a.deallocate ptr) := by
  obtain ⟨h, -⟩ | ⟨len, hm, -, h⟩ := hi.deallocate_cases ptr
  · rwa [h]
  · rw [h]
    have htotal := OrdMap.total_erase hm
    have hsum := hi.total
    have hin := hi.inUse
    have hle := a.extent_le
    have hnot : (⟨.live, ptr - a.base, len⟩ : Tile BlockState) ∉
        a.freeBlocks.tiles .free ∪ (a.liveBlocks.erase (ptr - a.base)).tiles .live := by
      rintro (⟨ht, -⟩ | ⟨-, hm'⟩)
      · cases ht
      · exact (OrdMap.mem_erase.mp hm').2 rfl
    have htile := hi.tiling
    rw [tiles, OrdMap.tiles_erase _ hm, Set.union_insert] at htile
    have hpos := htile.pos ⟨.live, ptr - a.base, len⟩ (.inl rfl)
    have hrel := htile.replace_one hnot (Tiling.span .released (ptr - a.base) len)
    rw [Tile.span_pos _ _ hpos, ← Set.insert_eq] at hrel
    have hr : Released a.extent a.freeBlocks (a.liveBlocks.erase (ptr - a.base)) (ptr - a.base)
        len := ⟨hrel, hi.apart, by omega, by have := hi.fits; omega⟩
    obtain ⟨h₁, h₂, h₃⟩ := hr.insertFree
    exact ⟨hi.fits, h₁, h₂, h₃, by simp only; omega⟩

end Deallocate

theorem Inv.step (hi : Inv a) (op : ArenaOp) : Inv (a.step op).2 := by
  cases op with
  | deallocate ptr => exact hi.deallocate ptr
  | allocate bytes alignment =>
    obtain h | ⟨start, len, lead, -, hb, -, -, hf, hlen, -, h⟩ := hi.allocate_cases bytes alignment
    · simpa only [HeapArena.step, h] using hi
    · simpa only [HeapArena.step, h] using hi.carved hf hb hlen

theorem base_size_step (a : HeapArena) (hi : Inv a) (op : ArenaOp) :
    (a.step op).2.base = a.base ∧ (a.step op).2.size = a.size := by
  cases op with
  | deallocate ptr =>
    obtain ⟨h, -⟩ | ⟨len, -, -, h⟩ := hi.deallocate_cases ptr <;> simp [HeapArena.step, h]
  | allocate bytes alignment =>
    obtain h | ⟨start, len, lead, -, -, -, -, -, -, -, h⟩ := hi.allocate_cases bytes alignment <;>
      simp [HeapArena.step, h, HeapArena.carved]

theorem reachable_inv {base size : ℕ} (h : base + size < 2 ^ 64) (ops : List ArenaOp) :
    let a := (run HeapArena.step (HeapArena.new base size) ops).2
    Inv a ∧ a.base = base ∧ a.size = size := by
  refine run_invariant (fun _ a => Inv a ∧ a.base = base ∧ a.size = size) ?_
    ⟨Inv.new h, rfl, rfl⟩
  rintro op - a ⟨hi, rfl, rfl⟩
  exact ⟨hi.step op, a.base_size_step hi op⟩

/-- For every range of addresses and every list of calls: the free and the live blocks tile
the range (nothing is managed under a null base), no two free blocks are neighbours and the
live bytes are counted. A pointer handed out is aligned, not null and spans bytes of the
range, and to deallocate anything but the start of a live block does nothing. -/
theorem arena_blocks_tile {base size : ℕ} (hfits : base + size < 2 ^ 64) (ops : List ArenaOp) :
    let a := (run HeapArena.step (HeapArena.new base size) ops).2
    Tiling 0 (if base = 0 then 0 else size) a.tiles ∧
    (∀ e ∈ a.freeBlocks.entries, ∀ e' ∈ a.freeBlocks.entries, e.1 + e.2 ≠ e'.1) ∧
    a.inUseBytes = (a.liveBlocks.entries.map Prod.snd).sum ∧
    (∀ bytes alignment, alignment < 2 ^ 64 →
      a.allocate bytes alignment = (0, a) ∨
      (a.allocate bytes alignment).1 ≠ 0 ∧ alignment ∣ (a.allocate bytes alignment).1 ∧
        base ≤ (a.allocate bytes alignment).1 ∧
        (a.allocate bytes alignment).1 + bytes ≤ base + size) ∧
    (∀ ptr, (∀ e ∈ a.liveBlocks.entries, ptr ≠ base + e.1) → a.deallocate ptr = a) := by
  intro a
  obtain ⟨hi, hbase, hsize⟩ : Inv a ∧ a.base = base ∧ a.size = size := reachable_inv hfits ops
  have htiling := hi.tiling
  rw [extent, hbase, hsize] at htiling
  refine ⟨htiling, hi.apart, hi.inUse, ?_, ?_⟩
  · intro bytes alignment hlt
    obtain h | ⟨start, len, lead, hb, -, h₀, hp, hf, hlen, hx, h⟩ :=
      hi.allocate_cases bytes alignment
    · exact .inl h
    · have hup := hi.free_upper hf
      have hle := a.extent_le
      have hdvd := dvd_alignUp (a.base + start) hlt h₀ hp
      rw [h]
      exact .inr ⟨by simp only; omega, hx ▸ hdvd, by simp only; omega, by simp only; omega⟩
  · intro ptr hptr
    obtain ⟨h, -⟩ | ⟨len, hm, hle, -⟩ := hi.deallocate_cases ptr
    · exact h
    · exact absurd (show ptr = base + (ptr - a.base) by omega) (hptr _ hm)

/-- An arena of 32 bytes at address 16, two allocations and a release. -/
theorem arena_blocks_tile_released :
    16 + 32 < 2 ^ 64 ∧ Tiling 0 32 (run HeapArena.step (HeapArena.new 16 32)
      [.allocate 5 8, .allocate 4 16, .deallocate 16]).2.tiles := by
  have hfits : 16 + 32 < 2 ^ 64 := by decide
  exact ⟨hfits, (arena_blocks_tile hfits [.allocate 5 8, .allocate 4 16, .deallocate 16]).1⟩

/-- Under a null base the constructor adds no free block, so nothing covers the range. -/
theorem null_base_not_covered :
    0 + 16 < 2 ^ 64 ∧ ¬ Tiling 0 16 (run HeapArena.step (HeapArena.new 0 16) []).2.tiles := by
  refine ⟨by decide, fun h => ?_⟩
  obtain ⟨b, ⟨-, hb⟩ | ⟨-, hb⟩, -⟩ := h.cover 0 le_rfl (by decide)
  · simp [HeapArena.new, OrdMap.empty] at hb
  · simp [HeapArena.new, OrdMap.empty] at hb

end HeapArena

end MemInfo
