import Mathlib.Algebra.Order.Floor.Div
import Mathlib.Data.List.Flatten
import Mathlib.Data.List.Perm.Lattice
import MemInfo.Memoryd.PageTracker

/-! # The pool invariant

The free list and the pages of the live allocations are pairwise distinct. Under
this invariant every operation of the page tracker has a closed form, and the
closed forms keep the invariant.
-/

namespace MemInfo

open Lib

namespace PageTracker

def heldPages (t : PageTracker) : List ℕ := t.allocations.entries.flatMap fun e => e.2.pages

/-- The pages on the free list and those of the live allocations. -/
def allPages (t : PageTracker) : List ℕ := t.allocator.freeList ++ t.heldPages

structure Inv (t : PageTracker) : Prop where
  pageSize_pos : 0 < t.allocator.pageSize
  pool_lt : t.allocator.totalPages * t.allocator.pageSize < 2 ^ 64
  nodup : t.allPages.Nodup
  lt_total : ∀ p ∈ t.allPages, p < t.allocator.totalPages
  free_iff : ∀ p < t.allocator.totalPages,
    t.allocator.pageStates p = .free ↔ p ∈ t.allocator.freeList
  size_pos : ∀ {h a}, t.allocations.lookup h = some a → 0 < a.totalSize
  page_count : ∀ {h a}, t.allocations.lookup h = some a →
    a.pages.length = a.totalSize ⌈/⌉ t.allocator.pageSize

/-- The tracker after a successful `allocate`. -/
def granted (t : PageTracker) (size : ℕ) : PageTracker :=
  let pages := t.allocator.freeList.take (size ⌈/⌉ t.allocator.pageSize)
  { allocator := t.allocator.taken pages
    allocations := t.allocations.insert t.nextHandle ⟨size, pages, 0⟩
    nextHandle := wrap (t.nextHandle + 1) }

variable {t : PageTracker} {h h' : ℕ} {a a' : Allocation}

theorem heldPages_perm (hl : t.allocations.lookup h = some a) :
    t.heldPages.Perm (a.pages ++ (t.allocations.erase h).entries.flatMap fun e => e.2.pages) := by
  unfold heldPages
  exact (Dict.entries_perm_erase hl).flatMap_right _

theorem mem_heldPages {p : ℕ} :
    p ∈ t.heldPages ↔ ∃ h a, t.allocations.lookup h = some a ∧ p ∈ a.pages := by
  simp only [heldPages, List.mem_flatMap]
  constructor
  · rintro ⟨⟨h, a⟩, he, hp⟩
    exact ⟨h, a, Dict.mem_entries_iff.mp he, hp⟩
  · rintro ⟨h, a, hl, hp⟩
    exact ⟨⟨h, a⟩, Dict.mem_entries_iff.mpr hl, hp⟩

theorem lookup_of_checkOwnership {o : ℕ} (hc : t.checkOwnership h o = .ok a) :
    t.allocations.lookup h = some a := by
  unfold checkOwnership at hc
  cases hl : t.allocations.lookup h with
  | none =>
    rw [hl] at hc
    cases hc
  | some b =>
    rw [hl] at hc
    dsimp only at hc
    split_ifs at hc
    rw [Except.ok.inj hc]

@[simp] theorem heldPages_new (s : SlabAllocator) : (PageTracker.new s).heldPages = [] := rfl

theorem le_mul_ceilDiv {n k : ℕ} (hk : 0 < k) : n ≤ (n ⌈/⌉ k) * k := by
  rw [Nat.mul_comm]
  exact le_smul_ceilDiv hk

theorem pagesNeeded_eq {size pageSize : ℕ} (hz : size ≠ 0)
    (h : ¬ size > sizeMax - (pageSize - 1)) :
    wrap (size + pageSize - 1) / pageSize = size ⌈/⌉ pageSize := by
  rw [wrap_of_lt (by unfold sizeMax at h; omega), Nat.ceilDiv_eq_add_pred_div]

theorem heldPages_insert (b : Allocation) :
    heldPages { t with allocations := t.allocations.insert h b } =
      b.pages ++ (t.allocations.erase h).entries.flatMap fun e => e.2.pages := by
  simp only [heldPages, AList.entries_insert, List.flatMap_cons]
  rfl

theorem erase_pages_sublist :
    ((t.allocations.erase h).entries.flatMap fun e => e.2.pages).Sublist t.heldPages :=
  (List.kerase_sublist h t.allocations.entries).flatMap _

section Reading

variable (hi : Inv t)

include hi

theorem Inv.pages_nodup (hl : t.allocations.lookup h = some a) : a.pages.Nodup := by
  have hn := (List.nodup_append.mp hi.nodup).2.1
  exact (List.nodup_append.mp ((heldPages_perm hl).nodup_iff.mp hn)).1

theorem Inv.pages_disjoint (hne : h ≠ h') (hl : t.allocations.lookup h = some a)
    (hl' : t.allocations.lookup h' = some a') : a.pages.Disjoint a'.pages := by
  have hn := (List.nodup_append.mp hi.nodup).2.1
  have hd := List.disjoint_of_nodup_append ((heldPages_perm hl).nodup_iff.mp hn)
  intro p hp hp'
  refine hd hp (List.mem_flatMap.mpr ⟨⟨h', a'⟩, Dict.mem_entries_iff.mpr ?_, hp'⟩)
  rwa [AList.lookup_erase_ne hne.symm]

theorem Inv.page_allocated (hl : t.allocations.lookup h = some a) {p : ℕ} (hp : p ∈ a.pages) :
    p < t.allocator.totalPages ∧ t.allocator.pageStates p = .allocated := by
  have hh : p ∈ t.heldPages := mem_heldPages.mpr ⟨h, a, hl, hp⟩
  have hlt := hi.lt_total p (List.mem_append_right _ hh)
  refine ⟨hlt, ?_⟩
  cases hs : t.allocator.pageStates p with
  | allocated => rfl
  | free =>
    exact absurd hh ((List.disjoint_of_nodup_append hi.nodup) ((hi.free_iff p hlt).mp hs))

theorem Inv.size_le (hl : t.allocations.lookup h = some a) :
    a.totalSize ≤ a.pages.length * t.allocator.pageSize := by
  rw [hi.page_count hl]
  exact le_mul_ceilDiv hi.pageSize_pos

theorem Inv.pages_length_le (hl : t.allocations.lookup h = some a) :
    a.pages.length ≤ t.allocator.totalPages := by
  have hs : a.pages ⊆ List.range t.allocator.totalPages := fun p hp =>
    List.mem_range.mpr (hi.page_allocated hl hp).1
  simpa using ((hi.pages_nodup hl).subperm hs).length_le

theorem Inv.freeList_length_le : t.allocator.freeList.length ≤ t.allocator.totalPages := by
  have hs : t.allocator.freeList ⊆ List.range t.allocator.totalPages := fun p hp =>
    List.mem_range.mpr (hi.lt_total p (List.mem_append_left _ hp))
  simpa using ((List.nodup_append.mp hi.nodup).1.subperm hs).length_le

/-- `allocate` fails exactly when the rounding overflows or the free list is too short. -/
theorem Inv.allocate_eq (size : ℕ) :
    t.allocate size =
      if size = 0 then (.ok 0, t)
      else if size > sizeMax - (t.allocator.pageSize - 1) ∨
          t.allocator.freeList.length < size ⌈/⌉ t.allocator.pageSize then (.error .badAlloc, t)
      else (.ok t.nextHandle, t.granted size) := by
  have hps := hi.pageSize_pos
  unfold allocate
  by_cases h₀ : size = 0
  · simp only [h₀, if_true]
  by_cases h₁ : size > sizeMax - (t.allocator.pageSize - 1)
  · simp only [h₀, h₁, true_or, if_true, if_false]
  simp only [h₀, h₁, false_or, if_false, pagesNeeded_eq h₀ h₁, SlabAllocator.allocatePages_eq hps]
  split_ifs <;> rfl

theorem Inv.release_eq (hl : t.allocations.lookup h = some a) :
    t.release h a =
      { t with
        allocator := t.allocator.returned a.pages
        allocations := t.allocations.erase h } := by
  rw [release, SlabAllocator.freePages_eq (hi.pages_nodup hl) fun p hp => hi.page_allocated hl hp]

end Reading

section Preservation

theorem Inv.new {totalSize pageSize : ℕ} {garbage : ℕ → Byte} {s : SlabAllocator}
    (h : SlabAllocator.new totalSize pageSize garbage = .ok s) : Inv (PageTracker.new s) := by
  simp only [SlabAllocator.new] at h
  split_ifs at h with h₀ h₁ h₂
  obtain rfl := Except.ok.inj h
  refine ⟨Nat.pos_of_ne_zero h₀, ?_, ?_, ?_, ?_, ?_, ?_⟩
  · have := Nat.mul_le_of_le_div _ _ _ (Nat.le_of_not_lt h₂)
    simp only [PageTracker.new, sizeMax] at this ⊢
    omega
  · rw [allPages, heldPages_new, List.append_nil]
    exact List.nodup_range
  · rw [allPages, heldPages_new, List.append_nil]
    exact fun p hp => List.mem_range.mp hp
  · intro p hp
    simpa [PageTracker.new] using hp
  · intro h a hl
    simp [PageTracker.new] at hl
  · intro h a hl
    simp [PageTracker.new] at hl

theorem Inv.setBuffer (hi : Inv t) (b : ℕ → Byte) :
    Inv { t with allocator := { t.allocator with buffer := b } } :=
  ⟨hi.pageSize_pos, hi.pool_lt, hi.nodup, hi.lt_total, hi.free_iff, hi.size_pos, hi.page_count⟩

theorem allPages_assignOwner (t : PageTracker) (h o : ℕ) :
    (t.assignOwner h o).allPages.Perm t.allPages := by
  unfold PageTracker.assignOwner
  cases hl : t.allocations.lookup h with
  | none => exact List.Perm.refl _
  | some a =>
    apply List.Perm.append_left _
    rw [heldPages_insert]
    exact (heldPages_perm hl).symm

theorem Inv.allPages_release (hi : Inv t) (hl : t.allocations.lookup h = some a) :
    (t.release h a).allPages.Perm t.allPages := by
  rw [hi.release_eq hl]
  refine List.Perm.trans ?_ ((heldPages_perm hl).symm.append_left _)
  simp only [allPages, heldPages, SlabAllocator.returned_freeList]
  rw [List.append_assoc]
  apply ((List.reverse_perm a.pages).append_right _).trans
  rw [← List.append_assoc, ← List.append_assoc]
  exact List.perm_append_comm.append_right _

theorem allPages_granted {size : ℕ}
    (hf : size ⌈/⌉ t.allocator.pageSize ≤ t.allocator.freeList.length) :
    (t.granted size).allPages.Perm (t.allocator.freeList ++
      (t.allocations.erase t.nextHandle).entries.flatMap fun e => e.2.pages) := by
  have hheld : (t.granted size).heldPages = _ :=
    heldPages_insert (t := { t with
      allocator := t.allocator.taken (t.allocator.freeList.take (size ⌈/⌉ t.allocator.pageSize))
      nextHandle := wrap (t.nextHandle + 1) }) (h := t.nextHandle) _
  rw [allPages, hheld]
  simp only [PageTracker.granted, SlabAllocator.taken_freeList, List.length_take,
    Nat.min_eq_left hf]
  rw [← List.append_assoc]
  refine List.Perm.append_right _ (List.perm_append_comm.trans ?_)
  rw [List.take_append_drop]

theorem allPages_granted_fresh {size : ℕ}
    (hf : size ⌈/⌉ t.allocator.pageSize ≤ t.allocator.freeList.length)
    (hn : t.allocations.lookup t.nextHandle = none) :
    (t.granted size).allPages.Perm t.allPages := by
  have he : t.allocations.erase t.nextHandle = t.allocations :=
    AList.ext (List.kerase_of_notMem_keys (AList.lookup_eq_none.mp hn))
  have := allPages_granted hf
  rwa [he] at this

theorem Inv.assignOwner (hi : Inv t) (h : ℕ) (o : ℕ) : Inv (t.assignOwner h o) := by
  have hp := allPages_assignOwner t h o
  have hn := hp.nodup_iff.mpr hi.nodup
  have hlt := fun p hm => hi.lt_total p (hp.mem_iff.mp hm)
  unfold PageTracker.assignOwner at *
  cases hl : t.allocations.lookup h with
  | none => exact hi
  | some a =>
    simp only [hl] at hn hlt
    refine ⟨hi.pageSize_pos, hi.pool_lt, hn, hlt, hi.free_iff, ?_, ?_⟩
    · intro k b hb
      rw [Dict.lookup_insert_iff] at hb
      split_ifs at hb with hk
      · obtain rfl := Option.some.inj hb
        exact (hi.size_pos hl :)
      · exact hi.size_pos hb
    · intro k b hb
      rw [Dict.lookup_insert_iff] at hb
      split_ifs at hb with hk
      · obtain rfl := Option.some.inj hb
        exact (hi.page_count hl :)
      · exact hi.page_count hb

theorem Inv.release (hi : Inv t) (hl : t.allocations.lookup h = some a) : Inv (t.release h a) := by
  have hp := hi.allPages_release hl
  have hn := hp.nodup_iff.mpr hi.nodup
  have hlt := fun p hm => hi.lt_total p (hp.mem_iff.mp hm)
  rw [hi.release_eq hl] at hn hlt ⊢
  refine ⟨hi.pageSize_pos, hi.pool_lt, hn, hlt, ?_, ?_, ?_⟩
  · intro p hlt
    simp only [SlabAllocator.returned, List.mem_append, List.mem_reverse]
    split_ifs with hm
    · simp [hm]
    · simp only [hm, false_or]
      exact hi.free_iff p hlt
  · intro k b hb
    rw [Dict.lookup_erase_iff] at hb
    split_ifs at hb
    exact hi.size_pos hb
  · intro k b hb
    rw [Dict.lookup_erase_iff] at hb
    split_ifs at hb
    exact hi.page_count hb

theorem Inv.take (hi : Inv t) {n : ℕ} (hn : n ≤ t.allocator.freeList.length) :
    Inv { t with allocator := t.allocator.taken (t.allocator.freeList.take n) } := by
  have hlen : (t.allocator.freeList.take n).length = n := by simp [hn]
  have hsub : (t.allocator.freeList.drop n ++ t.heldPages).Sublist t.allPages :=
    (List.drop_sublist n _).append_right _
  refine ⟨hi.pageSize_pos, hi.pool_lt, ?_, ?_, ?_, hi.size_pos, hi.page_count⟩
  · simp only [allPages, SlabAllocator.taken_freeList, hlen]
    exact hsub.nodup hi.nodup
  · simp only [allPages, SlabAllocator.taken_freeList, hlen]
    exact fun p hp => hi.lt_total p (hsub.subset hp)
  · intro p hlt
    have hnd := (List.nodup_append.mp hi.nodup).1
    have hsplit := List.take_append_drop n t.allocator.freeList
    have hiff := hi.free_iff p hlt
    simp only [SlabAllocator.taken, hlen]
    split_ifs with hm
    · rw [← hsplit] at hnd
      constructor
      · rintro ⟨⟩
      · exact fun hd => absurd hd ((List.disjoint_of_nodup_append hnd) hm)
    · rw [hiff]
      conv_lhs => rw [← hsplit]
      simp only [List.mem_append, hm, false_or]

theorem Inv.record (hi : Inv t) {size : ℕ} {pages : List ℕ} (hs : 0 < size)
    (hlen : pages.length = size ⌈/⌉ t.allocator.pageSize) (hnd : pages.Nodup)
    (hp : ∀ p ∈ pages, p < t.allocator.totalPages ∧ p ∉ t.allPages) :
    Inv (t.record size pages) := by
  have hheld : (t.record size pages).heldPages =
      pages ++ (t.allocations.erase t.nextHandle).entries.flatMap fun e => e.2.pages :=
    heldPages_insert (t := { t with nextHandle := wrap (t.nextHandle + 1) }) _
  have hsub := (erase_pages_sublist (t := t) (h := t.nextHandle)).append_left t.allocator.freeList
  have hperm : (t.record size pages).allPages.Perm (pages ++ (t.allocator.freeList ++
      (t.allocations.erase t.nextHandle).entries.flatMap fun e => e.2.pages)) := by
    rw [allPages, hheld]
    exact List.perm_append_comm_assoc _ _ _
  have hcount : ∀ {k b}, (t.record size pages).allocations.lookup k = some b →
      0 < b.totalSize ∧ b.pages.length = b.totalSize ⌈/⌉ t.allocator.pageSize := by
    intro k b hb
    simp only [PageTracker.record, Dict.lookup_insert_iff] at hb
    split_ifs at hb
    · obtain rfl := Option.some.inj hb
      exact ⟨hs, hlen⟩
    · exact ⟨hi.size_pos hb, hi.page_count hb⟩
  refine ⟨hi.pageSize_pos, hi.pool_lt, ?_, ?_, hi.free_iff, fun hb => (hcount hb).1,
    fun hb => (hcount hb).2⟩
  · refine hperm.nodup_iff.mpr (hnd.append (hsub.nodup hi.nodup) ?_)
    exact fun p hm hold => (hp p hm).2 (hsub.subset hold)
  · intro p hm
    rcases List.mem_append.mp (hperm.mem_iff.mp hm) with hm | hm
    · exact (hp p hm).1
    · exact hi.lt_total p (hsub.subset hm)

theorem Inv.take_fresh (hi : Inv t) {n p : ℕ} (hp : p ∈ t.allocator.freeList.take n) :
    p < t.allocator.totalPages ∧ p ∉ t.allocator.freeList.drop n ∧ p ∉ t.heldPages := by
  have hfree : p ∈ t.allocator.freeList := List.mem_of_mem_take hp
  have hnd := (List.nodup_append.mp hi.nodup).1
  rw [← List.take_append_drop n t.allocator.freeList] at hnd
  refine ⟨hi.lt_total p (List.mem_append_left _ hfree), ?_, ?_⟩
  · exact fun hd => (List.disjoint_of_nodup_append hnd) hp hd
  · exact fun hd => (List.disjoint_of_nodup_append hi.nodup) hfree hd

theorem Inv.granted (hi : Inv t) {size : ℕ} (hs : 0 < size)
    (hf : size ⌈/⌉ t.allocator.pageSize ≤ t.allocator.freeList.length) : Inv (t.granted size) := by
  have hlen : (t.allocator.freeList.take (size ⌈/⌉ t.allocator.pageSize)).length =
      size ⌈/⌉ t.allocator.pageSize := by simp [hf]
  have hnd := (List.nodup_append.mp hi.nodup).1
  apply (hi.take hf).record hs hlen (hnd.sublist (List.take_sublist _ _))
  intro p hp
  obtain ⟨hlt, hdrop, hheld⟩ := hi.take_fresh hp
  refine ⟨hlt, fun hall => ?_⟩
  simp only [allPages, SlabAllocator.taken_freeList, hlen] at hall
  rcases List.mem_append.mp hall with hm | hm
  · exact hdrop hm
  · exact hheld hm

end Preservation

end PageTracker

end MemInfo
