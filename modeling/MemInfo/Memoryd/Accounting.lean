import MemInfo.Memoryd.Control
import MemInfo.Memoryd.Refinement

/-! # Accounting of the pool

Every page is on the free list or held by one live allocation, until the 64-bit
handle counter comes round to a handle that is still live. The reply of the control
socket counts the held pages.
-/

namespace MemInfo

open Lib

namespace PageTracker

variable {t t' t'' : PageTracker} {h : ℕ} {a : Allocation}

structure Consistent (t : PageTracker) : Prop where
  freeList_nodup : t.allocator.freeList.Nodup
  freeList_lt : ∀ p ∈ t.allocator.freeList, p < t.allocator.totalPages
  free_iff : ∀ p < t.allocator.totalPages,
    p ∈ t.allocator.freeList ↔ t.allocator.pageStates p = .free
  pages_exact : ∀ h a, t.allocations.lookup h = some a →
    a.pages.Nodup ∧ a.pages.length = a.totalSize ⌈/⌉ t.allocator.pageSize
  pages_disjoint : ∀ h h' a a', h ≠ h' → t.allocations.lookup h = some a →
    t.allocations.lookup h' = some a' → a.pages.Disjoint a'.pages

/-- The free list and the page lists of the live allocations name every page once. -/
def Covered (t : PageTracker) : Prop := t.allPages.Perm (List.range t.allocator.totalPages)

theorem Inv.consistent (hi : Inv t) : Consistent t where
  freeList_nodup := (List.nodup_append.mp hi.nodup).1
  freeList_lt p hp := hi.lt_total p (List.mem_append_left _ hp)
  free_iff p hp := (hi.free_iff p hp).symm
  pages_exact _ _ hl := ⟨hi.pages_nodup hl, hi.page_count hl⟩
  pages_disjoint _ _ _ _ hne hl hl' := hi.pages_disjoint hne hl hl'

structure Redealt (t t' : PageTracker) : Prop where
  perm : t'.allPages.Perm t.allPages
  totalPages : t'.allocator.totalPages = t.allocator.totalPages

theorem Redealt.refl (t : PageTracker) : Redealt t t := ⟨List.Perm.refl _, rfl⟩

theorem Redealt.trans (h : Redealt t t') (h' : Redealt t' t'') : Redealt t t'' :=
  ⟨h'.perm.trans h.perm, h'.totalPages.trans h.totalPages⟩

theorem Redealt.covered (h : Redealt t t') (hc : Covered t) : Covered t' := by
  unfold Covered
  rw [h.totalPages]
  exact h.perm.trans hc

theorem Covered.new {totalSize pageSize : ℕ} {garbage : ℕ → Byte} {s : SlabAllocator}
    (h : SlabAllocator.new totalSize pageSize garbage = .ok s) : Covered (PageTracker.new s) := by
  simp only [SlabAllocator.new] at h
  split_ifs at h
  obtain rfl := Except.ok.inj h
  rw [Covered, allPages, heldPages_new, List.append_nil]
  exact List.Perm.refl _

section Steps

variable (hi : Inv t)

include hi

theorem Inv.redealt_release (hl : t.allocations.lookup h = some a) :
    Redealt t (t.release h a) := by
  refine ⟨hi.allPages_release hl, ?_⟩
  rw [hi.release_eq hl]
  rfl

theorem Inv.redealt_sweep (o h : ℕ) : Redealt t (t.sweep o h) := by
  unfold PageTracker.sweep
  cases hl : t.allocations.lookup h with
  | none => exact .refl t
  | some a =>
    simp only
    split_ifs
    · exact hi.redealt_release hl
    · exact .refl t

theorem Inv.redealt_foldl_sweep (o : ℕ) (l : List ℕ) :
    Redealt t (l.foldl (PageTracker.sweep o) t) := by
  induction l generalizing t with
  | nil => exact .refl t
  | cons h l ih => exact (hi.redealt_sweep o h).trans (ih (hi.sweep o h))

theorem Inv.redealt_allocate {n : ℕ} (hn : Issued t n) (size : ℕ)
    (hb : isGrant (.allocate size, (t.step (.allocate size)).1) → n < 2 ^ 64) :
    Redealt t (t.step (.allocate size)).2 := by
  simp only [step, hi.allocate_eq] at hb ⊢
  split_ifs at hb ⊢ with h₀ h₁
  · exact .refl t
  · exact .refl t
  · rw [not_or, Nat.not_lt, Nat.not_lt] at h₁
    exact ⟨allPages_granted_fresh h₁.2 (hn.fresh (hb (by simp [isGrant, h₀]))), rfl⟩

theorem Inv.redealt_step {n : ℕ} (hn : Issued t n) (op : Op)
    (hb : isGrant (op, (t.step op).1) → n < 2 ^ 64) : Redealt t (t.step op).2 := by
  cases op with
  | allocate size => exact hi.redealt_allocate hn size hb
  | assignOwner h o =>
    refine ⟨allPages_assignOwner t h o, ?_⟩
    simp only [step, PageTracker.assignOwner]
    split <;> rfl
  | write h offset data o =>
    simp only [step]
    obtain ⟨-, hw⟩ | ⟨-, e, hw, -⟩ | ⟨-, -, b, hw, -⟩ := hi.write_cases h offset data o
    · rw [hw]; exact .refl t
    · rw [hw]; exact .refl t
    · rw [hw]; exact ⟨List.Perm.refl _, rfl⟩
  | read h offset size o =>
    simp only [step]
    split <;> exact .refl t
  | free h o =>
    simp only [step]
    obtain ⟨e, hf, -⟩ | ⟨a, hl, hf, -⟩ := free_cases t h o
    · rw [hf]; exact .refl t
    · rw [hf]; exact hi.redealt_release hl
  | freeAllForOwner ord o =>
    simp only [step, PageTracker.freeAllForOwner]
    split_ifs
    · exact .refl t
    · exact hi.redealt_foldl_sweep o _

end Steps

theorem Reached.redealt {n : ℕ} (hr : Reached n t) {ops : List Op}
    (hb : n + (trace PageTracker.step t ops).countP isGrant ≤ 2 ^ 64) :
    Redealt t (Lib.run PageTracker.step t ops).2 := by
  let J (n : ℕ) (t' : PageTracker) : Prop := Reached n t' ∧ (n ≤ 2 ^ 64 → Redealt t t')
  have hstep (n : ℕ) (t' : PageTracker) (op : Op) (hj : J n t') :
      J (n + if isGrant (op, (t'.step op).1) then 1 else 0) (t'.step op).2 := by
    refine ⟨hj.1.step op, fun hle => (hj.2 (by omega)).trans ?_⟩
    refine hj.1.1.redealt_step hj.1.2 op fun hg => ?_
    rw [if_pos hg] at hle
    omega
  have hrun : J _ (Lib.run PageTracker.step t ops).2 :=
    run_counted J isGrant hstep ⟨hr, fun _ => .refl t⟩
  exact hrun.2 hb

structure Reports (t : PageTracker) (r : ControlResponse) : Prop where
  total : r.poolTotalBytes = t.allocator.totalPages * t.allocator.pageSize
  no_underflow : r.poolFreeBytes ≤ r.poolTotalBytes
  used : r.poolUsedBytes = r.poolTotalBytes - r.poolFreeBytes

theorem Inv.stats (hi : Inv t) (requestId : ℕ) :
    ∃ r, (MemoryControlSocket.mk (some t.allocator)).handleRequest
        (some ⟨.getMemoryStats, requestId⟩) = some r ∧ Reports t r ∧
      r.poolFreeBytes = t.allocator.freeList.length * t.allocator.pageSize := by
  have hle := Nat.mul_le_mul_right t.allocator.pageSize hi.freeList_length_le
  have hfree := wrap_of_lt (hle.trans_lt hi.pool_lt)
  have htotal := wrap_of_lt hi.pool_lt
  refine ⟨_, rfl, ⟨htotal, ?_, ?_⟩, hfree⟩
  · simpa only [SlabAllocator.freePagesCount, hfree, htotal] using hle
  · simpa only [SlabAllocator.freePagesCount, hfree, htotal] using wrapSub_of_le hle hi.pool_lt

theorem Covered.length_held (hc : Covered t) :
    t.allocator.freeList.length + t.heldPages.length = t.allocator.totalPages := by
  simpa [allPages] using hc.length_eq

/-- In every state that a run reaches the three views of page ownership agree and the
control socket's subtraction does not underflow. As long as at most `2 ^ 64` allocations
have succeeded no page is lost, and the used bytes are those of the held pages. -/
theorem pool_accounting {totalSize pageSize : ℕ} {garbage : ℕ → Byte} {slab : SlabAllocator}
    (hnew : SlabAllocator.new totalSize pageSize garbage = .ok slab) (ops : List Op) :
    let t := (run step (PageTracker.new slab) ops).2
    Consistent t ∧
    ((trace step (PageTracker.new slab) ops).countP isGrant ≤ 2 ^ 64 → Covered t) ∧
    ∀ requestId, ∃ r, (MemoryControlSocket.mk (some t.allocator)).handleRequest
        (some ⟨.getMemoryStats, requestId⟩) = some r ∧ Reports t r ∧
      ((trace step (PageTracker.new slab) ops).countP isGrant ≤ 2 ^ 64 →
        r.poolUsedBytes = t.allocator.pageSize * t.heldPages.length) := by
  intro t
  have hr := Reached.new hnew
  have hi : Inv t := (hr.run ops).1
  have hcov (hb : (trace step (PageTracker.new slab) ops).countP isGrant ≤ 2 ^ 64) : Covered t :=
    (hr.redealt (by omega)).covered (Covered.new hnew)
  refine ⟨hi.consistent, hcov, fun requestId => ?_⟩
  obtain ⟨r, hresp, hrep, hfree⟩ := hi.stats requestId
  refine ⟨r, hresp, hrep, fun hb => ?_⟩
  rw [hrep.used, hrep.total, hfree, ← (hcov hb).length_held, ← Nat.sub_mul,
    Nat.add_sub_cancel_left, Nat.mul_comm]

/-- Three pages of two bytes with five bytes held and the rest free. -/
theorem pool_accounting_two_pages :
    ∃ slab, SlabAllocator.new 7 2 (fun _ => 9) = .ok slab ∧
      Covered (run step (PageTracker.new slab) [.allocate 1, .allocate 3, .free 1 0]).2 := by
  have hnew : SlabAllocator.new 7 2 (fun _ => 9) = .ok _ := rfl
  exact ⟨_, hnew, (pool_accounting hnew _).2.1 (by decide)⟩

section Reuse

def takeAndReturn (o k : ℕ) : List Op :=
  [.allocate 1, .assignOwner (wrap (k + 2)) o, .free (wrap (k + 2)) o]

structure OneHeld (t : PageTracker) (n : ℕ) : Prop where
  inv : Inv t
  pageSize : t.allocator.pageSize = 1
  totalPages : t.allocator.totalPages = 2
  freeList : t.allocator.freeList = [1]
  held : ∃ o, t.allocations.lookup 1 = some ⟨1, [0], o⟩
  next : t.nextHandle = wrap (n + 2)

variable {n : ℕ}

theorem OneHeld.allocate_eq (ho : OneHeld t n) :
    t.allocate 1 = (.ok (wrap (n + 2)), t.granted 1) := by
  have hfits : ¬ (1 > sizeMax - (1 - 1) ∨ [1].length < 1 ⌈/⌉ 1) := by decide
  rw [ho.inv.allocate_eq, ho.pageSize, ho.freeList, ho.next, if_neg one_ne_zero, if_neg hfits]

theorem OneHeld.granted_inv (ho : OneHeld t n) : Inv (t.granted 1) :=
  ho.inv.granted Nat.one_pos (by rw [ho.pageSize, ho.freeList]; decide)

theorem OneHeld.granted_freeList (ho : OneHeld t n) : (t.granted 1).allocator.freeList = [] := by
  simp only [PageTracker.granted, SlabAllocator.taken_freeList, ho.freeList, ho.pageSize]
  rfl

theorem OneHeld.granted_lookup (ho : OneHeld t n) (k : ℕ) :
    (t.granted 1).allocations.lookup k =
      if k = wrap (n + 2) then some ⟨1, [1], 0⟩ else t.allocations.lookup k := by
  simp only [PageTracker.granted, ho.pageSize, ho.freeList, ho.next, Dict.lookup_insert_iff]
  rfl

theorem OneHeld.owned_eq (ho : OneHeld t n) (o : ℕ) :
    (t.granted 1).assignOwner (wrap (n + 2)) o =
      { t.granted 1 with
        allocations := (t.granted 1).allocations.insert (wrap (n + 2)) ⟨1, [1], o⟩ } := by
  simp only [PageTracker.assignOwner, ho.granted_lookup, if_true]

theorem OneHeld.owned_lookup (ho : OneHeld t n) (o k : ℕ) :
    ((t.granted 1).assignOwner (wrap (n + 2)) o).allocations.lookup k =
      if k = wrap (n + 2) then some ⟨1, [1], o⟩ else t.allocations.lookup k := by
  rw [ho.owned_eq, Dict.lookup_insert_iff, ho.granted_lookup]
  split_ifs <;> rfl

theorem OneHeld.cycle (ho : OneHeld t n) (o : ℕ) (hn : n + 1 < 2 ^ 64) :
    OneHeld (run step t (takeAndReturn o n)).2 (n + 1) := by
  have hl := ho.owned_lookup o (wrap (n + 2))
  rw [if_pos rfl] at hl
  have hinv := ho.granted_inv.assignOwner (wrap (n + 2)) o
  have hne : 1 ≠ wrap (n + 2) := by unfold wrap; omega
  have hrun : (run step t (takeAndReturn o n)).2 =
      ((t.granted 1).assignOwner (wrap (n + 2)) o).release (wrap (n + 2)) ⟨1, [1], o⟩ := by
    simp [takeAndReturn, step, ho.allocate_eq, PageTracker.free, checkOwnership, hl]
  rw [hrun]
  refine ⟨hinv.release hl, ?_, ?_, ?_, ?_, ?_⟩ <;> rw [hinv.release_eq hl]
  · rw [ho.owned_eq]
    exact ho.pageSize
  · rw [ho.owned_eq]
    exact ho.totalPages
  · rw [ho.owned_eq, SlabAllocator.returned_freeList, ho.granted_freeList]
    rfl
  · obtain ⟨o', ho'⟩ := ho.held
    refine ⟨o', ?_⟩
    rw [AList.lookup_erase_ne hne, ho.owned_lookup, if_neg hne, ho']
  · rw [ho.owned_eq]
    simp only [PageTracker.granted, ho.next, wrap]
    omega

theorem OneHeld.page_lost (ho : OneHeld t n) (hn : n = 2 ^ 64 - 1) :
    0 < (run step t [.allocate 1]).2.allocator.totalPages ∧
      0 ∉ (run step t [.allocate 1]).2.allPages := by
  have hrun : (run step t [.allocate 1]).2 = t.granted 1 := by
    simp [step, ho.allocate_eq]
  rw [hrun, allPages, List.mem_append, mem_heldPages]
  refine ⟨by simp [PageTracker.granted, ho.totalPages], ?_⟩
  rintro (hf | ⟨k, b, hl, hp⟩)
  · simp [ho.granted_freeList] at hf
  · rw [ho.granted_lookup] at hl
    split_ifs at hl with hk
    · obtain rfl := Option.some.inj hl
      simp at hp
    · have hne : 1 ≠ k := fun he => hk (he ▸ hn ▸ rfl)
      obtain ⟨o, ho'⟩ := ho.held
      exact ho.inv.pages_disjoint hne ho' hl (by simp) hp

/-- After `2 ^ 64 + 1` grants the handle counter has come round to a live handle: its
page is neither on the free list nor held by any allocation. -/
theorem page_lost_after_wrap :
    ∃ slab ops p, SlabAllocator.new 2 1 (fun _ => 0) = .ok slab ∧
      p < (run step (PageTracker.new slab) ops).2.allocator.totalPages ∧
      p ∉ (run step (PageTracker.new slab) ops).2.allPages := by
  have hnew : SlabAllocator.new 2 1 (fun _ => 0) = .ok _ := rfl
  have hfirst : OneHeld (run step (PageTracker.new _) [.allocate 1]).2 0 :=
    ⟨((Reached.new hnew).run _).1, rfl, rfl, rfl, ⟨0, rfl⟩, rfl⟩
  -- the number of rounds stays a variable, so that nothing unfolds the list of calls
  obtain ⟨n, hn⟩ : ∃ n, n = 2 ^ 64 - 1 := ⟨_, rfl⟩
  refine ⟨_, .allocate 1 :: ((List.range n).flatMap (takeAndReturn 0) ++ [.allocate 1]), 0, hnew,
    ?_⟩
  rw [run_cons_snd, run_append_snd]
  have hrounds := run_rounds (fun n t => OneHeld t n) (takeAndReturn 0) (n := n)
    (fun k t hk ho => ho.cycle 0 (by omega)) hfirst
  exact hrounds.page_lost hn

end Reuse

end PageTracker

end MemInfo
