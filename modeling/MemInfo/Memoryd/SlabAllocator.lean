import Mathlib.Logic.Function.Basic
import MemInfo.Common.Types
import MemInfo.Lib.Window

/-! # The slab allocator of memoryd

A pool of equal pages in one buffer. Pages are handed out from the back of the
free list, cleared on the way out, and returned to its back.
-/

namespace MemInfo

open Lib

inductive PageState where
  | free
  | allocated
  deriving DecidableEq, Repr

/-- The pool. `freeList` is `free_list_` with its back first. -/
structure SlabAllocator where
  pageSize : ℕ
  totalPages : ℕ
  buffer : ℕ → Byte
  pageStates : ℕ → PageState
  freeList : List ℕ

namespace SlabAllocator

/-- The constructor. `new uint8_t[]` leaves the buffer with arbitrary contents. -/
def new (totalSize pageSize : ℕ) (garbage : ℕ → Byte) : Except Err SlabAllocator :=
  if pageSize = 0 then .error (.invalidArgument "Page size cannot be 0")
  else
    let totalPages := totalSize / pageSize
    if totalPages = 0 then
      .error (.invalidArgument "Total size must be at least one page size")
    else if totalPages > sizeMax / pageSize then
      .error (.invalidArgument "Total size overflows addressable range")
    else .ok
      { pageSize, totalPages, buffer := garbage, pageStates := fun _ => .free,
        freeList := List.range totalPages }

/-- One round of the loop of `allocate_pages`: pop the back of the free list and clear it. -/
def popPage (s : SlabAllocator) (p : ℕ) (rest : List ℕ) : SlabAllocator :=
  { s with
    freeList := rest
    pageStates := Function.update s.pageStates p .allocated
    buffer := blit s.buffer (p * s.pageSize) (List.replicate s.pageSize 0) }

/-- The loop of `allocate_pages`, with the pages collected so far. -/
def allocateLoop : ℕ → SlabAllocator → List ℕ → List ℕ × SlabAllocator
  | 0, s, pages => (pages, s)
  | n + 1, s, pages =>
    match s.freeList with
    | [] => (pages, s)
    | p :: rest => allocateLoop n (s.popPage p rest) (pages ++ [p])

def allocatePages (s : SlabAllocator) (count : ℕ) : Except Err (List ℕ) × SlabAllocator :=
  if s.freeList.length < count then (.error .badAlloc, s)
  else
    let r := allocateLoop count s []
    (.ok r.1, r.2)

/-- One round of the loop of `free_pages`. -/
def freePage (s : SlabAllocator) (p : ℕ) : SlabAllocator :=
  if p < s.totalPages then
    if s.pageStates p = .allocated then
      { s with pageStates := Function.update s.pageStates p .free, freeList := p :: s.freeList }
    else s
  else s

def freePages (s : SlabAllocator) (pages : List ℕ) : SlabAllocator := pages.foldl freePage s

def writePage (s : SlabAllocator) (pageIdx pageOffset : ℕ) (data : List Byte) :
    Except Err Unit × SlabAllocator :=
  if pageIdx ≥ s.totalPages ∨ pageOffset > s.pageSize ∨
      data.length > s.pageSize - pageOffset then
    (.error (.outOfRange "Write out of bounds"), s)
  else if s.pageStates pageIdx ≠ .allocated then
    (.error (.runtimeError "Write to unallocated page"), s)
  else
    (.ok (), { s with buffer := blit s.buffer (pageIdx * s.pageSize + pageOffset) data })

def readPage (s : SlabAllocator) (pageIdx pageOffset size : ℕ) : Except Err (List Byte) :=
  if pageIdx ≥ s.totalPages ∨ pageOffset > s.pageSize ∨ size > s.pageSize - pageOffset then
    .error (.outOfRange "Read out of bounds")
  else if s.pageStates pageIdx ≠ .allocated then
    .error (.runtimeError "Read from unallocated page")
  else
    .ok (window s.buffer (pageIdx * s.pageSize + pageOffset) size)

def freePagesCount (s : SlabAllocator) : ℕ := s.freeList.length

def taken (s : SlabAllocator) (l : List ℕ) : SlabAllocator :=
  { s with
    freeList := s.freeList.drop l.length
    pageStates := fun q => if q ∈ l then .allocated else s.pageStates q
    buffer := fun a => if a / s.pageSize ∈ l then 0 else s.buffer a }

/-- The pool after the allocated pages `l` have been returned. -/
def returned (s : SlabAllocator) (l : List ℕ) : SlabAllocator :=
  { s with
    freeList := l.reverse ++ s.freeList
    pageStates := fun q => if q ∈ l then .free else s.pageStates q }

section Fields

variable (s : SlabAllocator) (l : List ℕ)

@[simp] theorem taken_pageSize : (s.taken l).pageSize = s.pageSize := rfl
@[simp] theorem taken_totalPages : (s.taken l).totalPages = s.totalPages := rfl
@[simp] theorem taken_freeList : (s.taken l).freeList = s.freeList.drop l.length := rfl
@[simp] theorem returned_pageSize : (s.returned l).pageSize = s.pageSize := rfl
@[simp] theorem returned_totalPages : (s.returned l).totalPages = s.totalPages := rfl
@[simp] theorem returned_freeList : (s.returned l).freeList = l.reverse ++ s.freeList := rfl
@[simp] theorem returned_buffer : (s.returned l).buffer = s.buffer := rfl

end Fields

theorem blit_page {m : ℕ → Byte} {ps : ℕ} (hps : 0 < ps) (p a : ℕ) :
    blit m (p * ps) (List.replicate ps 0) a = if a / ps = p then 0 else m a := by
  split_ifs with h
  · obtain ⟨j, hj, rfl⟩ : ∃ j < ps, a = p * ps + j :=
      ⟨a % ps, Nat.mod_lt _ hps, by rw [← h, Nat.mul_comm]; exact (Nat.div_add_mod a ps).symm⟩
    rw [blit_inside (by simpa using hj)]
    simp
  · apply blit_outside
    rw [List.length_replicate]
    by_contra hc
    exact h (Nat.div_eq_of_lt_le (by omega) (by rw [Nat.add_mul]; omega))

theorem popPage_eq {s : SlabAllocator} (hps : 0 < s.pageSize) {p : ℕ} {rest : List ℕ}
    (h : s.freeList = p :: rest) : s.popPage p rest = s.taken [p] := by
  have hb : blit s.buffer (p * s.pageSize) (List.replicate s.pageSize 0) =
      fun a => if a / s.pageSize ∈ [p] then 0 else s.buffer a := by
    funext a
    simp only [blit_page hps, List.mem_singleton]
  have hst : Function.update s.pageStates p .allocated =
      fun q => if q ∈ [p] then PageState.allocated else s.pageStates q := by
    funext q
    simp only [Function.update_apply, List.mem_singleton]
  simp only [popPage, taken, hb, hst, h, List.length_singleton, List.drop_one, List.tail_cons]

theorem taken_taken {s : SlabAllocator} (l l' : List ℕ) :
    (s.taken l).taken l' = s.taken (l ++ l') := by
  simp only [taken, List.drop_drop, List.length_append, List.mem_append]
  congr 1
  · funext a; split_ifs <;> simp_all
  · funext q; split_ifs <;> simp_all

theorem allocateLoop_eq {n : ℕ} {s : SlabAllocator} (hps : 0 < s.pageSize)
    (hn : n ≤ s.freeList.length) (acc : List ℕ) :
    allocateLoop n s acc = (acc ++ s.freeList.take n, s.taken (s.freeList.take n)) := by
  induction n generalizing s acc with
  | zero => simp [allocateLoop, taken]
  | succ n ih =>
    cases hf : s.freeList with
    | nil => simp [hf] at hn
    | cons p rest =>
      have hrest : (s.taken [p]).freeList = rest := by simp [hf]
      simp only [allocateLoop, hf]
      rw [popPage_eq hps hf, ih (s := s.taken [p]) hps (by simp [hf] at hn ⊢; omega), hrest,
        taken_taken]
      simp

theorem allocatePages_eq {s : SlabAllocator} (hps : 0 < s.pageSize) (count : ℕ) :
    s.allocatePages count =
      if s.freeList.length < count then (.error .badAlloc, s)
      else (.ok (s.freeList.take count), s.taken (s.freeList.take count)) := by
  unfold allocatePages
  split_ifs with h
  · rfl
  · simp only [allocateLoop_eq hps (Nat.le_of_not_lt h), List.nil_append]

theorem freePages_eq {s : SlabAllocator} {l : List ℕ} (hnd : l.Nodup)
    (h : ∀ p ∈ l, p < s.totalPages ∧ s.pageStates p = .allocated) :
    s.freePages l = s.returned l := by
  induction l generalizing s with
  | nil => simp [freePages, returned]
  | cons p l ih =>
    obtain ⟨hp, hl⟩ := List.nodup_cons.mp hnd
    have h₁ : s.freePage p = s.returned [p] := by
      obtain ⟨hlt, hst⟩ := h p (by simp)
      simp only [freePage, hlt, hst, if_true, returned, List.reverse_singleton,
        List.singleton_append, List.mem_singleton]
      congr 1
      funext q
      simp only [Function.update_apply]
    have h₂ : ∀ q ∈ l, q < (s.returned [p]).totalPages ∧
        (s.returned [p]).pageStates q = .allocated := by
      intro q hq
      obtain ⟨hlt, hst⟩ := h q (by simp [hq])
      have hne : q ≠ p := fun he => hp (he ▸ hq)
      exact ⟨hlt, by simp [returned, hne, hst]⟩
    rw [freePages, List.foldl_cons, h₁, ← freePages, ih hl h₂]
    simp only [returned, List.reverse_cons, List.append_assoc, List.mem_cons, List.reverse_nil,
      List.nil_append, List.not_mem_nil, or_false]
    congr 1
    funext q
    split_ifs <;> simp_all

end SlabAllocator

end MemInfo
