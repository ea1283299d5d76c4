import MemInfo.Lib.Dict
import MemInfo.Lib.Paging
import MemInfo.Memoryd.SlabAllocator

/-! # The page tracker of memoryd

Handles name logical arrays that lie on pages of the slab allocator. Reads and
writes split a logical range at the page boundaries.
-/

namespace MemInfo

open Lib

structure Allocation where
  totalSize : ℕ
  pages : List ℕ
  ownerId : ℕ
  deriving DecidableEq, Repr

structure PageTracker where
  allocator : SlabAllocator
  allocations : Dict ℕ Allocation
  nextHandle : ℕ

namespace PageTracker

def new (allocator : SlabAllocator) : PageTracker := ⟨allocator, ∅, 1⟩

/-- `check_ownership`, with the entry its callers look up right after it. -/
def checkOwnership (t : PageTracker) (handle : ℕ) (ownerId : ℕ) : Except Err Allocation :=
  match t.allocations.lookup handle with
  | none => .error (.invalidArgument "Invalid handle")
  | some a => if a.ownerId ≠ 0 ∧ a.ownerId ≠ ownerId then .error .permissionDenied else .ok a

def allocate (t : PageTracker) (size : ℕ) : Except Err ℕ × PageTracker :=
  if size = 0 then (.ok 0, t)
  else
    let pageSize := t.allocator.pageSize
    if size > sizeMax - (pageSize - 1) then (.error .badAlloc, t)
    else
      let pagesNeeded := wrap (size + pageSize - 1) / pageSize
      match t.allocator.allocatePages pagesNeeded with
      | (.error e, s) => (.error e, { t with allocator := s })
      | (.ok pages, s) =>
        (.ok t.nextHandle,
          { allocator := s
            allocations := t.allocations.insert t.nextHandle ⟨size, pages, 0⟩
            nextHandle := wrap (t.nextHandle + 1) })

def record (t : PageTracker) (size : ℕ) (pages : List ℕ) : PageTracker :=
  { t with
    allocations := t.allocations.insert t.nextHandle ⟨size, pages, 0⟩
    nextHandle := wrap (t.nextHandle + 1) }

/-- The entry of `handle` removed and its pages returned to the pool. -/
def release (t : PageTracker) (handle : ℕ) (a : Allocation) : PageTracker :=
  { t with
    allocator := t.allocator.freePages a.pages
    allocations := t.allocations.erase handle }

def free (t : PageTracker) (handle : ℕ) (ownerId : ℕ) : Except Err Unit × PageTracker :=
  match t.checkOwnership handle ownerId with
  | .error e => (.error e, t)
  | .ok a => (.ok (), t.release handle a)

/-- The copying loop of `write` from byte `dataIdx` of `data` on. -/
def writeLoop (pages : List ℕ) (offset : ℕ) (data : List Byte) :
    ℕ → ℕ → SlabAllocator → Except Err Unit × SlabAllocator
  | 0, _, s => (.ok (), s)
  | fuel + 1, dataIdx, s =>
    if dataIdx < data.length then
      let logicalPos := wrap (offset + dataIdx)
      let pageIdx := logicalPos / s.pageSize
      let offsetInPage := logicalPos % s.pageSize
      let bytesToWrite := min (data.length - dataIdx) (s.pageSize - offsetInPage)
      match pages[pageIdx]? with
      | none => (.error .undefinedBehaviour, s)
      | some p =>
        match s.writePage p offsetInPage (slice data dataIdx bytesToWrite) with
        | (.error e, s) => (.error e, s)
        | (.ok (), s) => writeLoop pages offset data fuel (dataIdx + bytesToWrite) s
    else (.ok (), s)

def write (t : PageTracker) (handle : ℕ) (offset : ℕ) (data : List Byte) (ownerId : ℕ) :
    Except Err Unit × PageTracker :=
  if data.length = 0 then (.ok (), t)
  else
    match t.checkOwnership handle ownerId with
    | .error e => (.error e, t)
    | .ok a =>
      if offset > a.totalSize ∨ data.length > a.totalSize - offset then
        (.error (.outOfRange "Write exceeds allocation size"), t)
      else
        -- every round copies at least one byte, so `data.length` rounds are enough
        let r := writeLoop a.pages offset data data.length 0 t.allocator
        (r.1, { t with allocator := r.2 })

/-- The copying loop of `read`, with the bytes copied so far. -/
def readLoop (s : SlabAllocator) (pages : List ℕ) (offset size : ℕ) :
    ℕ → List Byte → Except Err (List Byte)
  | 0, out => .ok out
  | fuel + 1, out =>
    if out.length < size then
      let logicalPos := wrap (offset + out.length)
      let pageIdx := logicalPos / s.pageSize
      let offsetInPage := logicalPos % s.pageSize
      let bytesToRead := min (size - out.length) (s.pageSize - offsetInPage)
      match pages[pageIdx]? with
      | none => .error .undefinedBehaviour
      | some p =>
        match s.readPage p offsetInPage bytesToRead with
        | .error e => .error e
        | .ok bytes => readLoop s pages offset size fuel (out ++ bytes)
    else .ok out

def read (t : PageTracker) (handle : ℕ) (offset size : ℕ) (ownerId : ℕ) :
    Except Err (List Byte) :=
  if size = 0 then .ok []
  else
    match t.checkOwnership handle ownerId with
    | .error e => .error e
    | .ok a =>
      if offset > a.totalSize ∨ size > a.totalSize - offset then
        .error (.outOfRange "Read exceeds allocation size")
      else readLoop t.allocator a.pages offset size size []

def assignOwner (t : PageTracker) (handle : ℕ) (ownerId : ℕ) : PageTracker :=
  match t.allocations.lookup handle with
  | none => t
  | some a => { t with allocations := t.allocations.insert handle { a with ownerId } }

/-- One round of the sweep of `free_all_for_owner`. -/
def sweep (ownerId : ℕ) (t : PageTracker) (handle : ℕ) : PageTracker :=
  match t.allocations.lookup handle with
  | none => t
  | some a => if a.ownerId = ownerId then t.release handle a else t

def freeAllForOwner (t : PageTracker) (ord : IterOrder ℕ) (ownerId : ℕ) : PageTracker :=
  if ownerId = 0 then t else (ord.order t.allocations.keys).foldl (sweep ownerId) t

end PageTracker

end MemInfo
