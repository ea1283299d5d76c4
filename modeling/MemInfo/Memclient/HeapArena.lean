import Mathlib.Data.Nat.Basic
import MemInfo.Common.Types
import MemInfo.Lib.OrdMap

/-! # The heap arena

A first-fit allocator over a byte range that somebody else owns. Blocks are kept by
their offset from the base; freed blocks are joined with their free neighbours.
Pointers are addresses, and the null pointer is address 0.
-/

namespace MemInfo

open Lib

structure HeapArena where
  base : ℕ
  size : ℕ
  freeBlocks : OrdMap ℕ ℕ
  liveBlocks : OrdMap ℕ ℕ
  inUseBytes : ℕ

/-- `align_up`, with the complement of the mask taken in 64 bits. -/
def alignUp (value alignment : ℕ) : ℕ :=
  let mask := wrapSub alignment 1
  wrap (value + mask) &&& (sizeMax - mask)

namespace HeapArena

def new (base size : ℕ) : HeapArena where
  base := base
  size := size
  freeBlocks := if base ≠ 0 ∧ size ≠ 0 then OrdMap.empty.emplace 0 size else .empty
  liveBlocks := .empty
  inUseBytes := 0

/-- A remainder of a block goes back to the free blocks unless it is empty. -/
def addFree (free : OrdMap ℕ ℕ) (start len : ℕ) : OrdMap ℕ ℕ :=
  if len > 0 then free.emplace start len else free

/-- The loop of `allocate` over the free blocks that are left to try. -/
def firstFit (a : HeapArena) (bytes alignment : ℕ) : List (ℕ × ℕ) → ℕ × HeapArena
  | [] => (0, a)
  | (blockStart, blockLen) :: rest =>
    let aligned := wrapSub (alignUp (wrap (a.base + blockStart)) alignment) a.base
    let lead := wrapSub aligned blockStart
    if lead > blockLen ∨ blockLen - lead < bytes then firstFit a bytes alignment rest
    else
      let trail := blockLen - lead - bytes
      let free := addFree (a.freeBlocks.erase blockStart) blockStart lead
      (wrap (a.base + aligned),
        { a with
          freeBlocks := addFree free (wrap (aligned + bytes)) trail
          liveBlocks := a.liveBlocks.emplace aligned bytes
          inUseBytes := wrap (a.inUseBytes + bytes) })

def allocate (a : HeapArena) (bytes alignment : ℕ) : ℕ × HeapArena :=
  if bytes = 0 ∨ a.base = 0 then (0, a)
  else if alignment = 0 ∨ alignment &&& wrapSub alignment 1 ≠ 0 then (0, a)
  else a.firstFit bytes alignment a.freeBlocks.entries

def owns (a : HeapArena) (ptr : ℕ) : Bool := ptr ≥ a.base ∧ ptr < wrap (a.base + a.size)

/-- `insert_free`: join with the block that starts where this one ends. -/
def mergeNext (free : OrdMap ℕ ℕ) (offset length : ℕ) : OrdMap ℕ ℕ × ℕ :=
  match free.find (wrap (offset + length)) with
  | some n => (free.erase (wrap (offset + length)), wrap (length + n))
  | none => (free, length)

/-- `insert_free`: join with the block that ends where this one starts. -/
def mergePrev (free : OrdMap ℕ ℕ) (offset length : ℕ) : OrdMap ℕ ℕ × ℕ × ℕ :=
  match free.before offset with
  | some prev =>
    if wrap (prev.1 + prev.2) = offset then (free.erase prev.1, prev.1, wrap (length + prev.2))
    else (free, offset, length)
  | none => (free, offset, length)

def insertFree (free : OrdMap ℕ ℕ) (offset length : ℕ) : OrdMap ℕ ℕ :=
  let r := mergeNext free offset length
  let r' := mergePrev r.1 offset r.2
  r'.1.emplace r'.2.1 r'.2.2

def deallocate (a : HeapArena) (ptr : ℕ) : HeapArena :=
  if ptr = 0 ∨ ¬ a.owns ptr then a
  else
    let offset := wrapSub ptr a.base
    match a.liveBlocks.find offset with
    | none => a
    | some length =>
      { a with
        freeBlocks := insertFree a.freeBlocks offset length
        liveBlocks := a.liveBlocks.erase offset
        inUseBytes := wrapSub a.inUseBytes length }

def blockSize (a : HeapArena) (ptr : ℕ) : ℕ :=
  if ptr = 0 ∨ ¬ a.owns ptr then 0
  else (a.liveBlocks.find (wrapSub ptr a.base)).getD 0

end HeapArena

inductive ArenaOp where
  | allocate (bytes alignment : ℕ)
  | deallocate (ptr : ℕ)

def HeapArena.step (a : HeapArena) : ArenaOp → ℕ × HeapArena
  | .allocate bytes alignment => a.allocate bytes alignment
  | .deallocate ptr => (0, a.deallocate ptr)

end MemInfo
