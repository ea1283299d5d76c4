import Mathlib.Logic.Function.Basic
import MemInfo.Common.Types
import MemInfo.Lib.Dict
import MemInfo.Lib.Window

/-! # A map from handles to byte arrays

What memoryd is for: handles name owned byte arrays that start out as zeros and
keep what is written to them. The page tracker is compared with this store.
-/

namespace MemInfo

open Lib

@[ext] structure Block where
  owner : ℕ
  bytes : List Byte
  deriving DecidableEq, Repr

/-- An unowned block may be used by everyone, an owned one by its owner. -/
def Block.Permits (b : Block) (ownerId : ℕ) : Prop := b.owner = 0 ∨ b.owner = ownerId

instance (b : Block) (ownerId : ℕ) : Decidable (b.Permits ownerId) :=
  inferInstanceAs (Decidable (b.owner = 0 ∨ b.owner = ownerId))

/-- The calls of a page tracker. The sweep of an owner visits the handles in some order. -/
inductive Op where
  | allocate (size : ℕ)
  | assignOwner (handle : ℕ) (ownerId : ℕ)
  | write (handle : ℕ) (offset : ℕ) (data : List Byte) (ownerId : ℕ)
  | read (handle : ℕ) (offset size ownerId : ℕ)
  | free (handle : ℕ) (ownerId : ℕ)
  | freeAllForOwner (ord : IterOrder ℕ) (ownerId : ℕ)

inductive Reply where
  | handle (h : ℕ)
  | bytes (data : List Byte)
  | done
  | threw (e : Err)
  deriving DecidableEq, Repr

abbrev ByteMap := ℕ → Option Block

namespace ByteMap

/-- The error of an access of `n` bytes at `offset`, if it is refused. -/
def refusal (m : ByteMap) (h : ℕ) (offset n o : ℕ) (what : String) : Option Err :=
  match m h with
  | none => some (.invalidArgument "Invalid handle")
  | some b =>
    if ¬ b.Permits o then some .permissionDenied
    else if offset + n ≤ b.bytes.length then none
    else some (.outOfRange what)

def bytes (m : ByteMap) (h : ℕ) : List Byte := ((m h).map Block.bytes).getD []

def setBytes (m : ByteMap) (h : ℕ) (bs : List Byte) : ByteMap :=
  Function.update m h ((m h).map fun b => { b with bytes := bs })

/-- What the store may answer to a call. Only the allocation is left open: it may be
refused, or it binds a handle that was not live to a block of zeros. -/
def Step (m : ByteMap) : Op → Reply → ByteMap → Prop
  | .allocate size, r, m' =>
    if size = 0 then r = .handle 0 ∧ m' = m
    else (r = .threw .badAlloc ∧ m' = m) ∨ ∃ h, h ≠ 0 ∧ m h = none ∧ r = .handle h ∧
      m' = Function.update m h (some ⟨0, List.replicate size 0⟩)
  | .assignOwner h o, r, m' =>
    r = .done ∧ m' = Function.update m h ((m h).map fun b => { b with owner := o })
  | .write h offset data o, r, m' =>
    if data = [] then r = .done ∧ m' = m
    else match m.refusal h offset data.length o "Write exceeds allocation size" with
      | some e => r = .threw e ∧ m' = m
      | none => r = .done ∧ m' = m.setBytes h (splice (m.bytes h) offset data)
  | .read h offset size o, r, m' =>
    m' = m ∧
      if size = 0 then r = .bytes []
      else match m.refusal h offset size o "Read exceeds allocation size" with
        | some e => r = .threw e
        | none => r = .bytes (slice (m.bytes h) offset size)
  | .free h o, r, m' =>
    match m.refusal h 0 0 o "" with
      | some e => r = .threw e ∧ m' = m
      | none => r = .done ∧ m' = Function.update m h none
  | .freeAllForOwner _ o, r, m' =>
    r = .done ∧ m' = if o = 0 then m else fun k => (m k).filter fun b => b.owner ≠ o

end ByteMap

end MemInfo
