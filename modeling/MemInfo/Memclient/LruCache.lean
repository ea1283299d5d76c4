import Mathlib.Data.List.Basic
import MemInfo.Common.Types
import MemInfo.Lib.Dict

/-! # The local cache

`LRUCache` keeps its blocks in a list, most recently used first, and a map from handles
to list iterators. A node of the list has an identity, which is what an iterator is.
-/

namespace MemInfo

open Lib

structure CacheBlock where
  handle : ℕ
  data : List Byte
  dirty : Bool
  deriving DecidableEq, Repr

structure CacheNode where
  id : ℕ
  block : CacheBlock
  deriving DecidableEq, Repr

structure LRUCache where
  maxBytes : ℕ
  currentBytes : ℕ
  list : List CacheNode
  map : Dict ℕ ℕ
  -- the identity of the next node
  nextId : ℕ

namespace LRUCache

def new (maxBytes : ℕ) : LRUCache := ⟨maxBytes, 0, [], ∅, 0⟩

/-- The node that `map_` has for a handle. -/
def find (c : LRUCache) (handle : ℕ) : Option CacheNode :=
  (c.map.lookup handle).bind fun id => c.list.find? fun n => n.id = id

/-- Erase the node of a handle, if it has one, from the list and the map. -/
def detach (c : LRUCache) (handle : ℕ) : LRUCache :=
  match c.find handle with
  | none => c
  | some n =>
    { c with
      currentBytes := wrapSub c.currentBytes n.block.data.length
      list := c.list.filter fun m => m.id ≠ n.id
      map := c.map.erase handle }

def popBack (c : LRUCache) : LRUCache :=
  match c.list.getLast? with
  | none => c
  | some n =>
    { c with
      currentBytes := wrapSub c.currentBytes n.block.data.length
      list := c.list.dropLast
      map := c.map.erase n.block.handle }

/-- The loop of `put`: blocks are dropped from the back until `size` more bytes fit. Each
round drops a node, so the number of nodes bounds the rounds. -/
def makeRoom (size : ℕ) : ℕ → LRUCache → LRUCache
  | 0, c => c
  | rounds + 1, c =>
    if wrap (c.currentBytes + size) > c.maxBytes ∧ c.list ≠ [] then makeRoom size rounds c.popBack
    else c

def pushFront (c : LRUCache) (block : CacheBlock) : LRUCache :=
  { c with
    currentBytes := wrap (c.currentBytes + block.data.length)
    list := ⟨c.nextId, block⟩ :: c.list
    map := c.map.insert block.handle c.nextId
    nextId := c.nextId + 1 }

def put (c : LRUCache) (handle : ℕ) (data : List Byte) (dirty : Bool := true) :
    Bool × LRUCache :=
  if data.length > c.maxBytes then (false, c)
  else
    let c := c.detach handle
    (true, (c.makeRoom data.length c.list.length).pushFront ⟨handle, data, dirty⟩)

def get (c : LRUCache) (handle : ℕ) : Option (List Byte) × LRUCache :=
  match c.find handle with
  | none => (none, c)
  | some n => (some n.block.data, { c with list := n :: c.list.filter fun m => m.id ≠ n.id })

def remove (c : LRUCache) (handle : ℕ) : Bool × LRUCache :=
  ((c.find handle).isSome, c.detach handle)

def evictOne (c : LRUCache) : Option CacheBlock × LRUCache :=
  (c.list.getLast?.map CacheNode.block, c.popBack)

def currentSize (c : LRUCache) : ℕ := c.currentBytes

def maxSize (c : LRUCache) : ℕ := c.maxBytes

def count (c : LRUCache) : ℕ := c.list.length

def needsEviction (c : LRUCache) (additionalBytes : ℕ) : Bool :=
  wrap (c.currentBytes + additionalBytes) > c.maxBytes

section Basic

variable {c : LRUCache} {handle : ℕ} {n : CacheNode}

theorem mem_list_of_find (h : c.find handle = some n) : n ∈ c.list := by
  obtain ⟨id, -, hf⟩ := Option.bind_eq_some_iff.mp h
  exact List.mem_of_find?_eq_some hf

@[simp] theorem maxBytes_detach (c : LRUCache) (handle : ℕ) :
    (c.detach handle).maxBytes = c.maxBytes := by
  unfold detach
  split <;> rfl

@[simp] theorem maxBytes_popBack (c : LRUCache) : c.popBack.maxBytes = c.maxBytes := by
  unfold popBack
  split <;> rfl

@[simp] theorem maxBytes_makeRoom (size rounds : ℕ) (c : LRUCache) :
    (c.makeRoom size rounds).maxBytes = c.maxBytes := by
  induction rounds generalizing c with
  | zero => rfl
  | succ rounds ih =>
    unfold makeRoom
    split_ifs
    · rw [ih, maxBytes_popBack]
    · rfl

@[simp] theorem maxBytes_put (c : LRUCache) (handle : ℕ) (data : List Byte) (dirty : Bool) :
    (c.put handle data dirty).2.maxBytes = c.maxBytes := by
  unfold put
  split_ifs
  · rfl
  · simp [pushFront]

@[simp] theorem maxBytes_get (c : LRUCache) (handle : ℕ) :
    (c.get handle).2.maxBytes = c.maxBytes := by
  unfold get
  split <;> rfl

theorem detach_subset (c : LRUCache) (handle : ℕ) : (c.detach handle).list ⊆ c.list := by
  unfold detach
  split
  · exact List.Subset.refl _
  · exact List.filter_subset_self _

theorem popBack_subset (c : LRUCache) : c.popBack.list ⊆ c.list := by
  unfold popBack
  split
  · exact List.Subset.refl _
  · exact List.dropLast_subset _

theorem makeRoom_subset (size rounds : ℕ) (c : LRUCache) :
    (c.makeRoom size rounds).list ⊆ c.list := by
  induction rounds generalizing c with
  | zero => exact List.Subset.refl _
  | succ rounds ih =>
    unfold makeRoom
    split_ifs
    · exact List.Subset.trans (ih _) c.popBack_subset
    · exact List.Subset.refl _

theorem get_subset (c : LRUCache) (handle : ℕ) : (c.get handle).2.list ⊆ c.list := by
  unfold get
  split
  · exact List.Subset.refl _
  · next n h => exact List.cons_subset.mpr ⟨mem_list_of_find h, List.filter_subset_self _⟩

def Sized (c : LRUCache) : Prop := ∀ n ∈ c.list, n.block.data.length ≤ c.maxBytes

theorem sized_new (maxBytes : ℕ) : (new maxBytes).Sized := by simp [Sized, new]

theorem Sized.mono {c' : LRUCache} (h : c.Sized) (hs : c'.list ⊆ c.list)
    (hm : c'.maxBytes = c.maxBytes) : c'.Sized := fun n hn => hm ▸ h n (hs hn)

theorem Sized.put (h : c.Sized) (handle : ℕ) (data : List Byte) (dirty : Bool) :
    (c.put handle data dirty).2.Sized := by
  intro n hn
  rw [maxBytes_put]
  unfold LRUCache.put at hn
  split_ifs at hn with hlen
  · exact h n hn
  · rcases List.mem_cons.mp hn with rfl | hn
    · exact Nat.not_lt.mp hlen
    · exact h n (detach_subset _ _ (makeRoom_subset _ _ _ hn))

end Basic

end LRUCache

end MemInfo
