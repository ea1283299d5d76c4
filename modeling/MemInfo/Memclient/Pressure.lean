import MemInfo.Memclient.Footprint
import MemInfo.Memclient.LruCacheRuns

/-! # The callback for memory pressure

The callback asks `evict_if_needed` for as many bytes as it wants to get rid of. What
`evict_if_needed` takes is the room that a new block needs: it evicts until so many bytes would
fit under the limit, and nothing if they do already.
-/

namespace MemInfo

open Lib Prog

namespace LRUCache

variable {c c' : LRUCache} {size : ℕ}

theorem inv_after (maxBytes : ℕ) (ops : List CacheOp) : (after maxBytes ops).Inv :=
  (recorded_after maxBytes ops).inv

theorem Inv.currentSize_eq (hi : c.Inv) : c.currentSize = wrap (bytesOf c.list) := hi.bytes

/-- Besides these blocks, `size` more bytes are within the limit, in the arithmetic of
`needs_eviction`. -/
def LeavesRoom (maxBytes size : ℕ) (l : List CacheNode) : Prop :=
  wrap (bytesOf l + size) ≤ maxBytes

/-- `l'` is the longest run of blocks at the front of `l` that leaves room for `size` bytes. -/
structure LongestFit (maxBytes size : ℕ) (l l' : List CacheNode) : Prop where
  kept : l' <+: l
  room : LeavesRoom maxBytes size l'
  longest : ∀ l'', l'' <+: l → LeavesRoom maxBytes size l'' → l'' <+: l'

theorem LongestFit.unique {maxBytes : ℕ} {l l₁ l₂ : List CacheNode}
    (h₁ : LongestFit maxBytes size l l₁) (h₂ : LongestFit maxBytes size l l₂) : l₁ = l₂ :=
  (h₂.longest l₁ h₁.kept h₁.room).eq_of_length_le (h₁.longest l₂ h₂.kept h₂.room).length_le

theorem Inv.needsEviction_iff (hi : c.Inv) :
    c.needsEviction size = false ↔ LeavesRoom c.maxBytes size c.list := by
  have hwrap : wrap (c.currentBytes + size) = wrap (bytesOf c.list + size) := by
    rw [hi.bytes, total_eq_bytesOf]
    exact Nat.mod_add_mod _ _ _
  simp [needsEviction, LeavesRoom, hwrap]

structure Shrunk (size : ℕ) (pressure : Bool) (c c' : LRUCache) : Prop where
  inv : c'.Inv
  maxBytes : c'.maxBytes = c.maxBytes
  kept : c'.list <+: c.list
  stopped : c'.list = [] ∨ pressure = false ∧ LeavesRoom c.maxBytes size c'.list
  longest : pressure = false → ∀ l, l <+: c.list → LeavesRoom c.maxBytes size l → l <+: c'.list

theorem Inv.shrunk_self {pressure : Bool} (hi : c.Inv)
    (h : c.list = [] ∨ pressure = false ∧ LeavesRoom c.maxBytes size c.list) :
    Shrunk size pressure c c := by
  constructor
  · exact hi
  · rfl
  · exact List.prefix_rfl
  · exact h
  · exact fun _ l hl _ => hl

theorem Shrunk.popBack {pressure : Bool} (h : Shrunk size pressure c.popBack c') (hi : c.Inv)
    (hneed : c.needsEviction size = true ∨ pressure = true) : Shrunk size pressure c c' := by
  have hmax := c.maxBytes_popBack
  have hlist := c.popBack_list
  constructor
  · exact h.inv
  · exact h.maxBytes.trans hmax
  · exact h.kept.trans (hlist ▸ c.list.dropLast_prefix)
  · exact hmax ▸ h.stopped
  · intro hp l hl hroom
    apply h.longest hp l _ (hmax ▸ hroom)
    have hneed : c.needsEviction size = true := hneed.resolve_right (by simp [hp])
    rw [hlist]
    by_cases hnil : c.list = []
    · rwa [hnil] at hl ⊢
    rw [← List.dropLast_append_getLast hnil, List.prefix_concat_iff] at hl
    rcases hl with rfl | hl
    · rw [List.dropLast_append_getLast hnil, ← hi.needsEviction_iff, hneed] at hroom
      cases hroom
    · exact hl

end LRUCache

namespace MemoryClient

variable {ν : Type} {net : (o : NetOp) → ν → o.Res → ν → Prop} {s : Client × ν}
  {pressure : Bool}

def toEvict (currentSize : ℕ) : ℕ := max (currentSize / 2) 1048576

/-- The callback of the memory monitor, which has read the size of the cache. -/
def pressureCallback (currentSize : ℕ) : ClientM Unit := evictIfNeeded (toEvict currentSize)

def OffCache : Effect → Prop
  | .mem (.cacheGet _) => False
  | .mem (.cachePut _ _ _) => False
  | .mem (.cacheRemove _) => False
  | .mem .cacheEvictOne => False
  | _ => True

theorem OffCache.cache {o : Effect} {r : o.Res} {s' : Client × ν} (ho : OffCache o)
    (he : clientEnv net o s r s') : s'.1.cache = s.1.cache := by
  match o with
  | .net o => exact congrArg Client.cache he.1
  | .mem o =>
    have hc : s'.1 = (s.1.perform o).2 := congrArg Prod.snd he.1
    rw [hc]
    cases o with
    | cacheGet => exact ho.elim
    | cachePut => exact ho.elim
    | cacheRemove => exact ho.elim
    | cacheEvictOne => exact ho.elim
    | _ => rfl

theorem offCache_background : Background OffCache := ⟨trivial, fun _ _ => trivial⟩

theorem wp_rollback (evicted : CacheBlock) (e : Err) :
    wp (clientEnv net) (fun _ _ => True) (rollback evicted e) (fun out _ => out ≠ .ok ()) s := by
  apply wp_bind.mpr
  apply wp_iff.mpr
  refine ⟨always_true, fun out s' _ => ?_⟩
  cases out with
  | ok => exact ⟨trivial, fun _ _ _ => nofun⟩
  | threw => exact nofun
  | aborted => exact nofun

theorem wp_pushOut_cache (evicted : CacheBlock) :
    wp (clientEnv net) (fun _ _ => True) (pushOut evicted)
      (fun out s' => out = .ok () → s'.1.cache = s.1.cache) s := by
  apply wp_tryCatch.mpr
  refine wp_mono (Confined.wp_invariant (P := OffCache) (A := fun _ => True)
    (I := fun s' => s'.1.cache = s.1.cache) ?_ (fun _ _ _ _ => trivial)
    (fun o s₁ r s₂ ho hi he => (ho.cache he).trans hi) rfl) ?_
  · apply Confined.bind (confined_allocateRemote offCache_background (fun _ _ _ => trivial)
      (fun _ _ => trivial) (fun _ _ => trivial) _ _)
    intro _
    apply Confined.bind (confined_perform trivial)
    intro r
    cases r with
    | none => trivial
    | some alloc => exact confined_writeRemote offCache_background (fun _ _ _ _ _ _ => trivial) _
  intro out s' hs
  cases out with
  | ok => exact fun _ => hs
  | aborted => rintro ⟨⟩
  | threw e => exact wp_mono (wp_rollback evicted e) fun _ _ hne hok => absurd hok hne

theorem wp_evictRounds_cache {size rounds : ℕ} (hi : s.1.cache.Inv) :
    wp (clientEnv net) (fun _ _ => True) (evictRounds size pressure rounds)
      (fun out s' => out = .ok () → LRUCache.Shrunk size pressure s.1.cache s'.1.cache) s := by
  induction rounds generalizing s with
  | zero => rintro ⟨⟩
  | succ rounds ih =>
    apply wp_bind_mem trivial
    change wp _ _ (if (s.1.cache.needsEviction size || pressure) = true then _ else _) _ s
    split_ifs with hcond
    swap
    · rw [Bool.or_eq_true, not_or, Bool.not_eq_true, Bool.not_eq_true] at hcond
      exact fun _ => hi.shrunk_self (.inr ⟨hcond.2, hi.needsEviction_iff.mp hcond.1⟩)
    apply wp_bind_mem trivial
    obtain ⟨hnil, he⟩ | ⟨n, he, hrem⟩ := s.1.cache.popBack_cases
    · rw [Client.perform, he]
      exact fun _ => hi.shrunk_self (.inl hnil)
    · rw [Client.perform, he]
      apply wp_bind.mpr
      apply wp_mono (wp_pushOut_cache n.block)
      intro out s' hs
      cases out with
      | threw => rintro ⟨⟩
      | aborted => rintro ⟨⟩
      | ok =>
        have hcache : s'.1.cache = s.1.cache.popBack := hs rfl
        apply wp_mono (ih (hcache ▸ hrem.inv hi))
        intro out s'' hshrunk hok
        exact (hcache ▸ hshrunk hok).popBack hi (by simpa using hcond)

/-- The callback for memory pressure frees as much as it is meant to exactly if the system
reports little memory, or if the blocks that leave the room that it asks for are few enough. -/
theorem pressure_frees_iff {c : Client} {w : ν} (available maxLocalBytes : ℕ) (ops : List CacheOp)
    (hcache : c.cache = LRUCache.after maxLocalBytes ops)
    (havailable : ∀ r w', net .availableBytes w r w' → r = available)
    (hrun : Runs (clientEnv net) (pressureCallback c.cache.currentSize) (c, w) (.ok ()) s) :
    s.1.cache.currentSize + min c.cache.currentSize (toEvict c.cache.currentSize) ≤
        c.cache.currentSize ↔
      (0 < available ∧ available < 100 * 1024 * 1024) ∨
      ∀ l, LRUCache.LongestFit c.cache.maxBytes (toEvict c.cache.currentSize) c.cache.list l →
        wrap (LRUCache.bytesOf l) + min c.cache.currentSize (toEvict c.cache.currentSize) ≤
          c.cache.currentSize := by
  have hi : c.cache.Inv := hcache ▸ LRUCache.inv_after _ _
  have hspec : wp (clientEnv net) (fun _ _ => True) (pressureCallback c.cache.currentSize)
      (fun out s' => out = .ok () → LRUCache.Shrunk (toEvict c.cache.currentSize)
        (decide (available > 0 ∧ available < 100 * 1024 * 1024)) c.cache s'.1.cache) (c, w) := by
    apply wp_bind_net trivial
    intro r w' hr
    obtain rfl := havailable r w' hr
    apply wp_bind_mem trivial
    exact wp_evictRounds_cache (s := (c, w')) hi
  have hshrunk := (wp_iff.mp hspec).2 _ _ hrun rfl
  have hempty (h : s.1.cache.list = []) : s.1.cache.currentSize = 0 := by
    rw [hshrunk.inv.currentSize_eq, h]
    rfl
  have hsize := hshrunk.inv.currentSize_eq
  have hmin := Nat.min_le_left c.cache.currentSize (toEvict c.cache.currentSize)
  by_cases hlow : available > 0 ∧ available < 100 * 1024 * 1024
  · have hnil := hshrunk.stopped.resolve_right (by simp [hlow])
    apply iff_of_true _ (.inl hlow)
    rw [hempty hnil]
    omega
  · rw [decide_eq_false hlow] at hshrunk
    rw [or_iff_right hlow]
    rcases hshrunk.stopped with hnil | ⟨-, hroom⟩
    · -- nothing is left: the run that leaves room, if there is one, is empty
      constructor
      · intro h l hl
        have hsub := hshrunk.longest rfl l hl.kept hl.room
        rw [hnil, List.prefix_nil] at hsub
        rw [hsub]
        rwa [hsize, hnil] at h
      · intro _
        rw [hempty hnil]
        omega
    · have hfit : LRUCache.LongestFit c.cache.maxBytes (toEvict c.cache.currentSize)
          c.cache.list s.1.cache.list := ⟨hshrunk.kept, hroom, hshrunk.longest rfl⟩
      constructor
      · intro h l hl
        rw [hl.unique hfit, ← hsize]
        exact h
      · intro h
        rw [hsize]
        exact h _ hfit

/-- One peer that takes everything, and a monitor that does not know the memory. -/
def willingNet : (o : NetOp) → Unit → o.Res × Unit
  | .availableBytes, _ => (0, ())
  | .connectedPeers, _ => ([0], ())
  | .waitForConnectedPeer, _ => (true, ())
  | .candidates, _ => ([0], ())
  | .peer _, _ => ({ connected := true }, ())
  | .call _ _, _ => (.response { handle := 1 }, ())

def oneByteOf (maxLocalBytes : ℕ) : Client :=
  { Client.new maxLocalBytes with cache := LRUCache.after maxLocalBytes [.put 1 [7] true] }

theorem runs_willingNet (maxLocalBytes : ℕ)
    (h : (eval (clientHandler willingNet) (pressureCallback 1) (oneByteOf maxLocalBytes, ())).1 =
      .ok ()) :
    Runs (clientEnv fun o w r w' => (r, w') = willingNet o w) (pressureCallback 1)
      (oneByteOf maxLocalBytes, ()) (.ok ())
      (eval (clientHandler willingNet) (pressureCallback 1) (oneByteOf maxLocalBytes, ())).2 := by
  have henv (o : Effect) (s : Client × Unit) : clientEnv (fun o w r w' => (r, w') = willingNet o w)
      o s (clientHandler willingNet o s).1 (clientHandler willingNet o s).2 :=
    clientEnv_handler (fun _ _ => rfl) o s
  have hrun := (runs_eval (I := fun _ => True) (fun o s _ => ⟨henv o s, trivial⟩)
    (pressureCallback 1) (s := (oneByteOf maxLocalBytes, ())) trivial).1
  rwa [h] at hrun

/-- In a full cache of one byte no run of blocks leaves the room. -/
theorem pressure_frees_full_cache :
    ∃ s, Runs (clientEnv fun o w r w' => (r, w') = willingNet o w)
        (pressureCallback (oneByteOf 1).cache.currentSize) (oneByteOf 1, ()) (.ok ()) s ∧
      s.1.cache.currentSize + 1 ≤ 1 := by
  have hrun := runs_willingNet 1 (by decide)
  refine ⟨_, hrun, ?_⟩
  apply (pressure_frees_iff 0 1 [.put 1 [7] true] rfl (fun _ _ h => congrArg Prod.fst h) hrun).mpr
  refine .inr fun l hl => ?_
  have hbytes : LRUCache.bytesOf l ≤ 1 := LRUCache.bytesOf_sublist hl.kept.sublist
  have hroom : wrap (LRUCache.bytesOf l + 1048576) ≤ 1 := hl.room
  rw [wrap_of_lt (by omega)] at hroom
  omega

/-- In a cache of 4 MiB the callback completes and the byte is still there. -/
theorem nothing_evicted :
    ∃ s, Runs (clientEnv fun o w r w' => (r, w') = willingNet o w)
        (pressureCallback (oneByteOf 4194304).cache.currentSize) (oneByteOf 4194304, ())
        (.ok ()) s ∧
      ¬ (s.1.cache.currentSize + min (oneByteOf 4194304).cache.currentSize
          (toEvict (oneByteOf 4194304).cache.currentSize) ≤
        (oneByteOf 4194304).cache.currentSize) := by
  exact ⟨_, runs_willingNet 4194304 (by decide), by decide⟩

end MemoryClient

end MemInfo
