import Mathlib.Algebra.Order.BigOperators.Group.List
import Mathlib.Algebra.Order.Group.Nat
import Mathlib.Data.List.Induction
import Mathlib.Data.List.Infix
import MemInfo.Lib.Run
import MemInfo.Memclient.LruCacheInvariant

/-! # Runs of the cache

After any calls the list, the map and the byte count of the cache agree, and a block that is put
drives out as few others as possible. The list is in the order in which the handles were last
used.
-/

namespace MemInfo

open Lib

inductive CacheOp where
  | put (handle : ℕ) (data : List Byte) (dirty : Bool)
  | get (handle : ℕ)
  | remove (handle : ℕ)
  | evictOne
  deriving DecidableEq, Repr

inductive CacheReply where
  | stored (accepted : Bool)
  | found (data : Option (List Byte))
  | removed (present : Bool)
  | evicted (block : Option CacheBlock)
  deriving DecidableEq, Repr

namespace LRUCache

def step (c : LRUCache) : CacheOp → CacheReply × LRUCache
  | .put h data dirty => (.stored (c.put h data dirty).1, (c.put h data dirty).2)
  | .get h => (.found (c.get h).1, (c.get h).2)
  | .remove h => (.removed (c.remove h).1, (c.remove h).2)
  | .evictOne => (.evicted c.evictOne.1, c.evictOne.2)

def after (maxBytes : ℕ) (ops : List CacheOp) : LRUCache := (run step (new maxBytes) ops).2

theorem after_concat (maxBytes : ℕ) (ops : List CacheOp) (op : CacheOp) :
    after maxBytes (ops ++ [op]) = ((after maxBytes ops).step op).2 := by
  rw [after, run_append_snd]
  rfl

def bytesOf (l : List CacheNode) : ℕ := (l.map fun n => n.block.data.length).sum

section Room

variable {c : LRUCache} {h size : ℕ} {data : List Byte} {dirty : Bool}

theorem total_eq_bytesOf (c : LRUCache) : c.total = bytesOf c.list := rfl

/-- `l'` is what is left of `l` when the shortest run at its end is dropped that makes room for
`size` bytes. -/
structure Trimmed (maxBytes size : ℕ) (l l' : List CacheNode) : Prop where
  kept : l' <+: l
  fits : bytesOf l' + size ≤ maxBytes
  longest : ∀ l'', l'' <+: l → bytesOf l'' + size ≤ maxBytes → l'' <+: l'

theorem popBack_list (c : LRUCache) : c.popBack.list = c.list.dropLast := by
  unfold popBack
  split
  next h => rw [List.getLast?_eq_none_iff.mp h]; rfl
  next => rfl

theorem Trimmed.self {maxBytes : ℕ} {l : List CacheNode} (h : bytesOf l + size ≤ maxBytes) :
    Trimmed maxBytes size l l :=
  ⟨List.prefix_rfl, h, fun _ hp _ => hp⟩

theorem Trimmed.drop {maxBytes : ℕ} {l l' : List CacheNode} (hne : l ≠ [])
    (hfull : maxBytes < bytesOf l + size) (ht : Trimmed maxBytes size l.dropLast l') :
    Trimmed maxBytes size l l' := by
  refine ⟨ht.kept.trans l.dropLast_prefix, ht.fits, fun l'' hp hfit => ht.longest l'' ?_ hfit⟩
  rw [← List.dropLast_append_getLast hne, List.prefix_concat_iff] at hp
  rcases hp with rfl | hp
  · rw [List.dropLast_append_getLast hne] at hfit
    omega
  · exact hp

theorem Inv.trimmed_makeRoom (hi : c.Inv) (hrange : c.total + size < 2 ^ 64)
    (hsize : size ≤ c.maxBytes) {rounds : ℕ} (hrounds : c.list.length ≤ rounds) :
    Trimmed c.maxBytes size c.list (c.makeRoom size rounds).list := by
  induction rounds generalizing c with
  | zero =>
    have hnil : c.list = [] := List.length_eq_zero_iff.mp (Nat.le_zero.mp hrounds)
    apply Trimmed.self
    simpa [hnil, bytesOf] using hsize
  | succ rounds ih =>
    have hcount : wrap (c.currentBytes + size) = bytesOf c.list + size := by
      have htotal : wrap c.total = c.total := wrap_of_lt (by omega)
      rw [hi.bytes, htotal, wrap_of_lt hrange]
      rfl
    unfold LRUCache.makeRoom
    split_ifs with hroom
    · obtain ⟨hfull, hne⟩ := hroom
      obtain ⟨hnil, -⟩ | ⟨n, -, hrem⟩ := c.popBack_cases
      · exact absurd hnil hne
      have htotal := hrem.total
      have hlist := c.popBack_list
      have ht := ih (hrem.inv hi) (by omega) (by rwa [maxBytes_popBack])
        (by rw [hlist, List.length_dropLast]; omega)
      rw [maxBytes_popBack, hlist] at ht
      exact ht.drop hne (hcount ▸ hfull)
    · apply Trimmed.self
      by_cases hnil : c.list = []
      · simpa [hnil, bytesOf] using hsize
      · rw [← hcount]
        exact Nat.not_lt.mp fun hfull => hroom ⟨hfull, hnil⟩

def others (c : LRUCache) (handle : ℕ) : List CacheNode :=
  c.list.filter fun n => n.block.handle ≠ handle

theorem Inv.detach_list (hi : c.Inv) (h : ℕ) : (c.detach h).list = c.others h := by
  unfold LRUCache.detach others
  split
  next hf =>
    have hnone := hi.find_eq_none.mp hf
    exact (List.filter_eq_self.mpr fun n hn => by simpa using hnone n hn).symm
  next n hf =>
    obtain ⟨hn, rfl⟩ := hi.find_eq_some.mp hf
    refine List.filter_congr fun m hm => ?_
    have hsame : m.id = n.id ↔ m.block.handle = n.block.handle :=
      ⟨fun he => by rw [hi.eq_of_id hm hn he], fun he => by rw [hi.eq_of_handle hm hn he]⟩
    simp [hsame]

theorem bytesOf_sublist {l l' : List CacheNode} (h : l.Sublist l') : bytesOf l ≤ bytesOf l' :=
  (h.map _).sum_le_sum fun _ _ => Nat.zero_le _

/-- What a put does that is not refused: the block stands in front, and of the others as many as
possible stay. -/
theorem Inv.put_list (hi : c.Inv) (hrange : c.total + data.length < 2 ^ 64)
    (hput : (c.put h data dirty).1 = true) : ∃ id kept,
      (c.put h data dirty).2.list = ⟨id, h, data, dirty⟩ :: kept ∧
        Trimmed c.maxBytes data.length (c.others h) kept := by
  unfold LRUCache.put at hput ⊢
  split_ifs at hput ⊢ with hlen
  have hle : (c.detach h).total ≤ c.total := by
    rw [total_eq_bytesOf, total_eq_bytesOf, hi.detach_list]
    exact bytesOf_sublist List.filter_sublist
  have hrange' : (c.detach h).total + data.length < 2 ^ 64 := by omega
  have hlen' : data.length ≤ (c.detach h).maxBytes := by
    rw [maxBytes_detach]
    exact Nat.not_lt.mp hlen
  have ht := (hi.detach h).trimmed_makeRoom hrange' hlen' (Nat.le_refl _)
  rw [maxBytes_detach] at ht
  exact ⟨_, _, rfl, hi.detach_list h ▸ ht⟩

end Room

section Representation

variable {maxBytes : ℕ} {ops : List CacheOp} {c : LRUCache}

/-- The list and the map hold the same handles, each once, every entry of the map points to the
node of its handle, and the byte count is that of the blocks, which fit. -/
structure Consistent (c : LRUCache) : Prop where
  handles : (c.list.map fun n => n.block.handle).Nodup
  keys : ∀ h, h ∈ c.map ↔ ∃ n ∈ c.list, n.block.handle = h
  entries : ∀ h id, c.map.lookup h = some id →
    ∃ n ∈ c.list, n.id = id ∧ n.block.handle = h ∧ ∀ m ∈ c.list, m.id = id → m = n
  bytes : c.currentBytes = c.total
  room : c.total ≤ c.maxBytes

theorem Inv.handles_nodup (hi : c.Inv) : (c.list.map fun n => n.block.handle).Nodup :=
  (List.Nodup.of_map _ hi.ids).map_on fun _ hn _ hm he => hi.eq_of_handle hn hm he

theorem Counted.consistent (hc : c.Counted) : c.Consistent := by
  have hi := hc.inv
  constructor
  · exact hi.handles_nodup
  · intro h
    rw [← AList.lookup_isSome, Option.isSome_iff_exists]
    constructor
    · rintro ⟨id, hl⟩
      obtain ⟨n, hn, -, hh⟩ := (hi.indexed h id).mp hl
      exact ⟨n, hn, hh⟩
    · rintro ⟨n, hn, hh⟩
      exact ⟨n.id, (hi.indexed h n.id).mpr ⟨n, hn, rfl, hh⟩⟩
  · intro h id hl
    obtain ⟨n, hn, rfl, hh⟩ := (hi.indexed h id).mp hl
    exact ⟨n, hn, rfl, hh, fun m hm he => hi.eq_of_id hm hn he⟩
  · rw [hi.bytes, wrap_of_lt hc.range]
  · exact hc.room

/-- Whenever a block is put, its bytes and the cached ones are fewer than `2 ^ 64`. -/
def InMemory (maxBytes : ℕ) (ops : List CacheOp) : Prop :=
  ∀ before h data dirty, before ++ [.put h data dirty] <+: ops →
    (after maxBytes before).total + data.length < 2 ^ 64

theorem InMemory.of_prefix {before : List CacheOp} (h : InMemory maxBytes ops)
    (hp : before <+: ops) : InMemory maxBytes before :=
  fun _ _ _ _ hp' => h _ _ _ _ (hp'.trans hp)

theorem Counted.sublist {c' : LRUCache} (hc : c.Counted) (hi : c'.Inv) (hs : c'.list.Sublist c.list)
    (hm : c'.maxBytes = c.maxBytes) : c'.Counted := by
  have hle : c'.total ≤ c.total := bytesOf_sublist hs
  have hroom := hc.room
  have hrange := hc.range
  exact ⟨hi, by omega, by omega⟩

theorem put_false {h : ℕ} {data : List Byte} {dirty : Bool}
    (hput : (c.put h data dirty).1 = false) : (c.put h data dirty).2 = c := by
  unfold LRUCache.put at hput ⊢
  split_ifs at hput ⊢
  rfl

theorem Counted.put {h : ℕ} {data : List Byte} {dirty : Bool} (hc : c.Counted)
    (hrange : c.total + data.length < 2 ^ 64) : (c.put h data dirty).2.Counted := by
  cases hput : (c.put h data dirty).1 with
  | false =>
    rw [put_false hput]
    exact hc
  | true =>
    obtain ⟨id, kept, hlist, ht⟩ := hc.inv.put_list hrange hput
    have htotal : (c.put h data dirty).2.total = data.length + bytesOf kept := by
      rw [total_eq_bytesOf, hlist]
      rfl
    have hkept : bytesOf kept ≤ c.total :=
      bytesOf_sublist (ht.kept.sublist.trans List.filter_sublist)
    have hfits := ht.fits
    refine ⟨hc.inv.put, ?_, by omega⟩
    rw [maxBytes_put]
    omega

theorem Counted.step (hc : c.Counted) {op : CacheOp}
    (hb : ∀ h data dirty, op = .put h data dirty → c.total + data.length < 2 ^ 64) :
    (c.step op).2.Counted := by
  cases op with
  | put h data dirty => exact hc.put (hb h data dirty rfl)
  | get h =>
    obtain ⟨l, hp, hget⟩ := hc.inv.get_cases h
    change (c.get h).2.Counted
    rw [hget]
    exact hc.reorder hp
  | remove h =>
    apply hc.sublist (hc.inv.detach h) _ (c.maxBytes_detach h)
    rw [hc.inv.detach_list]
    exact List.filter_sublist
  | evictOne =>
    apply hc.sublist hc.inv.evictOne _ c.maxBytes_popBack
    change c.popBack.list.Sublist c.list
    rw [popBack_list]
    exact c.list.dropLast_sublist

@[simp] theorem maxBytes_after (maxBytes : ℕ) (ops : List CacheOp) :
    (after maxBytes ops).maxBytes = maxBytes := by
  induction ops using List.reverseRecOn with
  | nil => rfl
  | append_singleton ops op ih =>
    rw [after_concat]
    cases op <;> simp [LRUCache.step, remove, evictOne, ih]

theorem counted_after (hb : InMemory maxBytes ops) : (after maxBytes ops).Counted := by
  induction ops using List.reverseRecOn with
  | nil =>
    exact ⟨inv_new maxBytes, Nat.zero_le _, Nat.two_pow_pos 64⟩
  | append_singleton ops op ih =>
    rw [after_concat]
    apply (ih (hb.of_prefix (List.prefix_append _ _))).step
    rintro h data dirty rfl
    exact hb ops h data dirty List.prefix_rfl

/-- After any calls that memory has room for, the parts of the cache agree. A put that is
refused changes nothing, and any other drops the shortest run of least recently used blocks
that makes the new one fit. -/
theorem cache_consistent (hb : InMemory maxBytes ops) : (after maxBytes ops).Consistent ∧
    ∀ before h data dirty, before ++ [.put h data dirty] <+: ops →
      let c := after maxBytes before
      ((c.put h data dirty).1 = false → (c.put h data dirty).2 = c) ∧
      ((c.put h data dirty).1 = true → ∃ id kept,
        (c.put h data dirty).2.list = ⟨id, h, data, dirty⟩ :: kept ∧
          Trimmed maxBytes data.length (c.others h) kept) := by
  refine ⟨(counted_after hb).consistent, fun before h data dirty hp => ⟨put_false, fun hput => ?_⟩⟩
  have hbefore := counted_after (hb.of_prefix ((List.prefix_append _ _).trans hp))
  simpa using hbefore.inv.put_list (hb before h data dirty hp) hput

/-- Two blocks of two bytes in a cache of three: the first has to go. -/
theorem cache_consistent_two_blocks :
    (after 3 [.put 1 [7, 7] true, .put 2 [8, 8] true]).Consistent ∧
      (after 3 [.put 1 [7, 7] true, .put 2 [8, 8] true]).list = [⟨1, 2, [8, 8], true⟩] := by
  refine ⟨(cache_consistent ?_).1, rfl⟩
  rintro (_ | ⟨op, _ | ⟨op', before⟩⟩) h data dirty hp
  · simp only [List.nil_append, List.cons_prefix_cons, CacheOp.put.injEq] at hp
    obtain ⟨⟨rfl, rfl, rfl⟩, -⟩ := hp
    decide
  · simp only [List.cons_append, List.nil_append, List.cons_prefix_cons, CacheOp.put.injEq] at hp
    obtain ⟨rfl, ⟨rfl, rfl, rfl⟩, -⟩ := hp
    decide
  · simp at hp

theorem put_fresh {h : ℕ} {data : List Byte} {dirty : Bool} (hf : c.find h = none)
    (hlen : data.length ≤ c.maxBytes) (hroom : wrap (c.currentBytes + data.length) ≤ c.maxBytes) :
    (c.put h data dirty).2 = c.pushFront ⟨h, data, dirty⟩ := by
  have hd : c.detach h = c := by rw [detach, hf]
  have hk : c.PutKeeps h data := fun _ => by rw [hd, makeRoom_eq_self (.inl hroom)]
  rw [put_eq hlen hk, hd]

@[simp] theorem total_new (maxBytes : ℕ) : (new maxBytes).total = 0 := rfl

@[simp] theorem maxBytes_pushFront (c : LRUCache) (block : CacheBlock) :
    (c.pushFront block).maxBytes = c.maxBytes := rfl

@[simp] theorem currentBytes_pushFront (c : LRUCache) (block : CacheBlock) :
    (c.pushFront block).currentBytes = wrap (c.currentBytes + block.data.length) := rfl

@[simp] theorem total_pushFront (c : LRUCache) (block : CacheBlock) :
    (c.pushFront block).total = block.data.length + c.total := rfl

/-- Blocks of `2 ^ 64` bytes altogether, which count as none. -/
theorem byte_count_wraps : ∃ large : List Byte, large.length = 2 ^ 63 - 1 ∧
    let c := after (2 ^ 64 - 1) [.put 1 large false, .put 2 large false, .put 3 [0, 0] false]
    c.currentBytes = 0 ∧ c.total = 2 ^ 64 := by
  obtain ⟨large, hlarge⟩ : ∃ large : List Byte, large.length = 2 ^ 63 - 1 :=
    ⟨List.replicate _ 0, List.length_replicate⟩
  let c₀ := new (2 ^ 64 - 1)
  let c₁ := c₀.pushFront ⟨1, large, false⟩
  let c₂ := c₁.pushFront ⟨2, large, false⟩
  have h₁ : (c₀.put 1 large false).2 = c₁ := by
    apply put_fresh rfl
    · simp [c₀, new, hlarge]
    · simp [c₀, new, hlarge, wrap]
  have h₂ : (c₁.put 2 large false).2 = c₂ := by
    apply put_fresh rfl
    · simp [c₁, c₀, new, hlarge]
    · simp [c₁, c₀, new, hlarge, wrap]
  have h₃ : (c₂.put 3 [0, 0] false).2 = c₂.pushFront ⟨3, [0, 0], false⟩ := by
    apply put_fresh rfl
    · simp [c₂, c₁, c₀, new]
    · simp [c₂, c₁, c₀, new, hlarge, wrap]
  refine ⟨large, hlarge, ?_⟩
  simp only [after, run_cons_snd, run_nil, step]
  rw [h₁, h₂, h₃]
  constructor
  · simp [c₂, c₁, c₀, new, hlarge, wrap]
  · simp [c₂, c₁, c₀, hlarge]

end Representation

section Recency

abbrev Entry := CacheOp × CacheReply

def Uses (h : ℕ) : Entry → Bool
  | (.put k _ _, .stored true) => k = h
  | (.get k, .found (some _)) => k = h
  | _ => false

def putOf (h : ℕ) : Entry → Option CacheBlock
  | (.put k data dirty, .stored true) => if k = h then some ⟨k, data, dirty⟩ else none
  | _ => none

/-- When the handle was last used, if each call is stamped with its position. -/
def stamp (h : ℕ) (history : List Entry) : Option ℕ :=
  (history.zipIdx.filter fun e => Uses h e.1).getLast?.map Prod.snd

def latestPut (h : ℕ) (history : List Entry) : Option CacheBlock :=
  (history.filterMap (putOf h)).getLast?

variable {h : ℕ} {history : List Entry} {e : Entry}

theorem stamp_concat : stamp h (history ++ [e]) =
    if Uses h e then some history.length else stamp h history := by
  unfold stamp
  rw [List.zipIdx_append, List.filter_append]
  split_ifs with hu <;> simp [hu]

theorem latestPut_concat : latestPut h (history ++ [e]) =
    (putOf h e).or (latestPut h history) := by
  unfold latestPut
  rw [List.filterMap_append]
  cases hp : putOf h e <;> simp [hp]

theorem stamp_lt {s : ℕ} (hs : stamp h history = some s) : s < history.length := by
  induction history using List.reverseRecOn with
  | nil => cases hs
  | append_singleton history e ih =>
    rw [stamp_concat] at hs
    rw [List.length_append, List.length_singleton]
    split_ifs at hs
    · obtain rfl := Option.some.inj hs
      exact Nat.lt_succ_self _
    · exact Nat.lt_succ_of_lt (ih hs)

theorem putOf_of_not_uses (hu : Uses h e = false) : putOf h e = none := by
  unfold Uses at hu
  unfold putOf
  split
  · exact if_neg (by simpa using hu)
  · rfl

/-- The handle `h` was last used before the handle `k`. -/
def Before (history : List Entry) (h k : ℕ) : Prop :=
  ∃ s s', stamp h history = some s ∧ stamp k history = some s' ∧ s < s'

/-- The cache holds the latest blocks, those of the handles used last in front. -/
structure Recorded (history : List Entry) (c : LRUCache) : Prop where
  inv : c.Inv
  latest : ∀ n ∈ c.list, latestPut n.block.handle history = some n.block
  used : ∀ n ∈ c.list, ∃ s, stamp n.block.handle history = some s
  order : c.list.Pairwise fun n m => Before history m.block.handle n.block.handle

variable {c c' : LRUCache} {n : CacheNode} {rest : List CacheNode}

theorem Recorded.keep (hr : Recorded history c) (hi : c'.Inv) (hs : c'.list.Sublist c.list)
    (hu : ∀ h, Uses h e = false) : Recorded (history ++ [e]) c' := by
  have hstamp (h : ℕ) : stamp h (history ++ [e]) = stamp h history := by simp [stamp_concat, hu]
  constructor
  · exact hi
  · intro n hn
    rw [latestPut_concat, putOf_of_not_uses (hu _), Option.none_or]
    exact hr.latest n (hs.subset hn)
  · intro n hn
    rw [hstamp]
    exact hr.used n (hs.subset hn)
  · simp only [Before, hstamp]
    exact hr.order.sublist hs

/-- A call that uses a handle brings its block to the front. -/
theorem Recorded.use (hr : Recorded history c) (hi : c'.Inv) (hlist : c'.list = n :: rest)
    (hs : rest.Sublist c.list) (hne : ∀ m ∈ rest, m.block.handle ≠ n.block.handle)
    (hu : ∀ h, Uses h e = decide (n.block.handle = h))
    (hput : (putOf n.block.handle e).or (latestPut n.block.handle history) = some n.block) :
    Recorded (history ++ [e]) c' := by
  have hother {m : CacheNode} (hm : m ∈ rest) : Uses m.block.handle e = false := by
    rw [hu]
    exact decide_eq_false (hne m hm).symm
  have hstamp {m : CacheNode} (hm : m ∈ rest) :
      stamp m.block.handle (history ++ [e]) = stamp m.block.handle history := by
    simp [stamp_concat, hother hm]
  have hself : stamp n.block.handle (history ++ [e]) = some history.length := by
    simp [stamp_concat, hu]
  constructor
  · exact hi
  · rw [hlist, List.forall_mem_cons, latestPut_concat]
    refine ⟨hput, fun m hm => ?_⟩
    rw [latestPut_concat, putOf_of_not_uses (hother hm), Option.none_or]
    exact hr.latest m (hs.subset hm)
  · rw [hlist, List.forall_mem_cons]
    refine ⟨⟨_, hself⟩, fun m hm => ?_⟩
    rw [hstamp hm]
    exact hr.used m (hs.subset hm)
  · rw [hlist, List.pairwise_cons]
    constructor
    · intro m hm
      obtain ⟨s, hms⟩ := hr.used m (hs.subset hm)
      exact ⟨s, _, (hstamp hm).trans hms, hself, stamp_lt hms⟩
    · refine (hr.order.sublist hs).imp_of_mem fun hm hm' hb => ?_
      simpa only [Before, hstamp hm, hstamp hm'] using hb

theorem list_makeRoom (size rounds : ℕ) (c : LRUCache) :
    (c.makeRoom size rounds).list <+: c.list := by
  induction rounds generalizing c with
  | zero => exact List.prefix_rfl
  | succ rounds ih =>
    unfold makeRoom
    split_ifs
    · exact (ih c.popBack).trans (c.popBack_list ▸ c.list.dropLast_prefix)
    · exact List.prefix_rfl

theorem Recorded.put (hr : Recorded history c) (data : List Byte) (dirty : Bool) :
    Recorded (history ++ [(.put h data dirty, .stored (c.put h data dirty).1)])
      (c.put h data dirty).2 := by
  cases hput : (c.put h data dirty).1 with
  | false =>
    rw [put_false hput]
    exact hr.keep hr.inv (List.Sublist.refl _) fun _ => rfl
  | true =>
    have hi : (c.put h data dirty).2.Inv := hr.inv.put
    unfold LRUCache.put at hput hi ⊢
    split_ifs at hput hi ⊢
    have hp := (list_makeRoom data.length (c.detach h).list.length (c.detach h)).sublist
    have hs := hp.trans (by rw [hr.inv.detach_list] : (c.detach h).list.Sublist (c.others h))
    apply hr.use hi rfl
    · exact hs.trans List.filter_sublist
    · intro m hm
      simpa using List.of_mem_filter (hs.subset hm)
    · exact fun _ => rfl
    · simp [putOf]

theorem Recorded.get (hr : Recorded history c) (h : ℕ) :
    Recorded (history ++ [(.get h, .found (c.get h).1)]) (c.get h).2 := by
  have hi : (c.get h).2.Inv := hr.inv.get h
  unfold LRUCache.get at hi ⊢
  split
  next => exact hr.keep hr.inv (List.Sublist.refl _) fun _ => rfl
  next n hf =>
    obtain ⟨hn, rfl⟩ := hr.inv.find_eq_some.mp hf
    rw [hf] at hi
    apply hr.use hi rfl List.filter_sublist
    · intro m hm he
      obtain ⟨hm, hid⟩ := List.mem_filter.mp hm
      simp [hr.inv.eq_of_handle hm hn he] at hid
    · exact fun _ => rfl
    · exact hr.latest n hn

theorem Recorded.step (hr : Recorded history c) (op : CacheOp) :
    Recorded (history ++ [(op, (c.step op).1)]) (c.step op).2 := by
  cases op with
  | put h data dirty => exact hr.put data dirty
  | get h => exact hr.get h
  | remove h =>
    apply hr.keep (hr.inv.detach h) _ fun _ => rfl
    rw [hr.inv.detach_list]
    exact List.filter_sublist
  | evictOne =>
    apply hr.keep hr.inv.evictOne _ fun _ => rfl
    change c.popBack.list.Sublist c.list
    rw [popBack_list]
    exact c.list.dropLast_sublist

theorem recorded_after (maxBytes : ℕ) (ops : List CacheOp) :
    Recorded (trace LRUCache.step (new maxBytes) ops) (after maxBytes ops) := by
  induction ops using List.reverseRecOn with
  | nil => exact ⟨inv_new maxBytes, nofun, nofun, .nil⟩
  | append_singleton ops op ih =>
    rw [after_concat, trace_append]
    exact ih.step op

theorem run_evictOne {k : ℕ} (hk : c.list.length = k) :
    (run LRUCache.step c (List.replicate k .evictOne)).1 =
        c.list.reverse.map (fun n => .evicted (some n.block)) ∧
      (run LRUCache.step c (List.replicate k .evictOne)).2.list = [] := by
  induction k generalizing c with
  | zero =>
    have hnil := List.length_eq_zero_iff.mp hk
    simp [hnil]
  | succ k ih =>
    have hne : c.list ≠ [] := by
      intro hnil
      simp [hnil] at hk
    have hlast := List.getLast?_eq_some_getLast hne
    have hrest := c.popBack_list
    have hlength : c.popBack.list.length = k := by
      rw [hrest, List.length_dropLast, hk]
      rfl
    obtain ⟨hreplies, hnil⟩ := ih hlength
    have hreverse : c.list.reverse = c.list.getLast hne :: c.popBack.list.reverse := by
      rw [hrest, ← List.reverse_concat, List.dropLast_append_getLast]
    constructor
    · rw [hreverse, List.map_cons, ← hreplies]
      simp [List.replicate_succ, run, LRUCache.step, evictOne, hlast]
    · exact hnil

def Present (c : LRUCache) (h : ℕ) : Prop := c.find h ≠ none

theorem Inv.present_iff (hi : c.Inv) : c.Present h ↔ ∃ n ∈ c.list, n.block.handle = h := by
  rw [Present, Option.ne_none_iff_exists']
  simp only [hi.find_eq_some]

theorem not_present_of_nil (hnil : c.list = []) (h : ℕ) : ¬ c.Present h := by
  simp [Present, find, hnil]

theorem Inv.evictOne_eq_none_iff (hi : c.Inv) : c.evictOne.1 = none ↔ ∀ h, ¬ c.Present h := by
  rw [LRUCache.evictOne, Option.map_eq_none_iff, List.getLast?_eq_none_iff]
  constructor
  · exact not_present_of_nil
  · intro hnone
    rw [List.eq_nil_iff_forall_not_mem]
    exact fun n hn => hnone _ (hi.present_iff.mpr ⟨n, hn, rfl⟩)

theorem Recorded.evictOne {block : CacheBlock} (hr : Recorded history c)
    (hb : c.evictOne.1 = some block) : c.Present block.handle ∧
      latestPut block.handle history = some block ∧
      ∀ h, c.Present h → h ≠ block.handle → Before history block.handle h := by
  obtain ⟨n, hlast, rfl⟩ := Option.map_eq_some_iff.mp hb
  have hn := List.mem_of_getLast? hlast
  refine ⟨hr.inv.present_iff.mpr ⟨n, hn, rfl⟩, hr.latest n hn, fun h hp hne => ?_⟩
  obtain ⟨m, hm, rfl⟩ := hr.inv.present_iff.mp hp
  have horder := hr.order
  rw [← List.dropLast_append_getLast? n hlast] at horder hm
  rcases List.mem_append.mp hm with hm | hm
  · exact (List.pairwise_append.mp horder).2.2 m hm n List.mem_cons_self
  · obtain rfl := List.mem_singleton.mp hm
    exact absurd rfl hne

/-- What `evict_one` returns is the latest block of the present handle that was used longest
ago, and again and again it returns all of them in the order of their last use. -/
theorem evicts_least_recently_used (maxBytes : ℕ) (ops : List CacheOp) :
    let c := after maxBytes ops
    let history := trace LRUCache.step (new maxBytes) ops
    (c.evictOne.1 = none ↔ ∀ h, ¬ c.Present h) ∧
    (∀ block, c.evictOne.1 = some block → c.Present block.handle ∧
      latestPut block.handle history = some block ∧
      ∀ h, c.Present h → h ≠ block.handle → Before history block.handle h) ∧
    ∃ blocks : List CacheBlock,
      (run LRUCache.step c (List.replicate c.count .evictOne)).1 =
        blocks.map (fun block => .evicted (some block)) ∧
      (∀ h, ¬ (run LRUCache.step c (List.replicate c.count .evictOne)).2.Present h) ∧
      (∀ h, c.Present h ↔ ∃ block ∈ blocks, block.handle = h) ∧
      (∀ block ∈ blocks, latestPut block.handle history = some block) ∧
      blocks.Pairwise fun block block' => Before history block.handle block'.handle := by
  intro c history
  have hr : Recorded history c := recorded_after maxBytes ops
  obtain ⟨hreplies, hnil⟩ := run_evictOne (c := c) rfl
  refine ⟨hr.inv.evictOne_eq_none_iff, fun block hb => hr.evictOne hb,
    c.list.reverse.map CacheNode.block, ?_, not_present_of_nil hnil, ?_, ?_, ?_⟩
  · rw [List.map_map]
    exact hreplies
  · intro h
    simp [hr.inv.present_iff]
  · simp only [List.mem_map, List.mem_reverse]
    rintro _ ⟨n, hn, rfl⟩
    exact hr.latest n hn
  · rw [List.pairwise_map, List.pairwise_reverse]
    exact hr.order

end Recency

end LRUCache

end MemInfo
