import Mathlib.Algebra.BigOperators.Group.List.Basic
import Mathlib.Data.List.Nodup
import Mathlib.Data.List.Perm.Basic
import MemInfo.Memclient.LruCache

/-! # The cache as a map

The list and the map of the cache name the same blocks, and the byte count is that of the
blocks. What an operation does is then said by the contents of the handles.
-/

namespace MemInfo

open Lib

namespace LRUCache

def total (c : LRUCache) : ℕ := (c.list.map fun n => n.block.data.length).sum

def content (c : LRUCache) (handle : ℕ) : Option (List Byte) :=
  (c.find handle).map fun n => n.block.data

structure Inv (c : LRUCache) : Prop where
  indexed : ∀ h id, c.map.lookup h = some id ↔ ∃ n ∈ c.list, n.id = id ∧ n.block.handle = h
  ids : (c.list.map CacheNode.id).Nodup
  fresh : ∀ n ∈ c.list, n.id < c.nextId
  bytes : c.currentBytes = wrap c.total

theorem inv_new (maxBytes : ℕ) : (new maxBytes).Inv := by
  constructor <;> simp [new, total, wrap]

section Contents

variable {c c' : LRUCache} {n m : CacheNode} {h : ℕ} {data : List Byte}

theorem Inv.eq_of_id (hi : c.Inv) (hn : n ∈ c.list) (hm : m ∈ c.list) (he : n.id = m.id) :
    n = m :=
  List.inj_on_of_nodup_map hi.ids hn hm he

theorem Inv.eq_of_handle (hi : c.Inv) (hn : n ∈ c.list) (hm : m ∈ c.list)
    (he : n.block.handle = m.block.handle) : n = m := by
  have h₁ := (hi.indexed _ _).mpr ⟨n, hn, rfl, rfl⟩
  have h₂ := (hi.indexed _ _).mpr ⟨m, hm, rfl, rfl⟩
  rw [he, h₂] at h₁
  exact hi.eq_of_id hn hm (Option.some.inj h₁).symm

theorem Inv.find_eq_some (hi : c.Inv) : c.find h = some n ↔ n ∈ c.list ∧ n.block.handle = h := by
  constructor
  · intro hf
    obtain ⟨id, hl, hid⟩ := Option.bind_eq_some_iff.mp hf
    obtain ⟨m, hm, rfl, rfl⟩ := (hi.indexed _ _).mp hl
    have hn := List.mem_of_find?_eq_some hid
    obtain rfl := hi.eq_of_id hn hm (by simpa using List.find?_some hid)
    exact ⟨hn, rfl⟩
  · rintro ⟨hn, rfl⟩
    rw [find, (hi.indexed _ _).mpr ⟨n, hn, rfl, rfl⟩, Option.bind_some]
    obtain ⟨m, hm⟩ := Option.isSome_iff_exists.mp
      (List.find?_isSome (p := fun m => decide (m.id = n.id)).mpr ⟨n, hn, by simp⟩)
    rw [hm, hi.eq_of_id hn (List.mem_of_find?_eq_some hm)
      (by simpa [eq_comm] using List.find?_some hm)]

theorem Inv.find_eq_none (hi : c.Inv) :
    c.find h = none ↔ ∀ n ∈ c.list, n.block.handle ≠ h := by
  constructor
  · intro hf n hn he
    rw [hi.find_eq_some.mpr ⟨hn, he⟩] at hf
    cases hf
  · intro hn
    cases hf : c.find h with
    | none => rfl
    | some n => exact absurd (hi.find_eq_some.mp hf).2 (hn n (hi.find_eq_some.mp hf).1)

theorem Inv.content_eq_some (hi : c.Inv) :
    c.content h = some data ↔ ∃ n ∈ c.list, n.block.handle = h ∧ n.block.data = data := by
  simp only [content, Option.map_eq_some_iff, hi.find_eq_some, and_assoc]

theorem content_eq_none : c.content h = none ↔ c.find h = none := Option.map_eq_none_iff

theorem content_congr (hi : c.Inv) (hi' : c'.Inv)
    (hk : ∀ n, n.block.handle = h → (n ∈ c.list ↔ n ∈ c'.list)) : c'.content h = c.content h := by
  refine Option.ext fun data => ?_
  rw [hi.content_eq_some, hi'.content_eq_some]
  constructor
  · rintro ⟨n, hn, he, hd⟩
    exact ⟨n, (hk n he).mpr hn, he, hd⟩
  · rintro ⟨n, hn, he, hd⟩
    exact ⟨n, (hk n he).mp hn, he, hd⟩

end Contents

section Removal

variable {c c' : LRUCache} {n : CacheNode} {h : ℕ}

/-- The cache after its node `n` has been taken out. -/
structure Removed (c : LRUCache) (n : CacheNode) (c' : LRUCache) : Prop where
  perm : c.list.Perm (n :: c'.list)
  map : c'.map = c.map.erase n.block.handle
  bytes : c'.currentBytes = wrapSub c.currentBytes n.block.data.length
  nextId : c'.nextId = c.nextId

theorem Removed.total (hr : Removed c n c') : c.total = n.block.data.length + c'.total := by
  simpa [LRUCache.total] using (hr.perm.map fun n => n.block.data.length).sum_eq

theorem Removed.inv (hr : Removed c n c') (hi : c.Inv) : c'.Inv := by
  have hmem (m) : m ∈ c.list ↔ m = n ∨ m ∈ c'.list := by rw [hr.perm.mem_iff, List.mem_cons]
  have hnd := (hr.perm.map CacheNode.id).nodup_iff.mp hi.ids
  rw [List.map_cons, List.nodup_cons] at hnd
  have hn := (hmem n).mpr (.inl rfl)
  have hne {m} (hm : m ∈ c'.list) : m.block.handle ≠ n.block.handle := by
    intro he
    obtain rfl := hi.eq_of_handle ((hmem m).mpr (.inr hm)) hn he
    exact hnd.1 (List.mem_map_of_mem hm)
  constructor
  · intro k id
    rw [hr.map, Dict.lookup_erase_iff]
    split_ifs with hk
    · subst hk
      simp only [false_iff, not_exists, not_and]
      exact fun m hm _ => hne hm
    · rw [hi.indexed]
      constructor
      · rintro ⟨m, hm, rfl, rfl⟩
        exact ⟨m, ((hmem m).mp hm).resolve_left (by rintro rfl; exact hk rfl), rfl, rfl⟩
      · rintro ⟨m, hm, rfl, rfl⟩
        exact ⟨m, (hmem m).mpr (.inr hm), rfl, rfl⟩
  · exact hnd.2
  · exact fun m hm => hr.nextId ▸ hi.fresh m ((hmem m).mpr (.inr hm))
  · rw [hr.bytes, hi.bytes, hr.total, wrapSub, wrap, wrap, wrap, wrap]
    omega

theorem Removed.content (hr : Removed c n c') (hi : c.Inv) (h : ℕ) :
    c'.content h = if h = n.block.handle then none else c.content h := by
  have hmem (m) : m ∈ c.list ↔ m = n ∨ m ∈ c'.list := by rw [hr.perm.mem_iff, List.mem_cons]
  split_ifs with hh
  · subst hh
    have hl := hr.map ▸ AList.lookup_erase n.block.handle c.map
    rw [LRUCache.content, LRUCache.find, hl]
    rfl
  · refine content_congr hi (hr.inv hi) fun m hm => ?_
    rw [hmem, or_iff_right]
    rintro rfl
    exact hh hm.symm

theorem Inv.perm_filter (hi : c.Inv) (hn : n ∈ c.list) :
    c.list.Perm (n :: c.list.filter fun m => m.id ≠ n.id) := by
  have hfilter : (c.list.filter fun m => m.id ≠ n.id) = c.list.erase n := by
    rw [(List.Nodup.of_map _ hi.ids).erase_eq_filter]
    refine List.filter_congr fun m hm => ?_
    have : m.id = n.id ↔ m = n := ⟨hi.eq_of_id hm hn, congrArg _⟩
    rw [Bool.eq_iff_iff]
    simp [this]
  rw [hfilter]
  exact List.perm_cons_erase hn

theorem Inv.detach_cases (hi : c.Inv) (h : ℕ) :
    c.find h = none ∧ c.detach h = c ∨
    ∃ n, c.find h = some n ∧ n.block.handle = h ∧ Removed c n (c.detach h) := by
  cases hf : c.find h with
  | none => exact .inl ⟨rfl, by rw [detach, hf]⟩
  | some n =>
    obtain ⟨hn, rfl⟩ := hi.find_eq_some.mp hf
    refine .inr ⟨n, rfl, rfl, ?_⟩
    rw [detach, hf]
    exact ⟨hi.perm_filter hn, rfl, rfl, rfl⟩

/-- `evict_one` takes out the last node of the list, if there is one. -/
theorem popBack_cases (c : LRUCache) :
    c.list = [] ∧ c.evictOne = (none, c) ∨
    ∃ n, c.evictOne = (some n.block, c.popBack) ∧ Removed c n c.popBack := by
  cases hl : c.list.getLast? with
  | none =>
    have hnil := List.getLast?_eq_none_iff.mp hl
    exact .inl ⟨hnil, by simp [evictOne, popBack, hl]⟩
  | some n =>
    refine .inr ⟨n, by simp [evictOne, hl], ?_⟩
    rw [popBack, hl]
    refine ⟨?_, rfl, rfl, rfl⟩
    rw [← List.dropLast_append_getLast? n hl, List.dropLast_concat]
    exact List.perm_append_singleton _ _

end Removal

section Operations

variable {c : LRUCache} {h : ℕ} {data : List Byte} {dirty : Bool}

theorem Inv.detach (hi : c.Inv) (h : ℕ) : (c.detach h).Inv := by
  obtain ⟨-, he⟩ | ⟨n, -, -, hr⟩ := hi.detach_cases h
  · exact he.symm ▸ hi
  · exact hr.inv hi

theorem Inv.content_detach (hi : c.Inv) (h k : ℕ) :
    (c.detach h).content k = if k = h then none else c.content k := by
  obtain ⟨hf, he⟩ | ⟨n, -, rfl, hr⟩ := hi.detach_cases h
  · rw [he]
    split_ifs with hk
    · exact hk ▸ content_eq_none.mpr hf
    · rfl
  · exact hr.content hi k

theorem Inv.pushFront {block : CacheBlock} (hi : c.Inv) (hc : c.content block.handle = none) :
    (c.pushFront block).Inv := by
  have hnone := hi.find_eq_none.mp (content_eq_none.mp hc)
  constructor
  · intro k id
    rw [LRUCache.pushFront, Dict.lookup_insert_iff]
    split_ifs with hk
    · subst hk
      simp only [List.mem_cons, Option.some.injEq]
      constructor
      · rintro rfl
        exact ⟨_, .inl rfl, rfl, rfl⟩
      · rintro ⟨m, rfl | hm, rfl, hh⟩
        · rfl
        · exact absurd hh (hnone m hm)
    · rw [hi.indexed]
      constructor
      · rintro ⟨m, hm, rfl, rfl⟩
        exact ⟨m, List.mem_cons_of_mem _ hm, rfl, rfl⟩
      · rintro ⟨m, hm, rfl, rfl⟩
        rcases List.mem_cons.mp hm with rfl | hm
        · exact absurd rfl hk
        · exact ⟨m, hm, rfl, rfl⟩
  · refine List.nodup_cons.mpr ⟨?_, hi.ids⟩
    intro hm
    obtain ⟨m, hm, he⟩ := List.mem_map.mp hm
    exact absurd he (Nat.ne_of_lt (hi.fresh m hm))
  · rintro m hm
    rcases List.mem_cons.mp hm with rfl | hm
    · exact Nat.lt_succ_self _
    · exact Nat.lt_succ_of_lt (hi.fresh m hm)
  · simp only [LRUCache.pushFront, total, List.map_cons, List.sum_cons, hi.bytes, wrap]
    omega

theorem Inv.content_pushFront {block : CacheBlock} (hi : c.Inv)
    (hc : c.content block.handle = none) (k : ℕ) :
    (c.pushFront block).content k = if k = block.handle then some block.data else c.content k := by
  split_ifs with hk
  · exact (hi.pushFront hc).content_eq_some.mpr
      ⟨⟨c.nextId, block⟩, List.mem_cons_self, hk.symm, rfl⟩
  · refine content_congr hi (hi.pushFront hc) fun m hm => ?_
    rw [LRUCache.pushFront, List.mem_cons, or_iff_right]
    rintro rfl
    exact hk hm.symm

theorem Inv.reorder {l : List CacheNode} (hi : c.Inv) (hp : c.list.Perm l) :
    { c with list := l }.Inv := by
  constructor
  · intro k id
    rw [hi.indexed]
    simp only [hp.mem_iff]
  · exact (hp.map _).nodup_iff.mp hi.ids
  · exact fun m hm => hi.fresh m (hp.mem_iff.mpr hm)
  · exact hi.bytes.trans (congrArg wrap (hp.map _).sum_eq)

/-- `get` returns the bytes of the handle and only reorders the list. -/
theorem Inv.get_cases (hi : c.Inv) (h : ℕ) :
    ∃ l, c.list.Perm l ∧ c.get h = (c.content h, { c with list := l }) := by
  cases hf : c.find h with
  | none => exact ⟨c.list, .refl _, by simp [get, content, hf]⟩
  | some n =>
    obtain ⟨hn, -⟩ := hi.find_eq_some.mp hf
    exact ⟨_, hi.perm_filter hn, by simp [get, content, hf]⟩

theorem Inv.content_reorder {l : List CacheNode} (hi : c.Inv) (hp : c.list.Perm l) (k : ℕ) :
    { c with list := l }.content k = c.content k :=
  content_congr hi (hi.reorder hp) fun _ _ => hp.mem_iff

/-- The loop of `put` drops no block. -/
def PutKeeps (c : LRUCache) (handle : ℕ) (data : List Byte) : Prop :=
  data.length ≤ c.maxBytes →
    (c.detach handle).makeRoom data.length (c.detach handle).list.length = c.detach handle

theorem makeRoom_eq_self {size : ℕ}
    (hroom : wrap (c.currentBytes + size) ≤ c.maxBytes ∨ c.list = []) (rounds : ℕ) :
    c.makeRoom size rounds = c := by
  cases rounds with
  | zero => rfl
  | succ rounds =>
    rw [makeRoom, if_neg]
    rintro ⟨hlt, hne⟩
    exact hroom.elim (Nat.not_le.mpr hlt) hne

theorem put_eq (hlen : data.length ≤ c.maxBytes) (hk : c.PutKeeps h data) :
    c.put h data dirty = (true, (c.detach h).pushFront ⟨h, data, dirty⟩) := by
  rw [put, if_neg (Nat.not_lt.mpr hlen)]
  simp only [hk hlen]

theorem Inv.content_detach_self (hi : c.Inv) (h : ℕ) : (c.detach h).content h = none := by
  rw [hi.content_detach, if_pos rfl]

/-- The loop of `put` takes out blocks and adds none. -/
theorem Inv.makeRoom (hi : c.Inv) (hc : c.content h = none) (size rounds : ℕ) :
    (c.makeRoom size rounds).Inv ∧ (c.makeRoom size rounds).content h = none := by
  induction rounds generalizing c with
  | zero => exact ⟨hi, hc⟩
  | succ rounds ih =>
    unfold LRUCache.makeRoom
    split_ifs with hroom
    · obtain ⟨hnil, -⟩ | ⟨n, -, hrem⟩ := c.popBack_cases
      · exact absurd hnil hroom.2
      · apply ih (hrem.inv hi)
        rw [hrem.content hi, hc, ite_self]
    · exact ⟨hi, hc⟩

theorem Inv.put (hi : c.Inv) : (c.put h data dirty).2.Inv := by
  unfold LRUCache.put
  split_ifs
  · exact hi
  · obtain ⟨hi', hc⟩ := (hi.detach h).makeRoom (hi.content_detach_self h) data.length
      (c.detach h).list.length
    exact hi'.pushFront hc

theorem Inv.content_put_ne_none {k : ℕ} (hi : c.Inv)
    (hk : (c.put h data dirty).2.content k ≠ none) : k = h ∨ c.content k ≠ none := by
  obtain ⟨d, hd⟩ := Option.ne_none_iff_exists'.mp hk
  obtain ⟨n, hn, rfl, -⟩ := hi.put.content_eq_some.mp hd
  have hold (hn : n ∈ c.list) : n.block.handle = h ∨ c.content n.block.handle ≠ none := by
    right
    rw [hi.content_eq_some.mpr ⟨n, hn, rfl, rfl⟩]
    exact nofun
  unfold LRUCache.put at hn
  split_ifs at hn
  · exact hold hn
  · rcases List.mem_cons.mp hn with rfl | hn
    · exact .inl rfl
    · exact hold (detach_subset _ _ (makeRoom_subset _ _ _ hn))

theorem Inv.content_put (hi : c.Inv) (hlen : data.length ≤ c.maxBytes) (hk : c.PutKeeps h data)
    (k : ℕ) :
    (c.put h data dirty).2.content k = if k = h then some data else c.content k := by
  rw [put_eq hlen hk, (hi.detach h).content_pushFront (hi.content_detach_self h), hi.content_detach]
  split_ifs <;> rfl

theorem Inv.content_put_self (hi : c.Inv) (hlen : data.length ≤ c.maxBytes) :
    (c.put h data dirty).2.content h = some data := by
  obtain ⟨hi', hc⟩ := (hi.detach h).makeRoom (hi.content_detach_self h) data.length
    (c.detach h).list.length
  rw [LRUCache.put, if_neg (Nat.not_lt.mpr hlen), hi'.content_pushFront hc, if_pos rfl]

theorem Inv.get (hi : c.Inv) (h : ℕ) : (c.get h).2.Inv := by
  obtain ⟨l, hp, hget⟩ := hi.get_cases h
  rw [hget]
  exact hi.reorder hp

theorem Inv.evictOne (hi : c.Inv) : c.evictOne.2.Inv := by
  obtain ⟨-, he⟩ | ⟨n, he, hrem⟩ := c.popBack_cases
  · rwa [he]
  · rw [he]
    exact hrem.inv hi

theorem total_put (hlen : data.length ≤ c.maxBytes) (hk : c.PutKeeps h data) :
    (c.put h data dirty).2.total = data.length + (c.detach h).total := by
  rw [put_eq hlen hk]
  rfl

end Operations

/-- There is room for `size` more bytes, or nothing left to evict. -/
def HasRoom (c : LRUCache) (size : ℕ) : Prop :=
  wrap (c.currentBytes + size) ≤ c.maxBytes ∨ c.list = []

/-- The cached bytes fit, and their count has not wrapped around. -/
structure Counted (c : LRUCache) : Prop where
  inv : c.Inv
  room : c.total ≤ c.maxBytes
  range : c.total < 2 ^ 64

namespace Counted

variable {c c' : LRUCache} {n : CacheNode} {h : ℕ} {data : List Byte}

theorem reorder {l : List CacheNode} (hc : c.Counted) (hp : c.list.Perm l) :
    { c with list := l }.Counted := by
  have ht : LRUCache.total { c with list := l } = c.total :=
    (hp.map fun n : CacheNode => n.block.data.length).sum_eq.symm
  exact ⟨hc.inv.reorder hp, ht ▸ hc.room, ht ▸ hc.range⟩

theorem removed (hc : c.Counted) (hrem : Removed c n c') (hm : c'.maxBytes = c.maxBytes) :
    c'.Counted ∧ n.block.data.length ≤ c'.maxBytes ∧ c'.HasRoom n.block.data.length := by
  have htotal := hrem.total
  have hroom := hc.room
  have hrange := hc.range
  have hlt : c'.total < 2 ^ 64 := by omega
  refine ⟨⟨hrem.inv hc.inv, by omega, hlt⟩, by omega, .inl ?_⟩
  rw [(hrem.inv hc.inv).bytes, wrap_of_lt hlt, wrap_of_lt (by omega)]
  omega

theorem put_new (dirty : Bool) (hc : c.Counted) (hn : c.content h = none)
    (hlen : data.length ≤ c.maxBytes) (hroom : c.HasRoom data.length) :
    c.PutKeeps h data ∧
      ((c.put h data dirty).2.total < 2 ^ 64 → (c.put h data dirty).2.Counted) := by
  have hd : c.detach h = c := by
    rw [detach, content_eq_none.mp hn]
  have hk : c.PutKeeps h data := fun _ => by
    rw [hd, makeRoom_eq_self hroom]
  refine ⟨hk, fun hlt => ⟨hc.inv.put, ?_, hlt⟩⟩
  rw [maxBytes_put]
  rw [total_put hlen hk, hd] at hlt ⊢
  rcases hroom with hroom | hnil
  · rw [hc.inv.bytes, wrap_of_lt hc.range, wrap_of_lt (by omega)] at hroom
    omega
  · simpa [LRUCache.total, hnil] using hlen

theorem put_same {data' : List Byte} (dirty : Bool) (hc : c.Counted)
    (hcon : c.content h = some data) (hlen : data'.length = data.length) :
    c.PutKeeps h data' ∧ data'.length ≤ c.maxBytes ∧ (c.put h data' dirty).2.Counted := by
  obtain ⟨n, hn, rfl⟩ := Option.map_eq_some_iff.mp hcon
  obtain ⟨hf, -⟩ | ⟨m, hf, -, hrem⟩ := hc.inv.detach_cases h
  · exact absurd (hn.symm.trans hf) nofun
  obtain rfl := Option.some.inj (hn.symm.trans hf)
  obtain ⟨hd, hle, hroom⟩ := hc.removed hrem (c.maxBytes_detach h)
  rw [c.maxBytes_detach, ← hlen] at hle
  have hk : c.PutKeeps h data' := fun _ => makeRoom_eq_self (hlen ▸ hroom) _
  have htotal := hrem.total
  have hput : (c.put h data' dirty).2.total = _ := total_put hle hk
  have hfit := hc.room
  have hrange := hc.range
  refine ⟨hk, hle, hc.inv.put, ?_, by omega⟩
  rw [maxBytes_put]
  omega

end Counted

end LRUCache

end MemInfo
