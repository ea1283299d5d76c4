import Mathlib.Data.Set.Insert
import MemInfo.Memclient.Custody

/-! # Where the live handles are

Every live handle is a key of exactly one of the cache and the table of remote handles, and
any other handle is a key of neither. A handle that a function has in hand is not live.
-/

namespace MemInfo

open Lib

def Resides (Size : ℕ → Prop) (Entry : RemoteAllocation → Prop) (live : Prop) :
    Option (List Byte) → Option RemoteAllocation → Prop
  | some data, none => live ∧ Size data.length
  | none, some a => live ∧ Entry a
  | none, none => ¬ live
  | some _, some _ => False

/-- The handles in `live`, and no others, have a block. `Size` holds of the sizes of the
cached blocks and `Entry` of the allocations on the peers. -/
structure Residency (Size : ℕ → Prop) (Entry : RemoteAllocation → Prop) (live : Set ℕ)
    (c : Client) : Prop where
  counted : c.cache.Counted
  range : c.nextLocalHandle ≤ 2 ^ 64
  issued : ∀ h ∈ live, h < c.nextLocalHandle
  resides : ∀ h, Resides Size Entry (h ∈ live) (c.cache.content h) (c.remoteHandles.lookup h)

namespace Residency

variable {Size : ℕ → Prop} {Entry : RemoteAllocation → Prop} {live : Set ℕ} {c : Client} {h : ℕ}
  {a : RemoteAllocation} {data : List Byte}

theorem new (maxLocalBytes : ℕ) : Residency Size Entry ∅ (Client.new maxLocalBytes) where
  counted := ⟨LRUCache.inv_new _, Nat.zero_le _, Nat.two_pow_pos 64⟩
  range := Nat.one_le_two_pow
  issued := nofun
  resides _ := id

theorem requestId (hr : Residency Size Entry live c) (id : ℕ) :
    Residency Size Entry live { c with nextRequestId := id } :=
  ⟨hr.counted, hr.range, hr.issued, hr.resides⟩

theorem of_content (hr : Residency Size Entry live c) (hc : c.cache.content h = some data) :
    h ∈ live ∧ Size data.length ∧ c.remoteHandles.lookup h = none := by
  have hres := hr.resides h
  rw [hc] at hres
  cases hl : c.remoteHandles.lookup h with
  | none =>
    rw [hl] at hres
    exact ⟨hres.1, hres.2, rfl⟩
  | some a =>
    rw [hl] at hres
    exact hres.elim

theorem of_lookup (hr : Residency Size Entry live c) (hl : c.remoteHandles.lookup h = some a) :
    h ∈ live ∧ Entry a ∧ c.cache.content h = none := by
  have hres := hr.resides h
  rw [hl] at hres
  cases hc : c.cache.content h with
  | none =>
    rw [hc] at hres
    exact ⟨hres.1, hres.2, rfl⟩
  | some data =>
    rw [hc] at hres
    exact hres.elim

theorem of_not_mem (hr : Residency Size Entry live c) (hh : h ∉ live) :
    c.cache.content h = none ∧ c.remoteHandles.lookup h = none := by
  constructor
  · by_contra hc
    obtain ⟨data, hdata⟩ := Option.ne_none_iff_exists'.mp hc
    exact hh (hr.of_content hdata).1
  · by_contra hl
    obtain ⟨a, ha⟩ := Option.ne_none_iff_exists'.mp hl
    exact hh (hr.of_lookup ha).1

theorem of_none (hr : Residency Size Entry live c) (hc : c.cache.content h = none)
    (hl : c.remoteHandles.lookup h = none) : h ∉ live := by
  have hres := hr.resides h
  rwa [hc, hl] at hres

theorem xor (hr : Residency Size Entry live c) (hh : h ∈ live) :
    Xor (c.cache.content h ≠ none) (c.remoteHandles.lookup h ≠ none) := by
  cases hc : c.cache.content h with
  | some data => exact .inl ⟨nofun, fun hl => hl (hr.of_content hc).2.2⟩
  | none =>
    refine .inr ⟨fun hl => ?_, fun hn => hn rfl⟩
    exact hr.of_none hc hl hh

theorem update {c' : Client} {live' : Set ℕ} (hr : Residency Size Entry live c)
    (hcounted : c'.cache.Counted) (hnext : c'.nextLocalHandle = c.nextLocalHandle)
    (hissued : h ∈ live' → h < c.nextLocalHandle) (hlive : ∀ k ≠ h, k ∈ live' ↔ k ∈ live)
    (hcontent : ∀ k ≠ h, c'.cache.content k = c.cache.content k)
    (hlookup : ∀ k ≠ h, c'.remoteHandles.lookup k = c.remoteHandles.lookup k)
    (hh : Resides Size Entry (h ∈ live') (c'.cache.content h) (c'.remoteHandles.lookup h)) :
    Residency Size Entry live' c' := by
  refine ⟨hcounted, hnext ▸ hr.range, fun k hk => ?_, fun k => ?_⟩
  · rw [hnext]
    by_cases hkh : k = h
    · subst hkh
      exact hissued hk
    · exact hr.issued k ((hlive k hkh).mp hk)
  · by_cases hkh : k = h
    · subst hkh
      exact hh
    · rw [hcontent k hkh, hlookup k hkh, propext (hlive k hkh)]
      exact hr.resides k

theorem uncache {cache : LRUCache} {n : CacheNode} (hr : Residency Size Entry live c)
    (hrem : LRUCache.Removed c.cache n cache) (hm : cache.maxBytes = c.cache.maxBytes) :
    n.block.handle ∈ live ∧ Size n.block.data.length ∧
      Residency Size Entry (live \ {n.block.handle}) { c with cache } := by
  have hn : n ∈ c.cache.list := hrem.perm.mem_iff.mpr List.mem_cons_self
  have hc := hr.counted.inv.content_eq_some.mpr ⟨n, hn, rfl, rfl⟩
  obtain ⟨hlive, hsize, hl⟩ := hr.of_content hc
  refine ⟨hlive, hsize, ?_⟩
  refine hr.update (h := n.block.handle) (hr.counted.removed hrem hm).1 rfl ?_ ?_ ?_ ?_ ?_
  · exact fun hk => absurd rfl hk.2
  · exact fun k hk => ⟨fun hm => hm.1, fun hm => ⟨hm, hk⟩⟩
  · intro k hk
    exact (hrem.content hr.counted.inv k).trans (if_neg hk)
  · exact fun _ _ => rfl
  · change Resides _ _ _ (cache.content n.block.handle) (c.remoteHandles.lookup n.block.handle)
    rw [hrem.content hr.counted.inv, if_pos rfl, hl]
    exact fun hk => hk.2 rfl

theorem reorder {l : List CacheNode} (hr : Residency Size Entry live c)
    (hp : c.cache.list.Perm l) :
    Residency Size Entry live { c with cache := { c.cache with list := l } } := by
  refine ⟨hr.counted.reorder hp, hr.range, hr.issued, fun k => ?_⟩
  change Resides _ _ _ (LRUCache.content { c.cache with list := l } k) _
  rw [hr.counted.inv.content_reorder hp]
  exact hr.resides k

theorem insert (hr : Residency Size Entry live c) (hh : h ∉ live) (hlt : h < c.nextLocalHandle)
    (ha : Entry a) :
    Residency Size Entry (Insert.insert h live)
      { c with remoteHandles := c.remoteHandles.insert h a } := by
  refine hr.update (h := h) hr.counted rfl (fun _ => hlt) ?_ ?_ ?_ ?_
  · exact fun k hk => ⟨fun hm => hm.resolve_left hk, .inr⟩
  · exact fun _ _ => rfl
  · exact fun k hk => AList.lookup_insert_ne hk
  · change Resides _ _ _ (c.cache.content h) ((c.remoteHandles.insert h a).lookup h)
    rw [(hr.of_not_mem hh).1, AList.lookup_insert]
    exact ⟨.inl rfl, ha⟩

theorem take (hr : Residency Size Entry live c) (hc : c.cache.content h = none) :
    Residency Size Entry (live \ {h}) { c with remoteHandles := c.remoteHandles.erase h } := by
  refine hr.update (h := h) hr.counted rfl ?_ ?_ ?_ ?_ ?_
  · exact fun hk => absurd rfl hk.2
  · exact fun k hk => ⟨fun hm => hm.1, fun hm => ⟨hm, hk⟩⟩
  · exact fun _ _ => rfl
  · exact fun k hk => AList.lookup_erase_ne hk
  · change Resides _ _ _ (c.cache.content h) ((c.remoteHandles.erase h).lookup h)
    rw [hc, AList.lookup_erase]
    exact fun hk => hk.2 rfl

theorem congr_lookup {d : Dict ℕ RemoteAllocation} (hr : Residency Size Entry live c)
    (hd : ∀ k, d.lookup k = c.remoteHandles.lookup k) :
    Residency Size Entry live { c with remoteHandles := d } :=
  ⟨hr.counted, hr.range, hr.issued, fun k => (hd k).symm ▸ hr.resides k⟩

theorem put_new (dirty : Bool) (hr : Residency Size Entry live c) (hh : h ∉ live)
    (hlt : h < c.nextLocalHandle) (hsize : Size data.length)
    (hlen : data.length ≤ c.cache.maxBytes) (hroom : c.cache.HasRoom data.length)
    (hrange : InRange (c.perform (.cachePut h data dirty)).2) :
    Residency Size Entry (Insert.insert h live) (c.perform (.cachePut h data dirty)).2 := by
  obtain ⟨hc, hl⟩ := hr.of_not_mem hh
  obtain ⟨hk, hcounted⟩ := hr.counted.put_new dirty hc hlen hroom
  refine hr.update (h := h) (hcounted hrange.2) rfl (fun _ => hlt) ?_ ?_ ?_ ?_
  · exact fun k hk => ⟨fun hm => hm.resolve_left hk, .inr⟩
  · exact fun k hne => (hr.counted.inv.content_put hlen hk k).trans (if_neg hne)
  · exact fun _ _ => rfl
  · change Resides _ _ _ ((c.cache.put h data dirty).2.content h) (c.remoteHandles.lookup h)
    rw [hr.counted.inv.content_put hlen hk, if_pos rfl, hl]
    exact ⟨.inl rfl, hsize⟩

theorem put_same {data' : List Byte} (dirty : Bool) (hr : Residency Size Entry live c)
    (hc : c.cache.content h = some data) (hlen : data'.length = data.length) :
    Residency Size Entry live (c.perform (.cachePut h data' dirty)).2 := by
  obtain ⟨hlive, hsize, hl⟩ := hr.of_content hc
  obtain ⟨hk, hle, hcounted⟩ := hr.counted.put_same dirty hc hlen
  refine hr.update (h := h) hcounted rfl (fun _ => hr.issued h hlive) (fun _ _ => Iff.rfl) ?_ ?_ ?_
  · exact fun k hne => (hr.counted.inv.content_put hle hk k).trans (if_neg hne)
  · exact fun _ _ => rfl
  · change Resides _ _ _ ((c.cache.put h data' dirty).2.content h) (c.remoteHandles.lookup h)
    rw [hr.counted.inv.content_put hle hk, if_pos rfl, hl]
    exact ⟨hlive, hlen ▸ hsize⟩

theorem next (hr : Residency Size Entry live c) (hlt : c.nextLocalHandle < 2 ^ 64) :
    c.nextLocalHandle ∉ live ∧
      Residency Size Entry live { c with nextLocalHandle := c.nextLocalHandle + 1 } :=
  ⟨fun hm => Nat.lt_irrefl _ (hr.issued _ hm),
    hr.counted, hlt, fun h hm => Nat.lt_succ_of_lt (hr.issued h hm), hr.resides⟩

end Residency

end MemInfo
