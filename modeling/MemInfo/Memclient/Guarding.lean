import MemInfo.Memclient.Custody

/-! # Blocks that an eviction leaves alone

`evict_if_needed` finds places for the blocks it takes out of the cache, and gives them back
if it fails. What is known of a block that is on the peers survives this in any world in
which it survives the requests that name other blocks.
-/

namespace MemInfo

open Lib Prog MemoryClient

/-- A handle whose block is on the peers. No handle is both cached and on the peers. -/
structure RemoteBlock (c : Client) (h : ℕ) (a : RemoteAllocation) : Prop where
  inv : c.cache.Inv
  entry : c.remoteHandles.lookup h = some a
  apart : ∀ k, c.cache.content k ≠ none → c.remoteHandles.lookup k = none

namespace RemoteBlock

variable {c : Client} {h k : ℕ} {a e : RemoteAllocation}

theorem uncached (hb : RemoteBlock c h a) : c.cache.content h = none := by
  by_contra hc
  exact absurd ((hb.apart h hc).symm.trans hb.entry) nofun

theorem insert (hb : RemoteBlock c h a) (hk : k ≠ h) (hc : c.cache.content k = none) :
    RemoteBlock { c with remoteHandles := c.remoteHandles.insert k e } h a := by
  refine ⟨hb.inv, (AList.lookup_insert_ne hk.symm).trans hb.entry, fun j hj => ?_⟩
  have hjk : j ≠ k := by
    rintro rfl
    exact hj hc
  exact (AList.lookup_insert_ne hjk).trans (hb.apart j hj)

theorem requestId (hb : RemoteBlock c h a) (id : ℕ) :
    RemoteBlock { c with nextRequestId := id } h a := ⟨hb.inv, hb.entry, hb.apart⟩

theorem erase (hb : RemoteBlock c h a) (hk : k ≠ h) :
    RemoteBlock { c with remoteHandles := c.remoteHandles.erase k } h a := by
  refine ⟨hb.inv, (AList.lookup_erase_ne hk.symm).trans hb.entry, fun j hj => ?_⟩
  rw [Dict.lookup_erase_iff]
  split_ifs
  · rfl
  · exact hb.apart j hj

theorem put (hb : RemoteBlock c h a) (hl : c.remoteHandles.lookup k = none) (data : List Byte)
    (dirty : Bool) : RemoteBlock { c with cache := (c.cache.put k data dirty).2 } h a := by
  refine ⟨hb.inv.put, hb.entry, fun j hj => ?_⟩
  rcases hb.inv.content_put_ne_none hj with rfl | hj
  · exact hl
  · exact hb.apart j hj

theorem uncache {n : CacheNode} {c' : LRUCache} (hb : RemoteBlock c h a)
    (hrem : LRUCache.Removed c.cache n c') : RemoteBlock { c with cache := c' } h a := by
  refine ⟨hrem.inv hb.inv, hb.entry, fun k hk => hb.apart k ?_⟩
  intro hcon
  apply hk
  rw [hrem.content hb.inv, hcon, ite_self]

end RemoteBlock

/-- Request ids, questions, and requests that do not change the blocks `refs`. -/
def Spares (refs : List Ref) : Effect → Prop
  | .mem o => o = .nextRequestId
  | .net (.call p req) => req.op = .write ∨ req.op = .free → (p, req.handle) ∉ refs
  | .net _ => True

theorem spares_background (refs : List Ref) : Background (Spares refs) :=
  ⟨rfl, fun o ho => by
    cases o with
    | call p req => exact absurd rfl (ho p req)
    | _ => trivial⟩

/-- What holds of the world as long as nobody writes to the blocks `refs` or frees them. None of
them is granted to anybody else. -/
structure Guards {ν : Type} (net : (o : NetOp) → ν → o.Res → ν → Prop) (refs : List Ref)
    (G : ν → Prop) : Prop where
  kept : ∀ {o : NetOp} {w r w'}, Spares refs (.net o) → G w → net o w r w' → G w'
  granted : ∀ {p size id w} {resp : MemoryResponse} {w'}, G w →
    net (.call p (allocRequest size id)) w (.response resp) w' → resp.status = .ok →
    (p, resp.handle) ∉ refs

namespace Guards

variable {ν : Type} {world : (o : NetOp) → ν → o.Res → ν → Prop} {refs : List Ref} {G : ν → Prop}
  {c₀ : Client} {h : ℕ} {a : RemoteAllocation} {s s' : Client × ν}

def Idle (c₀ : Client) (G : ν → Prop) (s : Client × ν) : Prop :=
  (∃ id, s.1 = { c₀ with nextRequestId := id }) ∧ G s.2

/-- The block is on the peers, with what is known of it there. -/
def Holds (h : ℕ) (a : RemoteAllocation) (G : ν → Prop) (s : Client × ν) : Prop :=
  RemoteBlock s.1 h a ∧ G s.2

theorem Idle.holds (hs : Holds h a G s) (hi : Idle s.1 G s') : Holds h a G s' := by
  obtain ⟨⟨id, hid⟩, hg⟩ := hi
  exact ⟨hid ▸ hs.1.requestId id, hg⟩

variable (hG : Guards world refs G)

include hG

theorem step {o : Effect} {r : o.Res} (ho : Spares refs o) (hi : Idle c₀ G s)
    (he : clientEnv world o s r s') : Idle c₀ G s' := by
  obtain ⟨⟨id, hc⟩, hg⟩ := hi
  cases o with
  | mem o =>
    obtain rfl : o = .nextRequestId := ho
    obtain ⟨hr, hw⟩ := he
    have hc' : s'.1 = { s.1 with nextRequestId := s.1.nextRequestId + 1 } := congrArg Prod.snd hr
    exact ⟨⟨_, by rw [hc', hc]⟩, hw ▸ hg⟩
  | net o =>
    obtain ⟨hc', hn⟩ := he
    exact ⟨⟨id, hc'.trans hc⟩, hG.kept ho hg hn⟩

theorem custody (c₀ : Client) : Custody (clientEnv world) (fun _ => True)
    (fun xs s => Idle c₀ G s ∧ ∀ x ∈ xs, x.ref ∉ refs) where
  size _ _ _ := trivial
  requestId hh he := ⟨hG.step (o := .mem .nextRequestId) rfl hh.1 he, hh.2⟩
  ask ho hh he := ⟨hG.step ((spares_background _).ask _ ho) hh.1 he, hh.2⟩
  refused {_ _ p size id _ _} hh _ he _ :=
    ⟨hG.step (o := .net (.call p (allocRequest size id))) nofun hh.1 he, hh.2⟩
  granted := by
    intro xs s p size id s' resp hh _ he hok offset
    refine ⟨hG.step (o := .net (.call p (allocRequest size id))) nofun hh.1 he, fun x hx => ?_⟩
    rcases List.mem_append.mp hx with hx | hx
    · exact hh.2 x hx
    · obtain rfl := List.mem_singleton.mp hx
      exact hG.granted hh.1.2 he.2 hok
  free := by
    intro xs s id s' x r hh he
    refine ⟨hG.step ?_ hh.1 he, fun y hy => hh.2 y (List.mem_cons_of_mem _ hy)⟩
    exact fun _ => hh.2 x List.mem_cons_self
  skip {_ _ _ x _} hh he _ :=
    ⟨hG.step ((spares_background _).ask (.peer x.peer) nofun) hh.1 he,
      fun y hy => hh.2 y (List.mem_cons_of_mem _ hy)⟩

theorem wp_spares {α : Type} {p : ClientM α} {A : Abort → Prop} (hp : Confined (Spares refs) A p)
    (hg : G s.2) : wp (clientEnv world) (fun _ _ => True) p (fun _ s' => Idle s.1 G s') s :=
  hp.wp_invariant (fun _ _ _ _ => trivial) (fun _ _ _ _ ho hi he => hG.step ho hi he) ⟨⟨_, rfl⟩, hg⟩

theorem wp_rollback {b : CacheBlock} {e : Err} (hs : Holds h a G s) (hk : b.handle ≠ h)
    (hfresh : ∀ orphan, s.1.remoteHandles.lookup b.handle = some orphan →
      ∀ r ∈ orphan.refs, r ∉ refs) :
    wp (clientEnv world) (fun _ _ => True) (rollback b e) (fun _ s' => Holds h a G s') s := by
  have hs₁ : Holds h a G ({ s.1 with remoteHandles := s.1.remoteHandles.erase b.handle }, s.2) :=
    ⟨hs.1.erase hk, hs.2⟩
  -- the block is put back once the reservation is dropped
  have hput {s' : Client × ν}
      (hi : Idle { s.1 with remoteHandles := s.1.remoteHandles.erase b.handle } G s') :
      wp (clientEnv world) (fun _ _ => True) (do
        let _ ← mem (.cachePut b.handle b.data b.dirty)
        MonadExcept.throw e : ClientM Unit) (fun _ s' => Holds h a G s') s' := by
    have hs' := hi.holds hs₁
    obtain ⟨⟨id, hid⟩, -⟩ := hi
    apply wp_bind_mem trivial
    refine ⟨hs'.1.put ?_ b.data b.dirty, hs'.2⟩
    rw [hid]
    exact AList.lookup_erase _ _
  apply wp_bind.mpr
  apply wp_bind_mem trivial
  cases hl : s.1.remoteHandles.lookup b.handle with
  | none =>
    have htake : s.1.perform (.remoteTake b.handle) =
        (none, { s.1 with remoteHandles := s.1.remoteHandles.erase b.handle }) := by
      rw [Client.perform, hl]
    rw [htake]
    exact hput ⟨⟨_, rfl⟩, hs.2⟩
  | some orphan =>
    have htake : s.1.perform (.remoteTake b.handle) =
        (some orphan, { s.1 with remoteHandles := s.1.remoteHandles.erase b.handle }) := by
      rw [Client.perform, hl]
    rw [htake]
    have hfree : Confined (Spares refs) (fun _ => True) (freeRemote orphan) :=
      confined_freeRemote (spares_background _) fun r hr _ _ => hfresh orphan hl r hr
    refine wp_tryCatch.mpr (wp_mono (hG.wp_spares hfree hs₁.2) fun out s' hi => ?_)
    cases out with
    | ok _ => exact hput hi
    | threw _ => exact hput hi
    | aborted x => exact hi.holds hs₁

theorem wp_pushOut {b : CacheBlock} (hs : Holds h a G s) (hc : s.1.cache.content b.handle = none)
    (hl : s.1.remoteHandles.lookup b.handle = none) :
    wp (clientEnv world) (fun _ _ => True) (pushOut b) (fun _ s' => Holds h a G s') s := by
  have hk : b.handle ≠ h := by
    intro he
    exact absurd ((he ▸ hl).symm.trans hs.1.entry) nofun
  have hC := hG.custody s.1
  apply wp_tryCatch.mpr
  apply wp_bind.mpr
  refine hC.wp_allocateRemote ⟨⟨⟨_, rfl⟩, hs.2⟩, nofun⟩ trivial ?_ ?_
  · rintro e ⟨c₁, w₁⟩ ⟨⟨⟨id, hid⟩, hg⟩, hfresh⟩ - -
    obtain rfl : c₁ = { s.1 with nextRequestId := id } := hid
    have hfresh : ∀ r ∈ e.refs, r ∉ refs := by
      intro r hr
      obtain ⟨x, hx, rfl⟩ := List.mem_map.mp hr
      exact hfresh x hx
    have hs₁ : Holds h a G ({ s.1 with
        nextRequestId := id
        remoteHandles := s.1.remoteHandles.insert b.handle e }, w₁) :=
      ⟨(hs.1.requestId id).insert hk hc, hg⟩
    have hentry : (s.1.remoteHandles.insert b.handle e).lookup b.handle = some e :=
      AList.lookup_insert _
    apply wp_bind.mp
    apply wp_bind_mem trivial
    apply wp_bind_found trivial hentry
    have hwrite : Confined (Spares refs) (fun _ => True) (writeRemote e 0 b.data) :=
      confined_writeRemote (spares_background _) (fun r hr _ _ _ _ _ => hfresh r hr) 0
    refine wp_mono (hG.wp_spares hwrite hs₁.2) fun out s' hi => ?_
    have hs' := hi.holds hs₁
    cases out with
    | ok _ => exact hs'
    | aborted x => exact hs'
    | threw e' =>
      apply hG.wp_rollback hs' hk
      intro orphan ho
      obtain ⟨⟨id', hid'⟩, -⟩ := hi
      rw [hid'] at ho
      obtain rfl := Option.some.inj (hentry.symm.trans ho)
      exact hfresh
  · rintro e ⟨c₁, w₁⟩ ⟨⟨⟨id, hid⟩, hg⟩, -⟩
    obtain rfl : c₁ = { s.1 with nextRequestId := id } := hid
    exact hG.wp_rollback ⟨hs.1.requestId id, hg⟩ hk
      (fun orphan ho => absurd (hl.symm.trans ho) nofun)

theorem wp_evictRounds {sizeNeeded rounds : ℕ} {pressure : Bool} (hs : Holds h a G s) :
    wp (clientEnv world) (fun _ _ => True) (evictRounds sizeNeeded pressure rounds)
      (fun _ s' => Holds h a G s') s := by
  induction rounds generalizing s with
  | zero => exact hs
  | succ rounds ih =>
    apply wp_bind_mem trivial
    change wp _ _ (if (s.1.cache.needsEviction sizeNeeded || pressure) = true then _ else _) _ s
    split_ifs
    swap
    · exact hs
    apply wp_bind_mem trivial
    obtain ⟨-, he⟩ | ⟨n, he, hrem⟩ := s.1.cache.popBack_cases
    · have hone : s.1.perform .cacheEvictOne = (none, s.1) := by rw [Client.perform, he]
      rw [hone]
      exact hs
    · have hone : s.1.perform .cacheEvictOne =
          (some n.block, { s.1 with cache := s.1.cache.popBack }) := by rw [Client.perform, he]
      rw [hone]
      have hn : s.1.cache.content n.block.handle = some n.block.data :=
        hs.1.inv.content_eq_some.mpr ⟨n, hrem.perm.mem_iff.mpr List.mem_cons_self, rfl, rfl⟩
      have hpush := hG.wp_pushOut (s := ({ s.1 with cache := s.1.cache.popBack }, s.2))
        (b := n.block) ⟨hs.1.uncache hrem, hs.2⟩ (by rw [hrem.content hs.1.inv, if_pos rfl])
        (hs.1.apart _ (by simp [hn]))
      refine wp_bind.mpr (wp_mono hpush fun out s' hs' => ?_)
      cases out with
      | ok _ => exact ih hs'
      | threw e => exact hs'
      | aborted x => exact hs'

theorem wp_evictIfNeeded {sizeNeeded : ℕ} (hs : Holds h a G s) :
    wp (clientEnv world) (fun _ _ => True) (evictIfNeeded sizeNeeded)
      (fun _ s' => Holds h a G s') s := by
  apply wp_bind_net trivial
  intro bytes w hw
  apply wp_bind_mem trivial
  exact hG.wp_evictRounds ⟨hs.1, hG.kept (o := .availableBytes) trivial hs.2 hw⟩

end Guards

end MemInfo
