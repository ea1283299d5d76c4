import MemInfo.Memclient.Representation

/-! # The operations of the client

What eviction, loading and the four calls of the client do to the map that the client
represents, among peers that answer.
-/

namespace MemInfo

open Lib Prog MemoryClient

variable {maxPayload h size : ℕ} {A : Contents} {s : Client × Peers} {a : RemoteAllocation}
  {bs : List Byte}

section Eviction

theorem ensures_awaitPeer {Q : Outcome Err Unit → Client × Peers → Prop}
    (h : ∀ s', Kept s s' → s'.2.store = s.2.store → Q (.ok ()) s') :
    Ensures maxPayload awaitPeer Q s := by
  refine ensures_net_bind fun r w ⟨hj, he⟩ => ?_
  split_ifs
  · exact ensures_net_bind fun _ w' ⟨hj', he'⟩ =>
      h _ ⟨⟨_, rfl⟩, hj.trans hj'⟩ (he'.trans he)
  · exact h _ ⟨⟨_, rfl⟩, hj⟩ he

theorem ensures_allocateRemote {Q : Outcome Err Unit → Client × Peers → Prop}
    (hr : Rep maxPayload A s) (hA : A h = none) (hlt : h < s.1.nextLocalHandle)
    (hadm : Admissible maxPayload s.1.cache.maxBytes size)
    (hok : ∀ a s', Frame h s s' → s'.1.cache = s.1.cache → s'.1.remoteHandles.lookup h = some a →
      Rep maxPayload (Function.update A h (some (List.replicate size 0))) s' → Q (.ok ()) s')
    (hthrow : ∀ e s', Frame h s s' → s'.1.cache = s.1.cache → Rep maxPayload A s' →
      Q (.threw e) s') :
    Ensures maxPayload (allocateRemote h size) Q s := by
  refine wp_bind.mpr (ensures_awaitPeer fun s₁ hk₁ hs₁ => ?_)
  refine ensures_net_bind fun candidates w ⟨hj, he, hc⟩ => ?_
  have hk : Kept s (s₁.1, w) := hk₁.trans ⟨⟨_, rfl⟩, hj⟩
  have hs : w.store = s.2.store := he.trans hs₁
  refine wp_bind.mpr (ensures_place hadm.1 hc ?_ ?_)
  · intro s' hk' hs'
    have hall := fun r => congrFun (hs'.trans hs) r
    refine hthrow _ s' ((hk.trans hk').frame fun _ _ _ _ r _ => hall r) ?_
      (hr.kept (hk.trans hk') fun _ _ _ r _ => hall r)
    obtain ⟨id, hid⟩ := (hk.trans hk').client
    rw [hid]
  · intro a s' hk' hsize hres hx hj'
    have hres : Reserved s.2.store a.parts s'.2.store := hs ▸ hres
    have hk := hk.trans hk'
    -- the new blocks are none of those in use
    have hfresh (k b) (hb : s.1.remoteHandles.lookup k = some b) (r) (hra : r ∈ a.refs) :
        r ∉ b.refs := by
      intro hrb
      obtain ⟨x, hx, rfl⟩ := List.mem_map.mp hra
      obtain ⟨y, hy, he⟩ := List.mem_map.mp hrb
      obtain ⟨-, ds, -, hp⟩ := hr.of_lookup hb
      have := (hp.stored y hy).symm.trans (he ▸ hres.fresh x hx)
      cases this
    have hothers (k b) (hb : s.1.remoteHandles.lookup k = some b) (r) (hrb : r ∈ b.refs) :
        s'.2.store r = s.2.store r :=
      hres.others r fun hra => hfresh k b hb r hra hrb
    have hr' := hr.kept hk hothers
    have hf : Frame h s s' := hk.frame fun k _ b hb r hrb => hothers k b hb r hrb
    have hp := hres.placed hsize hx hj'
    have hadm' :
        Admissible maxPayload s.1.cache.maxBytes (List.replicate size (0 : Byte)).length := by
      rwa [List.length_replicate]
    obtain ⟨id, hid⟩ := hk.client
    obtain ⟨c', w'⟩ := s'
    obtain rfl : c' = { s.1 with nextRequestId := id } := hid
    refine ensures_mem_bind (f := Pure.pure) trivial fun _ => hok a _ ?_ rfl (AList.lookup_insert _)
      (hr'.register hA hp hlt hadm' hfresh)
    exact ⟨rfl, Nat.le_refl _, hf.joined, fun _ _ => rfl, fun k hne => AList.lookup_insert_ne hne,
      hf.store⟩

/-- What a block that is pushed out leaves behind: the block on the peers or, if that
fails, back in the cache. -/
theorem ensures_pushOut {b : CacheBlock} {Q : Outcome Err Unit → Client × Peers → Prop}
    (hr : Rep maxPayload A s) (hA : A b.handle = none) (hlt : b.handle < s.1.nextLocalHandle)
    (hadm : Admissible maxPayload s.1.cache.maxBytes b.data.length)
    (hlen : b.data.length ≤ s.1.cache.maxBytes) (hroom : s.1.cache.HasRoom b.data.length)
    (hok : ∀ s', Frame b.handle s s' → s'.1.cache = s.1.cache →
      Rep maxPayload (Function.update A b.handle (some b.data)) s' → Q (.ok ()) s')
    (hthrow : ∀ e s', Rep maxPayload (Function.update A b.handle (some b.data)) s' →
      Q (.threw e) s') :
    Ensures maxPayload (pushOut b) Q s := by
  have hd : b.data ≠ [] := List.length_pos_iff.mp hadm.1
  refine wp_tryCatch.mpr (wp_bind.mpr (ensures_allocateRemote hr hA hlt hadm ?_ ?_))
  · intro a s₁ hf hc hl hr₁
    refine ensures_mem_bind trivial fun _ => ?_
    have hfind : s₁.1.perform (.remoteFind b.handle) = (some a, s₁.1) := congrArg (·, s₁.1) hl
    rw [hfind]
    have hzs := Function.update_self b.handle (some (List.replicate b.data.length (0 : Byte))) A
    obtain ⟨-, zs, hzs', hp⟩ := hr₁.of_lookup hl
    obtain rfl := Option.some.inj (hzs.symm.trans hzs')
    have hz : (List.replicate b.data.length (0 : Byte)).length = b.data.length :=
      List.length_replicate
    refine ensures_writeRemote hp hd ?_ (hz.symm ▸ hadm.2.1) (hadm.2.2 hlen) ?_
    · rw [hz, Nat.zero_add]
    intro s₂ hk hp₂ hs₂
    have hall : splice (List.replicate b.data.length 0) 0 b.data = b.data := by simp [splice]
    rw [hall] at hp₂
    obtain ⟨hf₂, hr₂⟩ := hr₁.rewrite hl hzs hk hp₂ hz.symm hs₂
    rw [Function.update_idem] at hr₂
    obtain ⟨id, hid⟩ := hk.client
    exact hok s₂ (hf.trans hf₂) (by rw [hid]; exact hc) hr₂
  · intro e s₁ hf hc hr₁
    refine wp_bind.mpr (ensures_mem_bind trivial fun _ => ?_)
    have hnone := (hr₁.of_none hA).2
    have htake : s₁.1.perform (.remoteTake b.handle) =
        (none, { s₁.1 with remoteHandles := s₁.1.remoteHandles.erase b.handle }) := by
      rw [Client.perform, hnone]
    rw [htake]
    have hr₂ := hr₁.unregister (hr₁.of_none hA).1 (.refl s₁) fun _ _ => rfl
    rw [Function.update_eq_self_iff.mpr hA.symm] at hr₂
    obtain ⟨hput, hr₃⟩ := hr₂.put_new b.dirty hA (Nat.lt_of_lt_of_le hlt hf.issued)
      (hc.symm ▸ hadm) (hc.symm ▸ hlen) (hc.symm ▸ hroom)
    exact ensures_mem_bind hput fun hrange => hthrow e _ (hr₃ hrange)

/-- The allocations of the client are still there after an eviction. -/
structure Spared (s s' : Client × Peers) : Prop where
  maxBytes : s'.1.cache.maxBytes = s.1.cache.maxBytes
  issued : s.1.nextLocalHandle ≤ s'.1.nextLocalHandle
  lookup : ∀ h a, s.1.remoteHandles.lookup h = some a → s'.1.remoteHandles.lookup h = some a

theorem Frame.spared {s' : Client × Peers} (hf : Frame h s s')
    (hl : s.1.remoteHandles.lookup h = none) : Spared s s' := by
  refine ⟨hf.maxBytes, hf.issued, fun k a ha => ?_⟩
  have hk : k ≠ h := by
    rintro rfl
    exact absurd (hl.symm.trans ha) nofun
  exact (hf.lookup k hk).trans ha

theorem Spared.trans {s₁ s' : Client × Peers} (h₁ : Spared s s₁) (h₂ : Spared s₁ s') :
    Spared s s' :=
  ⟨h₂.maxBytes.trans h₁.maxBytes, Nat.le_trans h₁.issued h₂.issued,
    fun h a ha => h₂.lookup h a (h₁.lookup h a ha)⟩

theorem ensures_evictRounds {rounds : ℕ} {pressure : Bool}
    {Q : Outcome Err Unit → Client × Peers → Prop} (hr : Rep maxPayload A s)
    (hrounds : s.1.cache.count < rounds)
    (hok : ∀ s', Spared s s' → s'.1.cache.HasRoom size → Rep maxPayload A s' → Q (.ok ()) s')
    (hthrow : ∀ e s', Rep maxPayload A s' → Q (.threw e) s') :
    Ensures maxPayload (evictRounds size pressure rounds) Q s := by
  induction rounds generalizing s with
  | zero => exact absurd hrounds (Nat.not_lt_zero _)
  | succ rounds ih =>
    refine ensures_mem_bind trivial fun _ => ?_
    change Ensures maxPayload
      (if (s.1.cache.needsEviction size || pressure) = true then _ else _) Q s
    split_ifs with hcond
    · refine ensures_mem_bind trivial fun _ => ?_
      obtain ⟨hnil, he⟩ | ⟨n, he, hrem⟩ := s.1.cache.popBack_cases
      · have hone : s.1.perform .cacheEvictOne = (none, s.1) := by rw [Client.perform, he]
        rw [hone]
        exact hok s ⟨rfl, Nat.le_refl _, fun _ _ ha => ha⟩ (.inr hnil) hr
      · have hone : s.1.perform .cacheEvictOne =
            (some n.block, { s.1 with cache := s.1.cache.popBack }) := by rw [Client.perform, he]
        rw [hone]
        have hm := s.1.cache.maxBytes_popBack
        obtain ⟨hA, hr₁⟩ := hr.uncache hrem hm
        have hback : Function.update (Function.update A n.block.handle none) n.block.handle
            (some n.block.data) = A := by
          rw [Function.update_idem, ← hA, Function.update_eq_self]
        have hnone : Function.update A n.block.handle none n.block.handle = none :=
          Function.update_self ..
        obtain ⟨-, hlen, hroom⟩ := hr.counted.removed hrem hm
        refine wp_bind.mpr (ensures_pushOut hr₁ hnone (hr.issued hA) (hm.symm ▸ hr.admissible hA)
          hlen hroom ?_ ?_)
        · intro s₁ hf hc hr₂
          rw [hback] at hr₂
          have hsp := hf.spared (hr₁.of_none hnone).2
          have hsp : Spared s s₁ := ⟨hsp.maxBytes.trans hm, hsp.issued, hsp.lookup⟩
          refine ih hr₂ ?_ fun s' h₁ => hok s' (hsp.trans h₁)
          have := hrem.perm.length_eq
          rw [List.length_cons] at this
          change s₁.1.cache.list.length < rounds
          rw [hc]
          change s.1.cache.popBack.list.length < rounds
          change s.1.cache.list.length < rounds + 1 at hrounds
          omega
        · intro e s' hr'
          rw [hback] at hr'
          exact hthrow e s' hr'
    · rw [Bool.or_eq_true, not_or] at hcond
      have hle : wrap (s.1.cache.currentBytes + size) ≤ s.1.cache.maxBytes := by
        simpa [LRUCache.needsEviction] using hcond.1
      exact hok s ⟨rfl, Nat.le_refl _, fun _ _ ha => ha⟩ (.inl hle) hr

theorem ensures_evictIfNeeded {Q : Outcome Err Unit → Client × Peers → Prop}
    (hr : Rep maxPayload A s)
    (hok : ∀ s', Spared s s' → s'.1.cache.HasRoom size → Rep maxPayload A s' → Q (.ok ()) s')
    (hthrow : ∀ e s', Rep maxPayload A s' → Q (.threw e) s') :
    Ensures maxPayload (evictIfNeeded size) Q s := by
  refine ensures_net_bind fun bytes w ⟨hj, he⟩ => ensures_mem_bind trivial fun _ => ?_
  have hk : Kept s (s.1, w) := ⟨⟨_, rfl⟩, hj⟩
  exact ensures_evictRounds (hr.kept hk fun _ _ _ r _ => congrFun he r) (Nat.lt_succ_self _)
    (fun s' hs => hok s' ⟨hs.maxBytes, hs.issued, hs.lookup⟩) hthrow

theorem ensures_loadToLocal {Q : Outcome Err Unit → Client × Peers → Prop}
    (hr : Rep maxPayload A s)
    (hsize : ∀ a, s.1.remoteHandles.lookup h = some a → a.size ≤ s.1.cache.maxBytes)
    (hok : ∀ s', s'.1.remoteHandles.lookup h = none → Rep maxPayload A s' → Q (.ok ()) s')
    (hthrow : ∀ e s', Rep maxPayload A s' → Q (.threw e) s') :
    Ensures maxPayload (loadToLocal h) Q s := by
  refine ensures_mem_bind trivial fun _ => ?_
  cases hl : s.1.remoteHandles.lookup h with
  | none =>
    have hfind : s.1.perform (.remoteFind h) = (none, s.1) := congrArg (·, s.1) hl
    rw [hfind]
    exact hthrow _ s hr
  | some a =>
    have hfind : s.1.perform (.remoteFind h) = (some a, s.1) := congrArg (·, s.1) hl
    rw [hfind]
    refine wp_bind.mpr (ensures_evictIfNeeded hr (fun s₁ hsp hroom hr₁ => ?_) hthrow)
    have hl₁ := hsp.lookup h a hl
    obtain ⟨hc, bs, hA, hp⟩ := hr₁.of_lookup hl₁
    have hlen : bs.length ≤ s₁.1.cache.maxBytes := by
      rw [← hp.size, hsp.maxBytes]
      exact hsize a hl
    have hadm := hr₁.admissible hA
    rw [hp.size] at hroom ⊢
    refine wp_bind.mpr (ensures_readRemote true hp hadm.1 (Nat.zero_add _).le hadm.2.1
      (hadm.2.2 hlen) fun s₂ hk _ hs => ensures_mem_bind trivial fun _ => ?_)
    have hr₂ := hr₁.unregister hc hk fun r hra => hs r (hra a hl₁)
    obtain ⟨id, hid⟩ := hk.client
    have hdata : slice bs 0 bs.length = bs := by simp [slice]
    rw [hdata]
    have hroom₂ : s₂.1.cache.HasRoom bs.length := by rw [hid]; exact hroom
    obtain ⟨hput, hr₃⟩ := hr₂.put_new false (Function.update_self ..)
      (by rw [hid]; exact hr₁.issued hA) (by rw [hid]; exact hadm) (by rw [hid]; exact hlen)
      hroom₂
    refine ensures_mem_bind (f := fun _ => Pure.pure ()) hput fun hrange => ?_
    have hr' := hr₃ hrange
    rw [Function.update_idem, ← hA, Function.update_eq_self] at hr'
    exact hok _ (AList.lookup_erase _ _) hr'

end Eviction

section Calls

theorem not_outOfBounds {blockSize offset n : ℕ} (h : ¬ OutOfBounds blockSize offset n) :
    offset + n ≤ blockSize := by
  unfold OutOfBounds at h
  omega

theorem ensures_cacheGet {α : Type} {f : Option (List Byte) → ClientM α}
    {Q : Outcome Err α → Client × Peers → Prop} (hr : Rep maxPayload A s)
    (hf : ∀ s', s'.1.cache.content h = s.1.cache.content h →
      s'.1.remoteHandles = s.1.remoteHandles → Rep maxPayload A s' →
      Ensures maxPayload (f (s.1.cache.content h)) Q s') :
    Ensures maxPayload (mem (.cacheGet h) >>= f) Q s := by
  obtain ⟨l, hp, hget⟩ := hr.inv.get_cases h
  refine ensures_mem_bind trivial fun _ => ?_
  have hperform : s.1.perform (.cacheGet h) =
      (s.1.cache.content h, { s.1 with cache := { s.1.cache with list := l } }) := by
    rw [Client.perform, hget]
  rw [hperform]
  exact hf _ (hr.inv.content_reorder hp h) rfl (hr.reorder hp)

theorem ensures_oversizedRemoteAlloc {α : Type} {f : Option RemoteAllocation → ClientM α}
    {Q : Outcome Err α → Client × Peers → Prop}
    (hnone : (∀ a, s.1.remoteHandles.lookup h = some a → a.size ≤ s.1.cache.maxBytes) →
      Ensures maxPayload (f none) Q s)
    (hsome : ∀ a, s.1.remoteHandles.lookup h = some a → Ensures maxPayload (f (some a)) Q s) :
    Ensures maxPayload (oversizedRemoteAlloc h >>= f) Q s := by
  refine wp_bind.mpr (ensures_mem_bind trivial fun _ => ?_)
  cases hl : s.1.remoteHandles.lookup h with
  | none =>
    have hfind : s.1.perform (.remoteFind h) = (none, s.1) := congrArg (·, s.1) hl
    rw [hfind]
    exact hnone fun a ha => absurd (hl.symm.trans ha) nofun
  | some a =>
    have hfind : s.1.perform (.remoteFind h) = (some a, s.1) := congrArg (·, s.1) hl
    rw [hfind]
    refine ensures_mem_bind trivial fun _ => ?_
    change Ensures maxPayload (if a.size ≤ s.1.cache.maxBytes then Pure.pure none
      else Pure.pure (some a)) _ s
    split_ifs with hle
    · refine hnone fun b hb => ?_
      obtain rfl := Option.some.inj (hl.symm.trans hb)
      exact hle
    · exact hsome a hl

theorem ensures_cached {α : Type} {k : List Byte → ClientM α}
    {Q : Outcome Err α → Client × Peers → Prop} (hr : Rep maxPayload A s)
    (hsize : ∀ a, s.1.remoteHandles.lookup h = some a → a.size ≤ s.1.cache.maxBytes)
    (hk : ∀ bs s', A h = some bs → s'.1.cache.content h = some bs → Rep maxPayload A s' →
      Ensures maxPayload (k bs) Q s')
    (hthrow : ∀ e s', Rep maxPayload A s' → Q (.threw e) s') :
    Ensures maxPayload (do
      loadToLocal h
      match ← mem (.cacheGet h) with
      | none => MonadExcept.throw (.runtimeError "Failed to load block from remote")
      | some bs => k bs) Q s := by
  refine wp_bind.mpr (ensures_loadToLocal hr hsize (fun s₁ hl hr₁ => ?_) hthrow)
  refine ensures_cacheGet hr₁ fun s₂ hc _ hr₂ => ?_
  cases hcon : s₁.1.cache.content h with
  | none => exact hthrow _ s₂ hr₂
  | some bs => exact hk bs s₂ (hr₁.of_content hcon).1 (hc.trans hcon) hr₂

theorem ensures_readLocal {offset n : ℕ} {Q : Outcome Err (List Byte) → Client × Peers → Prop}
    (hr : Rep maxPayload A s) (hA : A h = some bs)
    (hok : ∀ bs s', A h = some bs → offset + n ≤ bs.length → Rep maxPayload A s' →
      Q (.ok (slice bs offset n)) s')
    (hthrow : ∀ e s', Rep maxPayload A s' → Q (.threw e) s') :
    Ensures maxPayload (readLocal bs offset n) Q s := by
  unfold readLocal
  split_ifs with hout
  · exact hthrow _ s hr
  · exact hok bs s hA (not_outOfBounds hout) hr

theorem ensures_readOversized {offset n : ℕ} {Q : Outcome Err (List Byte) → Client × Peers → Prop}
    (hr : Rep maxPayload A s) (hl : s.1.remoteHandles.lookup h = some a) (hpos : 0 < n)
    (hfit : n ≤ maxPayload)
    (hok : ∀ bs s', A h = some bs → offset + n ≤ bs.length → Rep maxPayload A s' →
      Q (.ok (slice bs offset n)) s')
    (hthrow : ∀ e s', Rep maxPayload A s' → Q (.threw e) s') :
    Ensures maxPayload (if OutOfBounds a.size offset n then
      MonadExcept.throw (.outOfRange "Read out of bounds")
      else readRemote a offset n false) Q s := by
  obtain ⟨-, bs, hA, hp⟩ := hr.of_lookup hl
  split_ifs with hout
  · exact hthrow _ s hr
  · have hle := not_outOfBounds hout
    rw [hp.size] at hle
    exact ensures_readRemote false hp hpos hle (hr.admissible hA).2.1 hfit
      fun s' hk hs _ => hok bs s' hA hle (hr.kept hk fun _ _ _ r _ => congrFun (hs rfl) r)

theorem ensures_read {offset n : ℕ} {Q : Outcome Err (List Byte) → Client × Peers → Prop}
    (hr : Rep maxPayload A s) (hpos : 0 < n) (hfit : n ≤ maxPayload)
    (hok : ∀ bs s', A h = some bs → offset + n ≤ bs.length → Rep maxPayload A s' →
      Q (.ok (slice bs offset n)) s')
    (hthrow : ∀ e s', Rep maxPayload A s' → Q (.threw e) s') :
    Ensures maxPayload (read h offset n) Q s := by
  refine ensures_cacheGet hr fun s₁ hc hrem hr₁ => ?_
  cases hcon : s.1.cache.content h with
  | some bs => exact ensures_readLocal hr₁ (hr.of_content hcon).1 hok hthrow
  | none =>
    refine ensures_oversizedRemoteAlloc (fun hsize => ?_) fun a hl => ?_
    · exact ensures_cached hr₁ hsize
        (fun bs s' hA _ hr' => ensures_readLocal hr' hA hok hthrow) hthrow
    · exact ensures_readOversized hr₁ hl hpos hfit hok hthrow

theorem ensures_writeLocal {offset : ℕ} {data : List Byte}
    {Q : Outcome Err Unit → Client × Peers → Prop}
    (hr : Rep maxPayload A s) (hA : A h = some bs) (hc : s.1.cache.content h = some bs)
    (hok : ∀ bs s', A h = some bs → offset + data.length ≤ bs.length →
      Rep maxPayload (Function.update A h (some (splice bs offset data))) s' → Q (.ok ()) s')
    (hthrow : ∀ e s', Rep maxPayload A s' → Q (.threw e) s') :
    Ensures maxPayload (writeLocal h bs offset data) Q s := by
  unfold writeLocal
  split_ifs with hout
  · exact hthrow _ s hr
  · have hle := not_outOfBounds hout
    obtain ⟨hput, hr'⟩ := hr.put_same true hc (length_splice hle)
    exact ensures_mem_bind hput fun _ => hok bs _ hA hle hr'

theorem ensures_writeOversized {offset : ℕ} {data : List Byte}
    {Q : Outcome Err Unit → Client × Peers → Prop} (hr : Rep maxPayload A s)
    (hl : s.1.remoteHandles.lookup h = some a) (hd : data ≠ []) (hfit : data.length ≤ maxPayload)
    (hok : ∀ bs s', A h = some bs → offset + data.length ≤ bs.length →
      Rep maxPayload (Function.update A h (some (splice bs offset data))) s' → Q (.ok ()) s')
    (hthrow : ∀ e s', Rep maxPayload A s' → Q (.threw e) s') :
    Ensures maxPayload (if OutOfBounds a.size offset data.length then
      MonadExcept.throw (.outOfRange "Write out of bounds")
      else writeRemote a offset data) Q s := by
  obtain ⟨-, bs, hA, hp⟩ := hr.of_lookup hl
  split_ifs with hout
  · exact hthrow _ s hr
  · have hle := not_outOfBounds hout
    rw [hp.size] at hle
    refine ensures_writeRemote hp hd hle (hr.admissible hA).2.1 hfit fun s' hk hp' hs' => ?_
    exact hok bs s' hA hle (hr.rewrite hl hA hk hp' (length_splice hle) hs').2

theorem ensures_write {offset : ℕ} {data : List Byte} {Q : Outcome Err Unit → Client × Peers → Prop}
    (hr : Rep maxPayload A s) (hd : data ≠ []) (hfit : data.length ≤ maxPayload)
    (hok : ∀ bs s', A h = some bs → offset + data.length ≤ bs.length →
      Rep maxPayload (Function.update A h (some (splice bs offset data))) s' → Q (.ok ()) s')
    (hthrow : ∀ e s', Rep maxPayload A s' → Q (.threw e) s') :
    Ensures maxPayload (write h offset data) Q s := by
  refine ensures_cacheGet hr fun s₁ hc hrem hr₁ => ?_
  cases hcon : s.1.cache.content h with
  | some bs => exact ensures_writeLocal hr₁ (hr.of_content hcon).1 (hc.trans hcon) hok hthrow
  | none =>
    refine ensures_oversizedRemoteAlloc (fun hsize => ?_) fun a hl => ?_
    · exact ensures_cached hr₁ hsize
        (fun bs s' hA hc' hr' => ensures_writeLocal hr' hA hc' hok hthrow) hthrow
    · exact ensures_writeOversized hr₁ hl hd hfit hok hthrow

/-- Freeing a handle ends it, whether it was live or not. -/
theorem ensures_free {Q : Outcome Err Unit → Client × Peers → Prop} (hr : Rep maxPayload A s)
    (hok : ∀ s', Rep maxPayload (Function.update A h none) s' → Q (.ok ()) s') :
    Ensures maxPayload (free h) Q s := by
  refine ensures_mem_bind trivial fun _ => ?_
  obtain ⟨hf, hd⟩ | ⟨n, hf, rfl, hrem⟩ := hr.inv.detach_cases h
  · have hremove : s.1.perform (.cacheRemove h) = (false, s.1) := by
      rw [Client.perform, LRUCache.remove, hf, hd]
      rfl
    have hc : s.1.cache.content h = none := LRUCache.content_eq_none.mpr hf
    rw [hremove]
    refine ensures_mem_bind trivial fun _ => ?_
    cases hl : s.1.remoteHandles.lookup h with
    | none =>
      have hfind : s.1.perform (.remoteFind h) = (none, s.1) := congrArg (·, s.1) hl
      rw [hfind]
      apply hok s
      have hA : A h = none := by
        cases hA : A h with
        | none => rfl
        | some bs =>
          obtain ⟨hc', -⟩ | ⟨-, a, ha, -⟩ := hr.some_cases hA
          · rw [hc] at hc'
            cases hc'
          · rw [hl] at ha
            cases ha
      rwa [Function.update_eq_self_iff.mpr hA.symm]
    | some a =>
      have hfind : s.1.perform (.remoteFind h) = (some a, s.1) := congrArg (·, s.1) hl
      rw [hfind]
      obtain ⟨-, bs, hA, hp⟩ := hr.of_lookup hl
      refine wp_bind.mpr (ensures_freeRemote hp.joined fun s₁ hk hfr => ?_)
      refine ensures_mem_bind (f := fun _ => Pure.pure ()) trivial fun _ => hok _ ?_
      refine hr.unregister hc hk fun r hra => ?_
      rw [hfr r, if_neg (hra a hl)]
  · have hremove : s.1.perform (.cacheRemove n.block.handle) =
        (true, { s.1 with cache := s.1.cache.detach n.block.handle }) := by
      rw [Client.perform, LRUCache.remove, hf]
      rfl
    rw [hremove]
    exact hok _ (hr.uncache hrem (s.1.cache.maxBytes_detach _)).2

theorem ensures_allocateAs {Q : Outcome Err ℕ → Client × Peers → Prop} (hr : Rep maxPayload A s)
    (hA : A h = none) (hlt : h < s.1.nextLocalHandle)
    (hadm : Admissible maxPayload s.1.cache.maxBytes size)
    (hok : ∀ s', Rep maxPayload (Function.update A h (some (List.replicate size 0))) s' →
      Q (.ok h) s')
    (hthrow : ∀ e s', Rep maxPayload A s' → Q (.threw e) s') :
    Ensures maxPayload (allocateAs h size) Q s := by
  have hlen : (List.replicate size (0 : Byte)).length = size := List.length_replicate
  refine ensures_mem_bind trivial fun _ => ?_
  change Ensures maxPayload (if size > s.1.cache.maxBytes then _ else _) Q _
  split_ifs with hbig
  · refine wp_bind.mpr (ensures_allocateRemote hr hA hlt hadm ?_ ?_)
    · exact fun _ s' _ _ _ hr' => hok s' hr'
    · exact fun e s' _ _ hr' => hthrow e s' hr'
  · refine wp_bind.mpr (ensures_evictIfNeeded hr (fun s₂ hsp hroom hr₂ => ?_) hthrow)
    have hmax : s₂.1.cache.maxBytes = s.1.cache.maxBytes := hsp.maxBytes
    have hissued : h < s₂.1.nextLocalHandle := Nat.lt_of_lt_of_le hlt hsp.issued
    obtain ⟨hput, hr₃⟩ := hr₂.put_new false hA hissued (hlen.symm ▸ hmax.symm ▸ hadm)
      (by omega) (hlen.symm ▸ hroom)
    refine ensures_mem_bind hput fun hrange' => ?_
    have htrue : (s₂.1.perform (.cachePut h (List.replicate size 0) false)).1 = true := by
      rw [Client.perform, LRUCache.put, if_neg (by omega)]
    rw [htrue]
    exact hok _ (hr₃ hrange')

theorem ensures_nextLocalHandle {α : Type} {f : ℕ → ClientM α}
    {Q : Outcome Err α → Client × Peers → Prop} (hr : Rep maxPayload A s)
    (hf : ∀ s', A s.1.nextLocalHandle = none → s'.1.cache = s.1.cache →
      s'.1.nextLocalHandle = s.1.nextLocalHandle + 1 → Rep maxPayload A s' →
      Ensures maxPayload (f s.1.nextLocalHandle) Q s') :
    Ensures maxPayload (mem .nextLocalHandle >>= f) Q s := by
  refine ensures_mem_bind trivial fun hrange => ?_
  have hlt : s.1.nextLocalHandle < 2 ^ 64 := hrange.1
  have hnext : s.1.perform .nextLocalHandle =
      (s.1.nextLocalHandle, { s.1 with nextLocalHandle := s.1.nextLocalHandle + 1 }) := by
    rw [Client.perform, wrap_of_lt hlt]
  rw [hnext]
  have hA : A s.1.nextLocalHandle = none := by
    cases hA : A s.1.nextLocalHandle with
    | none => rfl
    | some bs => exact absurd (hr.issued hA) (Nat.lt_irrefl _)
  exact hf (_, s.2) hA rfl rfl ⟨hr.inv, hr.room, ⟨hlt, hr.inRange.2⟩,
    fun k => (hr.located k).mono rfl (Nat.le_succ _) subset_rfl rfl rfl fun _ _ _ _ => rfl,
    hr.apart⟩

theorem ensures_allocate {Q : Outcome Err ℕ → Client × Peers → Prop} (hr : Rep maxPayload A s)
    (hadm : Admissible maxPayload s.1.cache.maxBytes size)
    (hok : ∀ h s', A h = none →
      Rep maxPayload (Function.update A h (some (List.replicate size 0))) s' → Q (.ok h) s')
    (hthrow : ∀ e s', Rep maxPayload A s' → Q (.threw e) s') :
    Ensures maxPayload (allocate size) Q s := by
  rw [allocate]
  apply ensures_nextLocalHandle hr
  intro s₁ hA hcache hnext hr₁
  refine ensures_allocateAs hr₁ hA ?_ (hcache ▸ hadm) (fun s' hr' => hok _ s' hA hr') hthrow
  rw [hnext]
  exact Nat.lt_succ_self _

end Calls

end MemInfo
