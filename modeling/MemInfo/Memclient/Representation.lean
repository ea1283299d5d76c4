import MemInfo.Memclient.Placement

/-! # What the client's data stands for

A client and its peers represent a map from handles to byte arrays: every live handle is
either in the cache or placed on the peers, and no two handles share a block of a peer.
-/

namespace MemInfo

open Lib Prog MemoryClient

abbrev Contents := ℕ → Option (List Byte)

/-- A block is not empty, and if it can be cached, it fits a frame. -/
def Admissible (maxPayload maxBytes size : ℕ) : Prop :=
  0 < size ∧ size < 2 ^ 64 ∧ (size ≤ maxBytes → size ≤ maxPayload)

instance (maxPayload maxBytes size : ℕ) : Decidable (Admissible maxPayload maxBytes size) :=
  inferInstanceAs (Decidable (_ ∧ _ ∧ (_ → _)))

def Located (maxPayload : ℕ) (s : Client × Peers) (h : ℕ) : Option (List Byte) → Prop
  | none => s.1.cache.content h = none ∧ s.1.remoteHandles.lookup h = none
  | some bs => h < s.1.nextLocalHandle ∧ Admissible maxPayload s.1.cache.maxBytes bs.length ∧
    (s.1.cache.content h = some bs ∧ s.1.remoteHandles.lookup h = none ∨
      s.1.cache.content h = none ∧
        ∃ a, s.1.remoteHandles.lookup h = some a ∧ Placed s.2 a bs)

structure Rep (maxPayload : ℕ) (A : Contents) (s : Client × Peers) : Prop where
  inv : s.1.cache.Inv
  room : s.1.cache.total ≤ s.1.cache.maxBytes
  inRange : InRange s.1
  located : ∀ h, Located maxPayload s h (A h)
  apart : ∀ h h' a a', s.1.remoteHandles.lookup h = some a →
    s.1.remoteHandles.lookup h' = some a' → h ≠ h' → ∀ r ∈ a.refs, r ∉ a'.refs

/-- Nothing has changed for the handles other than `h`. -/
structure Frame (h : ℕ) (s s' : Client × Peers) : Prop where
  maxBytes : s'.1.cache.maxBytes = s.1.cache.maxBytes
  issued : s.1.nextLocalHandle ≤ s'.1.nextLocalHandle
  joined : s.2.joined ⊆ s'.2.joined
  content : ∀ k ≠ h, s'.1.cache.content k = s.1.cache.content k
  lookup : ∀ k ≠ h, s'.1.remoteHandles.lookup k = s.1.remoteHandles.lookup k
  store : ∀ k ≠ h, ∀ a, s.1.remoteHandles.lookup k = some a →
    ∀ r ∈ a.refs, s'.2.store r = s.2.store r

section Facts

variable {maxPayload h : ℕ} {A : Contents} {s s' : Client × Peers} {a : RemoteAllocation}
  {bs : List Byte}

theorem Located.mono {o : Option (List Byte)} (hl : Located maxPayload s h o)
    (hm : s'.1.cache.maxBytes = s.1.cache.maxBytes)
    (hi : s.1.nextLocalHandle ≤ s'.1.nextLocalHandle) (hj : s.2.joined ⊆ s'.2.joined)
    (hc : s'.1.cache.content h = s.1.cache.content h)
    (he : s'.1.remoteHandles.lookup h = s.1.remoteHandles.lookup h)
    (hs : ∀ a, s.1.remoteHandles.lookup h = some a → ∀ r ∈ a.refs, s'.2.store r = s.2.store r) :
    Located maxPayload s' h o := by
  cases o with
  | none => exact ⟨hc.trans hl.1, he.trans hl.2⟩
  | some bs =>
    obtain ⟨hlt, hadm, hw⟩ := hl
    refine ⟨Nat.lt_of_lt_of_le hlt hi, hm ▸ hadm, ?_⟩
    rw [hc, he]
    apply hw.imp_right
    rintro ⟨hn, a, ha, hp⟩
    exact ⟨hn, a, ha, hp.mono hj (hs a ha)⟩

theorem Rep.update {v : Option (List Byte)} (hr : Rep maxPayload A s) (hf : Frame h s s')
    (hi : s'.1.cache.Inv) (hroom : s'.1.cache.total ≤ s'.1.cache.maxBytes) (hrange : InRange s'.1)
    (hloc : Located maxPayload s' h v)
    (hap : ∀ a, s'.1.remoteHandles.lookup h = some a → ∀ k ≠ h, ∀ b,
      s.1.remoteHandles.lookup k = some b → ∀ r ∈ a.refs, r ∉ b.refs) :
    Rep maxPayload (Function.update A h v) s' := by
  refine ⟨hi, hroom, hrange, fun k => ?_, ?_⟩
  · by_cases hk : k = h
    · subst hk
      rwa [Function.update_self]
    · rw [Function.update_of_ne hk]
      exact (hr.located k).mono hf.maxBytes hf.issued hf.joined (hf.content k hk) (hf.lookup k hk)
        (hf.store k hk)
  · intro k k' a b ha hb hne r hra hrb
    by_cases hk : k = h
    · subst hk
      rw [hf.lookup k' hne.symm] at hb
      exact hap a ha k' hne.symm b hb r hra hrb
    · rw [hf.lookup k hk] at ha
      by_cases hk' : k' = h
      · subst hk'
        exact hap b hb k hk a ha r hrb hra
      · rw [hf.lookup k' hk'] at hb
        exact hr.apart k k' a b ha hb hne r hra hrb

theorem Rep.counted (hr : Rep maxPayload A s) : s.1.cache.Counted :=
  ⟨hr.inv, hr.room, hr.inRange.2⟩

theorem Rep.kept (hr : Rep maxPayload A s) (hk : Kept s s')
    (hs : ∀ h a, s.1.remoteHandles.lookup h = some a → ∀ r ∈ a.refs, s'.2.store r = s.2.store r) :
    Rep maxPayload A s' := by
  obtain ⟨⟨id, hc⟩, hj⟩ := hk
  obtain ⟨c', w'⟩ := s'
  obtain rfl : c' = { s.1 with nextRequestId := id } := hc
  exact ⟨hr.inv, hr.room, hr.inRange,
    fun h => (hr.located h).mono rfl (Nat.le_refl _) hj rfl rfl (hs h), hr.apart⟩

theorem Kept.frame (hk : Kept s s')
    (hs : ∀ k ≠ h, ∀ a, s.1.remoteHandles.lookup k = some a →
      ∀ r ∈ a.refs, s'.2.store r = s.2.store r) : Frame h s s' := by
  obtain ⟨⟨id, hc⟩, hj⟩ := hk
  obtain ⟨c', w'⟩ := s'
  obtain rfl : c' = { s.1 with nextRequestId := id } := hc
  exact ⟨rfl, Nat.le_refl _, hj, fun _ _ => rfl, fun _ _ => rfl, hs⟩

theorem Frame.trans {s₁ : Client × Peers} (h₁ : Frame h s s₁) (h₂ : Frame h s₁ s') :
    Frame h s s' where
  maxBytes := h₂.maxBytes.trans h₁.maxBytes
  issued := Nat.le_trans h₁.issued h₂.issued
  joined := h₁.joined.trans h₂.joined
  content k hk := (h₂.content k hk).trans (h₁.content k hk)
  lookup k hk := (h₂.lookup k hk).trans (h₁.lookup k hk)
  store k hk a ha r hr :=
    (h₂.store k hk a ((h₁.lookup k hk).trans ha) r hr).trans (h₁.store k hk a ha r hr)

/-- A live handle is in the cache, or it has an allocation. -/
theorem Rep.some_cases (hr : Rep maxPayload A s) (hA : A h = some bs) :
    s.1.cache.content h = some bs ∧ s.1.remoteHandles.lookup h = none ∨
    s.1.cache.content h = none ∧ ∃ a, s.1.remoteHandles.lookup h = some a ∧ Placed s.2 a bs := by
  have := hr.located h
  rw [hA] at this
  exact this.2.2

theorem Rep.admissible (hr : Rep maxPayload A s) (hA : A h = some bs) :
    Admissible maxPayload s.1.cache.maxBytes bs.length := by
  have := hr.located h
  rw [hA] at this
  exact this.2.1

theorem Rep.issued (hr : Rep maxPayload A s) (hA : A h = some bs) : h < s.1.nextLocalHandle := by
  have := hr.located h
  rw [hA] at this
  exact this.1

theorem Rep.of_none (hr : Rep maxPayload A s) (hA : A h = none) :
    s.1.cache.content h = none ∧ s.1.remoteHandles.lookup h = none := by
  have := hr.located h
  rwa [hA] at this

theorem Rep.of_content (hr : Rep maxPayload A s) (hc : s.1.cache.content h = some bs) :
    A h = some bs ∧ s.1.remoteHandles.lookup h = none := by
  cases hA : A h with
  | none => exact absurd ((hr.of_none hA).1.symm.trans hc) nofun
  | some ds =>
    obtain ⟨hc', hl⟩ | ⟨hc', -⟩ := hr.some_cases hA
    · rw [hc] at hc'
      exact ⟨hc'.symm, hl⟩
    · exact absurd (hc'.symm.trans hc) nofun

theorem Rep.of_lookup (hr : Rep maxPayload A s) (hl : s.1.remoteHandles.lookup h = some a) :
    s.1.cache.content h = none ∧ ∃ bs, A h = some bs ∧ Placed s.2 a bs := by
  cases hA : A h with
  | none => exact absurd ((hr.of_none hA).2.symm.trans hl) nofun
  | some ds =>
    obtain ⟨-, hl'⟩ | ⟨hc, b, hb, hp⟩ := hr.some_cases hA
    · exact absurd (hl'.symm.trans hl) nofun
    · obtain rfl := Option.some.inj (hl.symm.trans hb)
      exact ⟨hc, ds, rfl, hp⟩

theorem Rep.rewrite {bs' : List Byte} (hr : Rep maxPayload A s)
    (hl : s.1.remoteHandles.lookup h = some a) (hA : A h = some bs) (hk : Kept s s')
    (hp : Placed s'.2 a bs') (hlen : bs'.length = bs.length)
    (hs : ∀ r ∉ a.refs, s'.2.store r = s.2.store r) :
    Frame h s s' ∧ Rep maxPayload (Function.update A h (some bs')) s' := by
  have hf : Frame h s s' := hk.frame fun k hne b hb r hrb =>
    hs r fun hra => hr.apart h k a b hl hb hne.symm r hra hrb
  obtain ⟨⟨id, hc⟩, hj⟩ := hk
  obtain ⟨c', w'⟩ := s'
  obtain rfl : c' = { s.1 with nextRequestId := id } := hc
  refine ⟨hf, hr.update hf hr.inv hr.room hr.inRange ?_ ?_⟩
  · exact ⟨hr.issued hA, hlen ▸ hr.admissible hA, .inr ⟨(hr.of_lookup hl).1, a, hl, hp⟩⟩
  · intro b hb k hne d hd
    obtain rfl := Option.some.inj (hl.symm.trans hb)
    exact hr.apart h k _ d hl hd hne.symm

theorem Rep.register (hr : Rep maxPayload A s) (hA : A h = none) (hp : Placed s.2 a bs)
    (hlt : h < s.1.nextLocalHandle) (hadm : Admissible maxPayload s.1.cache.maxBytes bs.length)
    (hfresh : ∀ k b, s.1.remoteHandles.lookup k = some b → ∀ r ∈ a.refs, r ∉ b.refs) :
    Rep maxPayload (Function.update A h (some bs))
      ({ s.1 with remoteHandles := s.1.remoteHandles.insert h a }, s.2) := by
  refine hr.update ⟨rfl, Nat.le_refl _, subset_rfl, fun _ _ => rfl, ?_, fun _ _ _ _ _ _ => rfl⟩
    hr.inv hr.room hr.inRange ?_ ?_
  · exact fun k hk => AList.lookup_insert_ne hk
  · exact ⟨hlt, hadm, .inr ⟨(hr.of_none hA).1, a, AList.lookup_insert _, hp⟩⟩
  · intro b hb k _ d hd
    obtain rfl := Option.some.inj ((AList.lookup_insert _).symm.trans hb)
    exact hfresh k d hd

theorem Rep.unregister (hr : Rep maxPayload A s) (hc : s.1.cache.content h = none) (hk : Kept s s')
    (hs : ∀ r, (∀ a, s.1.remoteHandles.lookup h = some a → r ∉ a.refs) →
      s'.2.store r = s.2.store r) :
    Rep maxPayload (Function.update A h none)
      ({ s'.1 with remoteHandles := s'.1.remoteHandles.erase h }, s'.2) := by
  have hf : Frame h s s' := hk.frame fun k hne b hb r hrb =>
    hs r fun a ha hra => hr.apart h k a b ha hb hne.symm r hra hrb
  obtain ⟨⟨id, hc'⟩, hj⟩ := hk
  obtain ⟨c', w'⟩ := s'
  obtain rfl : c' = { s.1 with nextRequestId := id } := hc'
  refine hr.update ⟨rfl, Nat.le_refl _, hj, fun _ _ => rfl, ?_, hf.store⟩ hr.inv hr.room
    hr.inRange ⟨hc, AList.lookup_erase _ _⟩ ?_
  · exact fun k hk => AList.lookup_erase_ne hk
  · exact fun a ha => absurd ((AList.lookup_erase _ _).symm.trans ha) nofun

theorem Rep.uncache {c' : LRUCache} {n : CacheNode} (hr : Rep maxPayload A s)
    (hrem : LRUCache.Removed s.1.cache n c') (hm : c'.maxBytes = s.1.cache.maxBytes) :
    A n.block.handle = some n.block.data ∧
      Rep maxPayload (Function.update A n.block.handle none) ({ s.1 with cache := c' }, s.2) := by
  have hn : n ∈ s.1.cache.list := hrem.perm.mem_iff.mpr List.mem_cons_self
  obtain ⟨hA, hl⟩ := hr.of_content (hr.inv.content_eq_some.mpr ⟨n, hn, rfl, rfl⟩)
  obtain ⟨hc, -, -⟩ := hr.counted.removed hrem hm
  refine ⟨hA, hr.update ⟨hm, Nat.le_refl _, subset_rfl, fun k hk => ?_, fun _ _ => rfl,
    fun _ _ _ _ _ _ => rfl⟩ hc.inv hc.room ⟨hr.inRange.1, hc.range⟩ ⟨?_, hl⟩ ?_⟩
  · rw [hrem.content hr.inv, if_neg hk]
  · rw [hrem.content hr.inv, if_pos rfl]
  · exact fun a ha => absurd (hl.symm.trans ha) nofun

theorem Rep.reorder {l : List CacheNode} (hr : Rep maxPayload A s) (hp : s.1.cache.list.Perm l) :
    Rep maxPayload A ({ s.1 with cache := { s.1.cache with list := l } }, s.2) := by
  have hc := hr.counted.reorder hp
  refine ⟨hc.inv, hc.room, ⟨hr.inRange.1, hc.range⟩, fun h => ?_, hr.apart⟩
  exact (hr.located h).mono rfl (Nat.le_refl _) subset_rfl (hr.inv.content_reorder hp h) rfl
    fun _ _ _ _ => rfl

theorem Rep.cache {dirty : Bool} (hr : Rep maxPayload A s)
    (hl : s.1.remoteHandles.lookup h = none) (hlt : h < s.1.nextLocalHandle)
    (hadm : Admissible maxPayload s.1.cache.maxBytes bs.length)
    (hlen : bs.length ≤ s.1.cache.maxBytes) (hk : s.1.cache.PutKeeps h bs)
    (hc : (s.1.cache.put h bs dirty).2.Counted) :
    Rep maxPayload (Function.update A h (some bs))
      ((s.1.perform (.cachePut h bs dirty)).2, s.2) := by
  have hm := s.1.cache.maxBytes_put h bs dirty
  refine hr.update ⟨hm, Nat.le_refl _, subset_rfl, fun k hne => ?_, fun _ _ => rfl,
    fun _ _ _ _ _ _ => rfl⟩
    hc.inv hc.room ⟨hr.inRange.1, hc.range⟩ ⟨hlt, hm.symm ▸ hadm, .inl ⟨?_, hl⟩⟩ ?_
  · exact (hr.inv.content_put hlen hk k).trans (if_neg hne)
  · exact (hr.inv.content_put hlen hk h).trans (if_pos rfl)
  · exact fun a ha => absurd (hl.symm.trans ha) nofun

theorem Rep.put_new (dirty : Bool) (hr : Rep maxPayload A s) (hA : A h = none)
    (hlt : h < s.1.nextLocalHandle) (hadm : Admissible maxPayload s.1.cache.maxBytes bs.length)
    (hlen : bs.length ≤ s.1.cache.maxBytes) (hroom : s.1.cache.HasRoom bs.length) :
    s.1.cache.PutKeeps h bs ∧ (InRange (s.1.perform (.cachePut h bs dirty)).2 →
      Rep maxPayload (Function.update A h (some bs))
        ((s.1.perform (.cachePut h bs dirty)).2, s.2)) := by
  obtain ⟨hc, hl⟩ := hr.of_none hA
  obtain ⟨hk, hcounted⟩ := hr.counted.put_new dirty hc hlen hroom
  exact ⟨hk, fun hrange => hr.cache hl hlt hadm hlen hk (hcounted hrange.2)⟩

theorem Rep.put_same (dirty : Bool) {bs' : List Byte} (hr : Rep maxPayload A s)
    (hc : s.1.cache.content h = some bs) (hlen : bs'.length = bs.length) :
    s.1.cache.PutKeeps h bs' ∧
      Rep maxPayload (Function.update A h (some bs'))
        ((s.1.perform (.cachePut h bs' dirty)).2, s.2) := by
  obtain ⟨hA, hl⟩ := hr.of_content hc
  obtain ⟨hk, hle, hcounted⟩ := hr.counted.put_same dirty hc hlen
  exact ⟨hk, hr.cache hl (hr.issued hA) (hlen ▸ hr.admissible hA) hle hk hcounted⟩

end Facts

end MemInfo
