import MemInfo.Memclient.Answering
import MemInfo.Memclient.Guarding
import MemInfo.Memclient.Pressure

/-! # Empty ranges and empty blocks

`build_response` leaves out the data of an empty payload, and an allocation of no bytes has the
handle 0. When a read of a block gives its bytes, wherever the block is, among peers that
answer as memoryd does.
-/

namespace MemInfo

open Lib Prog MemoryClient

/-- The block `bs` is on the peers. Of an empty block memoryd knows nothing. -/
structure Lodged (w : Peers) (a : RemoteAllocation) (bs : List Byte) : Prop where
  size : a.size = bs.length
  striped : a.isStriped = true → Consecutive 0 a.stripes bs.length
  single : a.isStriped = false → a.peer ≠ none
  nodup : a.refs.Nodup
  joined : ∀ x ∈ a.parts, x.peer ∈ w.joined
  stored : ∀ x ∈ a.parts, 0 < x.length →
    x.remoteHandle ≠ 0 ∧ w.store x.ref = some (slice bs x.offset x.length)

section Peers

variable {maxPayload p size offset remoteHandle : ℕ} {s : Client × Peers} {a : RemoteAllocation}
  {bs : List Byte} {w w' : Peers} {x : Stripe}

theorem Lodged.mono (hl : Lodged w a bs) (hj : w.joined ⊆ w'.joined) (hs : w'.store = w.store) :
    Lodged w' a bs :=
  { hl with
    joined := fun x hx => hj (hl.joined x hx)
    stored := hs ▸ hl.stored }

/-- Every request of the read has an answer with data: none is for no bytes, and none is for more
than a frame holds. -/
def Askable (maxPayload : ℕ) (a : RemoteAllocation) (offset size : ℕ) : Prop :=
  if a.isStriped then ∀ y ∈ pieces offset size a.stripes, y.length ≤ maxPayload
  else 0 < size ∧ size ≤ maxPayload

instance (maxPayload : ℕ) (a : RemoteAllocation) (offset size : ℕ) :
    Decidable (Askable maxPayload a offset size) := by
  unfold Askable
  infer_instance

section Reading

variable {Q : Outcome Err (List Byte) → Client × Peers → Prop}

theorem meets_readSingle (rel : Bool) (hl : Lodged s.2 a bs) (hs : a.isStriped = false)
    (hle : offset + size ≤ bs.length)
    (hok : 0 < size ∧ size ≤ maxPayload → ∀ s', Kept s s' → Q (.ok (slice bs offset size)) s')
    (hthrow : ¬ (0 < size ∧ size ≤ maxPayload) → ∀ e s', Q (.threw e) s') :
    Meets maxPayload (readRemote a offset size rel) Q s := by
  obtain ⟨q, hq⟩ := Option.ne_none_iff_exists'.mp (hl.single hs)
  have hx : (⟨a.remoteHandle, 0, a.size, q⟩ : Stripe) ∈ a.parts := by
    simp [RemoteAllocation.parts, hs, hq]
  have hj : q ∈ s.2.joined := hl.joined _ hx
  rw [readRemote, if_neg (by simp [hs]), requirePeer, hq]
  apply wp_bind.mpr
  apply wp_bind_net trivial
  rintro peer w ⟨hjw, hsw, hcon⟩
  rw [if_pos (hcon hj)]
  have hk : Kept s (s.1, w) := ⟨⟨_, rfl⟩, hjw⟩
  apply wp_bind.mpr
  by_cases hask : 0 < size ∧ size ≤ maxPayload
  swap
  · exact meets_fetch_fails (hjw hj) hask (hthrow hask)
  have hst : w.store (q, a.remoteHandle) = some bs := by
    have hpos : 0 < a.size := by
      rw [hl.size]
      omega
    have hall : slice bs 0 a.size = bs := by simp [slice, hl.size]
    rw [hsw]
    exact (hl.stored _ hx hpos).2.trans (congrArg some hall)
  apply meets_fetch (hjw hj) hask.1 hask.2 hst hle
  intro s₁ hk₁ _
  apply wp_bind.mpr
  apply meets_releaseAfter rel (hk₁.joined (hjw hj))
  exact fun s' hk' _ _ => hok hask s' ((hk.trans hk₁).trans hk')

theorem meets_readRemote (rel : Bool) (hl : Lodged s.2 a bs) (hle : offset + size ≤ bs.length)
    (hlt : bs.length < 2 ^ 64)
    (hok : Askable maxPayload a offset size → ∀ s', Kept s s' →
      Q (.ok (slice bs offset size)) s')
    (hthrow : ¬ Askable maxPayload a offset size → ∀ e s', Q (.threw e) s') :
    Meets maxPayload (readRemote a offset size rel) Q s := by
  unfold Askable at hok hthrow
  cases hs : a.isStriped with
  | false =>
    simp only [hs, Bool.false_eq_true, if_false] at hok hthrow
    exact meets_readSingle rel hl hs hle hok hthrow
  | true =>
    simp only [hs, if_true] at hok hthrow
    have hx := hl.striped hs
    have hparts := RemoteAllocation.parts_striped hs
    apply meets_readStriped rel hs hx hl.nodup hle hlt
    · exact hparts ▸ hl.joined
    · intro x hm
      exact (hl.stored x (hparts ▸ hm) (hx.length_pos hm)).2
    · exact fun hall s' hk _ => hok hall s' hk
    · rintro ⟨y, hy, hbad⟩
      exact hthrow fun hall => hbad (hall y hy)

end Reading

/-- The bytes of the handle are in the cache or on the peers. No handle is in both places. -/
structure Residing (s : Client × Peers) (h : ℕ) (bs : List Byte) : Prop where
  inv : s.1.cache.Inv
  apart : ∀ k, s.1.cache.content k ≠ none → s.1.remoteHandles.lookup k = none
  place : s.1.cache.content h = some bs ∨
    ∃ a, s.1.remoteHandles.lookup h = some a ∧ Lodged s.2 a bs

/-- Peers as before, and a monitor that reports so much memory. -/
def monitoredNet (maxPayload available : ℕ) : (o : NetOp) → Peers → o.Res → Peers → Prop
  | .availableBytes, w, r, w' => r = available ∧ answeringNet maxPayload .availableBytes w r w'
  | o, w, r, w' => answeringNet maxPayload o w r w'

/-- Nothing is evicted for a block of `size` bytes: there is nothing to evict, or the memory that
the monitor reports is not little and the block fits beside what is cached. -/
def FindsRoom (available size : ℕ) (c : LRUCache) : Prop :=
  c.list = [] ∨
    ¬ (0 < available ∧ available < 100 * 1024 * 1024) ∧ LRUCache.LeavesRoom c.maxBytes size c.list

instance (available size : ℕ) (c : LRUCache) : Decidable (FindsRoom available size c) := by
  unfold FindsRoom LRUCache.LeavesRoom
  infer_instance

/-- A block that can be cached is loaded in full first; of one that cannot, the range is read
where it is. -/
def Readable (maxPayload available : ℕ) (s : Client × Peers) (h offset n : ℕ) : Prop :=
  ∀ a, s.1.remoteHandles.lookup h = some a →
    if a.size ≤ s.1.cache.maxBytes then
      FindsRoom available a.size s.1.cache ∧ Askable maxPayload a 0 a.size
    else Askable maxPayload a offset n

section Monitor

variable {α : Type} {available : ℕ} {p : ClientM α} {Q : Outcome Err α → Client × Peers → Prop}

theorem Meets.monitored (hm : Meets maxPayload p Q s) :
    wp (clientEnv (monitoredNet maxPayload available)) (fun _ _ => True) p Q s := by
  refine wp_mono (wp_simulate (I := fun _ => True) (f := id) ?_ (fun _ _ _ => trivial) trivial hm)
    fun _ _ => And.right
  intro o s r s' _ he
  refine ⟨trivial, ?_⟩
  rcases o with o | o
  · exact he
  · cases o with
    | availableBytes => exact ⟨he.1, he.2.2⟩
    | _ => exact he

def barrenNet (maxPayload available : ℕ) : (o : NetOp) → Peers → o.Res → Peers → Prop
  | .candidates, w, r, w' => r = [] ∧ w' = w
  | o, w, r, w' => monitoredNet maxPayload available o w r w'

theorem exists_barren (maxPayload available : ℕ) (o : Effect) (s : Client × Peers) :
    ∃ r s', clientEnv (barrenNet maxPayload available) o s r s' ∧
      clientEnv (monitoredNet maxPayload available) o s r s' := by
  rcases o with o | o
  · exact ⟨_, ((s.1.perform o).2, s.2), ⟨rfl, rfl⟩, rfl, rfl⟩
  · cases o with
    | availableBytes => exact ⟨available, s, ⟨rfl, rfl, subset_rfl, rfl⟩, rfl, rfl, subset_rfl, rfl⟩
    | candidates => exact ⟨[], s, ⟨rfl, rfl, rfl⟩, rfl, subset_rfl, rfl, nofun⟩
    | _ =>
      obtain ⟨r, s', he⟩ := exists_answering maxPayload (.net _) s
      exact ⟨r, s', he, he⟩

end Monitor

section Room

variable {available : ℕ}

theorem wp_evictIfNeeded_idle {Q : Outcome Err Unit → Client × Peers → Prop}
    (hi : s.1.cache.Inv) (hroom : FindsRoom available size s.1.cache)
    (hQ : ∀ w', s.2.joined ⊆ w'.joined → w'.store = s.2.store → Q (.ok ()) (s.1, w')) :
    wp (clientEnv (monitoredNet maxPayload available)) (fun _ _ => True) (evictIfNeeded size) Q
      s := by
  apply wp_bind_net trivial
  rintro _ w ⟨rfl, hj, hs⟩
  apply wp_bind_mem trivial
  apply wp_bind_mem trivial
  change wp _ _ (if (s.1.cache.needsEviction size || _) = true then _ else _) _ (s.1, w)
  rcases hroom with hnil | ⟨hhigh, hfits⟩
  · split_ifs
    · apply wp_bind_mem trivial
      have hnone : s.1.perform .cacheEvictOne = (none, s.1) := by
        simp [Client.perform, LRUCache.evictOne, LRUCache.popBack, hnil]
      dsimp only
      rw [hnone]
      exact hQ w hj hs
    · exact hQ w hj hs
  · rw [if_neg (by simpa [hi.needsEviction_iff.mpr hfits] using hhigh)]
    exact hQ w hj hs

theorem wp_pushOut_barren (evicted : CacheBlock) :
    wp (clientEnv (barrenNet maxPayload available)) (fun _ _ => True) (pushOut evicted)
      (fun out _ => out ≠ .ok ()) s := by
  apply wp_tryCatch.mpr
  apply wp_bind.mpr
  apply wp_bind.mpr
  refine wp_mono (wp_iff.mpr ⟨always_true, fun _ _ _ => trivial⟩ :
    wp _ _ awaitPeer (fun _ _ => True) s) ?_
  rintro (_ | e | x) s₁ -
  · dsimp only [andThen]
    apply wp_bind_net trivial
    rintro _ w ⟨rfl, rfl⟩
    exact wp_rollback evicted _
  · exact wp_rollback evicted e
  · rintro ⟨⟩

theorem wp_evictIfNeeded_barren (hi : s.1.cache.Inv)
    (hroom : ¬ FindsRoom available size s.1.cache) :
    wp (clientEnv (barrenNet maxPayload available)) (fun _ _ => True) (evictIfNeeded size)
      (fun out _ => out ≠ .ok ()) s := by
  rw [FindsRoom, not_or, not_and_or, not_not, ← hi.needsEviction_iff, Bool.not_eq_false] at hroom
  obtain ⟨hne, hneed⟩ := hroom
  apply wp_bind_net trivial
  rintro _ w ⟨rfl, -⟩
  apply wp_bind_mem trivial
  apply wp_bind_mem trivial
  change wp _ _ (if (s.1.cache.needsEviction size || _) = true then _ else _) _ (s.1, w)
  rw [if_pos (by simpa using hneed.symm)]
  apply wp_bind_mem trivial
  obtain ⟨hnil, -⟩ | ⟨n, he, -⟩ := s.1.cache.popBack_cases
  · exact absurd hnil hne
  · have hsome : s.1.perform .cacheEvictOne =
        (some n.block, { s.1 with cache := s.1.cache.popBack }) := by rw [Client.perform, he]
    dsimp only
    rw [hsome]
    apply wp_bind.mpr
    apply wp_mono (wp_pushOut_barren n.block)
    rintro (_ | e | x) s' hout
    · exact absurd rfl hout
    · rintro ⟨⟩
    · rintro ⟨⟩

end Room

section Reads

variable {h n : ℕ} {Q : Outcome Err (List Byte) → Client × Peers → Prop}

theorem meets_readLocal (hle : offset + n ≤ bs.length)
    (hQ : ∀ s', Q (.ok (slice bs offset n)) s') : Meets maxPayload (readLocal bs offset n) Q s := by
  have hin : ¬ OutOfBounds bs.length offset n := by
    unfold OutOfBounds
    omega
  rw [readLocal, if_neg hin]
  exact hQ s

theorem meets_cacheGet {α : Type} {f : Option (List Byte) → ClientM α}
    {Q : Outcome Err α → Client × Peers → Prop} (hi : s.1.cache.Inv)
    (hc : s.1.cache.content h = some bs) (hf : ∀ s', Meets maxPayload (f (some bs)) Q s') :
    Meets maxPayload (mem (.cacheGet h) >>= f) Q s := by
  apply wp_bind_mem trivial
  obtain ⟨l, -, hget⟩ := hi.get_cases h
  have hperform : (s.1.perform (.cacheGet h)).1 = some bs := by
    rw [Client.perform, hget, hc]
  rw [hperform]
  exact hf _

theorem meets_read_cached (hi : s.1.cache.Inv) (hc : s.1.cache.content h = some bs)
    (hle : offset + n ≤ bs.length) :
    Meets maxPayload (read h offset n) (fun out _ => out = .ok (slice bs offset n)) s :=
  meets_cacheGet hi hc fun _ => meets_readLocal hle fun _ => rfl

def readLoaded (h : ℕ) (a : RemoteAllocation) (offset n : ℕ) : ClientM (List Byte) := do
  let data ← readRemote a 0 a.size
  let _ ← mem (.remoteTake h)
  let _ ← mem (.cachePut h data false)
  match ← mem (.cacheGet h) with
  | none => MonadExcept.throw (.runtimeError "Failed to load block from remote")
  | some data => readLocal data offset n

theorem wp_read_remote {net : (o : NetOp) → Peers → o.Res → Peers → Prop}
    (hb : RemoteBlock s.1 h a) (hin : offset + n ≤ a.size) :
    wp (clientEnv net) (fun _ _ => True) (read h offset n) Q s ↔
      if a.size ≤ s.1.cache.maxBytes then
        wp (clientEnv net) (fun _ _ => True)
          (evictIfNeeded a.size >>= fun _ => readLoaded h a offset n) Q s
      else wp (clientEnv net) (fun _ _ => True) (readRemote a offset n false) Q s := by
  have hget : s.1.perform (.cacheGet h) = (none, s.1) := by
    have hf := LRUCache.content_eq_none.mp hb.uncached
    simp [Client.perform, LRUCache.get, hf]
  have hfind : s.1.perform (.remoteFind h) = (some a, s.1) := congrArg (·, s.1) hb.entry
  have hmax : s.1.perform .cacheMaxSize = (s.1.cache.maxBytes, s.1) := rfl
  have hbounds : ¬ OutOfBounds a.size offset n := by
    unfold OutOfBounds
    omega
  unfold MemoryClient.read
  rw [wp_bind_mem_iff, true_and, hget]
  dsimp only
  rw [oversizedRemoteAlloc, bind_assoc, wp_bind_mem_iff, true_and, hfind]
  dsimp only
  rw [bind_assoc, wp_bind_mem_iff, true_and, hmax]
  dsimp only
  split_ifs with hsize
  · rw [pure_bind]
    dsimp only
    rw [loadToLocal, bind_assoc, wp_bind_mem_iff, true_and, hfind]
    simp only [bind_assoc, pure_bind]
    rfl
  · rw [pure_bind]
    dsimp only
    rw [if_neg hbounds]

theorem meets_readLoaded (hb : RemoteBlock s.1 h a) (hl : Lodged s.2 a bs)
    (hcap : a.size ≤ s.1.cache.maxBytes) (hle : offset + n ≤ bs.length) (hlt : bs.length < 2 ^ 64)
    (hok : Askable maxPayload a 0 a.size → ∀ s', Q (.ok (slice bs offset n)) s')
    (hthrow : ¬ Askable maxPayload a 0 a.size → ∀ e s', Q (.threw e) s') :
    Meets maxPayload (readLoaded h a offset n) Q s := by
  apply wp_bind.mpr
  apply meets_readRemote true hl (by rw [hl.size, Nat.zero_add]) hlt
  · rintro hask s₁ ⟨⟨id, hid⟩, -⟩
    have hall : slice bs 0 a.size = bs := by simp [slice, hl.size]
    have hlen : bs.length ≤ s₁.1.cache.maxBytes := by
      rw [hid, ← hl.size]
      exact hcap
    have hi : s₁.1.cache.Inv := hid ▸ hb.inv
    dsimp only [andThen]
    rw [hall]
    apply wp_bind_mem trivial
    apply wp_bind_mem trivial
    apply meets_cacheGet hi.put (hi.content_put_self hlen)
    exact fun s' => meets_readLocal hle (hok hask)
  · exact hthrow

section Exactly

variable {available : ℕ}

theorem not_wp_of_throws {α : Type} {p : ClientM α} {a : α}
    (ht : wp (clientEnv (monitoredNet maxPayload available)) (fun _ _ => True) p
      (fun out _ => ∃ e, out = .threw e) s) :
    ¬ wp (clientEnv (monitoredNet maxPayload available)) (fun _ _ => True) p
      (fun out _ => out = .ok a) s := by
  intro hm
  have htotal := fun o s => (exists_barren maxPayload available o s).imp fun r =>
    Exists.imp fun s' => And.right
  obtain ⟨out, s', hrun⟩ := exists_runs htotal p s
  obtain ⟨e, rfl⟩ := (wp_iff.mp ht).2 out s' hrun
  cases (wp_iff.mp hm).2 _ s' hrun

theorem not_wp_of_eviction {f : Unit → ClientM (List Byte)} (hi : s.1.cache.Inv)
    (hroom : ¬ FindsRoom available size s.1.cache) :
    ¬ wp (clientEnv (monitoredNet maxPayload available)) (fun _ _ => True)
      (evictIfNeeded size >>= f) (fun out _ => out = .ok bs) s := by
  intro hm
  have htotal : ∀ o s, ∃ r s', clientEnv (barrenNet maxPayload available) o s r s' ∧
      clientEnv (monitoredNet maxPayload available) o s r s' := exists_barren maxPayload available
  obtain ⟨out, s', hrun⟩ := exists_runs htotal (evictIfNeeded size) s
  have hout := (wp_iff.mp (wp_evictIfNeeded_barren hi hroom)).2 out s'
    (hrun.mono fun _ _ _ _ => And.left)
  have hok := (wp_iff.mp (wp_bind.mp hm)).2 out s' (hrun.mono fun _ _ _ _ => And.right)
  rcases out with _ | e | x
  · exact hout rfl
  · cases hok
  · cases hok

theorem read_loaded_iff (hb : RemoteBlock s.1 h a) (hl : Lodged s.2 a bs)
    (hcap : a.size ≤ s.1.cache.maxBytes) (hle : offset + n ≤ bs.length)
    (hlt : bs.length < 2 ^ 64) :
    wp (clientEnv (monitoredNet maxPayload available)) (fun _ _ => True)
      (evictIfNeeded a.size >>= fun _ => readLoaded h a offset n)
      (fun out _ => out = .ok (slice bs offset n)) s ↔
      FindsRoom available a.size s.1.cache ∧ Askable maxPayload a 0 a.size := by
  by_cases hroom : FindsRoom available a.size s.1.cache
  swap
  · exact iff_of_false (not_wp_of_eviction hb.inv hroom) fun hand => hroom hand.1
  -- nothing is evicted, and the peers still have the block
  have hloaded : ∀ w', s.2.joined ⊆ w'.joined → w'.store = s.2.store → ∀ Q,
      (Askable maxPayload a 0 a.size → ∀ s', Q (.ok (slice bs offset n)) s') →
      (¬ Askable maxPayload a 0 a.size → ∀ e s', Q (.threw e) s') →
      wp (clientEnv (monitoredNet maxPayload available)) (fun _ _ => True)
        (readLoaded h a offset n) Q (s.1, w') := by
    intro w' hj hs Q hok hthrow
    have hl' : Lodged w' a bs := hl.mono hj hs
    exact (meets_readLoaded (s := (s.1, w')) hb hl' hcap hle hlt hok hthrow).monitored
  by_cases hask : Askable maxPayload a 0 a.size
  · apply iff_of_true _ ⟨hroom, hask⟩
    refine wp_bind.mpr (wp_evictIfNeeded_idle hb.inv hroom fun w' hj hs => ?_)
    exact hloaded w' hj hs _ (fun _ _ => rfl) (absurd hask)
  · apply iff_of_false _ fun hand => hask hand.2
    apply not_wp_of_throws
    refine wp_bind.mpr (wp_evictIfNeeded_idle hb.inv hroom fun w' hj hs => ?_)
    exact hloaded w' hj hs _ (fun hyes => absurd hyes hask) fun _ e _ => ⟨e, rfl⟩

theorem read_inPlace_iff (hl : Lodged s.2 a bs) (hle : offset + n ≤ bs.length)
    (hlt : bs.length < 2 ^ 64) :
    wp (clientEnv (monitoredNet maxPayload available)) (fun _ _ => True)
      (readRemote a offset n false) (fun out _ => out = .ok (slice bs offset n)) s ↔
      Askable maxPayload a offset n := by
  by_cases hask : Askable maxPayload a offset n
  · apply iff_of_true _ hask
    apply Meets.monitored
    apply meets_readRemote false hl hle hlt
    · exact fun _ _ _ => rfl
    · exact fun hno => absurd hask hno
  · apply iff_of_false _ hask
    apply not_wp_of_throws
    apply Meets.monitored
    apply meets_readRemote false hl hle hlt
    · exact fun hyes => absurd hyes hask
    · exact fun _ e _ => ⟨e, rfl⟩

end Exactly

def largeBlock : RemoteAllocation := { size := 2, remoteHandle := 1, peer := some 0 }

/-- A client with a block of two bytes, which is too large for its cache of one byte. -/
def inPlace : Client × Peers :=
  ({ Client.new 1 with remoteHandles := AList.singleton 1 largeBlock },
    ⟨fun r => if r = (0, 1) then some [7, 8] else none, Set.univ⟩)

theorem lodged_largeBlock : Lodged inPlace.2 largeBlock [7, 8] := by
  constructor
  · rfl
  · nofun
  · nofun
  · simp [RemoteAllocation.refs, RemoteAllocation.parts, largeBlock]
  · exact fun _ _ => trivial
  · simp [RemoteAllocation.parts, largeBlock, inPlace, Stripe.ref, slice]

theorem residing_inPlace : Residing inPlace 1 [7, 8] :=
  ⟨LRUCache.inv_new 1, fun _ hk => absurd rfl hk, .inr ⟨largeBlock, rfl, lodged_largeBlock⟩⟩

/-- The block beside a cached one, in a cache that has room for both. -/
def besideCached : Client × Peers :=
  ({ Client.new 10 with
      cache := LRUCache.after 10 [.put 2 [5] true]
      remoteHandles := AList.singleton 1 largeBlock }, inPlace.2)

theorem residing_besideCached : Residing besideCached 1 [7, 8] := by
  refine ⟨LRUCache.inv_after 10 _, fun k hk => ?_, .inr ⟨largeBlock, rfl, lodged_largeBlock⟩⟩
  obtain rfl : k = 2 := by
    by_contra hne
    change ((LRUCache.new 10).put 2 [5] true).2.content k ≠ none at hk
    exact ((LRUCache.inv_new 10).content_put_ne_none hk).elim hne fun hnew => hnew rfl
  rfl

def refusingNet (maxPayload available : ℕ) : (o : NetOp) → Peers → o.Res × Peers
  | .availableBytes, w => (available, w)
  | .connectedPeers, w => ([0], w)
  | .waitForConnectedPeer, w => (true, w)
  | .candidates, w => ([0], w)
  | .peer _, w => ({ connected := true }, w)
  | .call p req, w =>
    if FrameFits maxPayload req then
      (.response (refusingPeer w.store p req).1, { w with store := (refusingPeer w.store p req).2 })
    else (.timeout, w)

theorem monitored_refusingNet (maxPayload available : ℕ) {w : Peers} (hw : w.joined = Set.univ)
    (o : NetOp) :
    monitoredNet maxPayload available o w (refusingNet maxPayload available o w).1
        (refusingNet maxPayload available o w).2 ∧
      (refusingNet maxPayload available o w).2.joined = Set.univ := by
  cases o with
  | call p req =>
    by_cases hfit : FrameFits maxPayload req
    · have heq : refusingNet maxPayload available (.call p req) w =
          (.response (refusingPeer w.store p req).1,
            { w with store := (refusingPeer w.store p req).2 }) := if_pos hfit
      rw [heq]
      refine ⟨⟨subset_rfl, fun _ => ⟨_, rfl, responds_refusingPeer _ _ _⟩, fun hno => ?_⟩, hw⟩
      exact absurd ⟨hw ▸ Set.mem_univ p, hfit⟩ hno
    · have heq : refusingNet maxPayload available (.call p req) w = (.timeout, w) := if_neg hfit
      rw [heq]
      exact ⟨⟨subset_rfl, fun hyes => absurd hyes.2 hfit, fun _ => ⟨rfl, nofun⟩⟩, hw⟩
  | candidates => exact ⟨⟨subset_rfl, rfl, fun p _ => hw ▸ Set.mem_univ p⟩, hw⟩
  | peer p => exact ⟨⟨subset_rfl, rfl, fun _ => rfl⟩, hw⟩
  | availableBytes => exact ⟨⟨rfl, subset_rfl, rfl⟩, hw⟩
  | connectedPeers => exact ⟨⟨subset_rfl, rfl⟩, hw⟩
  | waitForConnectedPeer => exact ⟨⟨subset_rfl, rfl⟩, hw⟩

theorem runs_refusingNet {α : Type} (maxPayload available : ℕ) (p : ClientM α) {s : Client × Peers}
    (hs : s.2.joined = Set.univ) :
    Runs (clientEnv (monitoredNet maxPayload available)) p s
        (eval (clientHandler (refusingNet maxPayload available)) p s).1
        (eval (clientHandler (refusingNet maxPayload available)) p s).2 ∧
      (eval (clientHandler (refusingNet maxPayload available)) p s).2.2.joined = Set.univ := by
  have henv : ∀ (o : Effect) (s : Client × Peers), s.2.joined = Set.univ →
      clientEnv (monitoredNet maxPayload available) o s
          (clientHandler (refusingNet maxPayload available) o s).1
          (clientHandler (refusingNet maxPayload available) o s).2 ∧
        (clientHandler (refusingNet maxPayload available) o s).2.2.joined = Set.univ := by
    intro o s hs
    rcases o with o | o
    · exact ⟨⟨rfl, rfl⟩, hs⟩
    · obtain ⟨hn, hs'⟩ := monitored_refusingNet maxPayload available hs o
      exact ⟨⟨rfl, hn⟩, hs'⟩
  exact runs_eval henv p hs

end Reads

end Peers

end MemInfo
