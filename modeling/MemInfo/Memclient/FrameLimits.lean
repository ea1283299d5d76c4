import MemInfo.Memclient.Calls
import MemInfo.Memclient.Custody
import MemInfo.Memoryd.Protocol

/-! # Frame limits

memoryd and the client each refuse frames above 64 MiB. The client puts the bytes of a block
into frames as they are, so the block and range sizes of its calls decide whether the other
side takes them.
-/

namespace MemInfo

open Lib Prog MemoryClient

/-- The size prefix that FlatBuffers gives a message: more than the length of its data. -/
structure FrameSizes where
  request : MemoryRequest → ℕ
  response : MemoryResponse → ℕ
  data_lt_request : ∀ req, (req.data.getD []).length < request req
  data_lt_response : ∀ resp, (resp.data.getD []).length < response resp

/-- `process_buffer` takes the frame of the request. -/
def FrameSizes.AcceptsRequest (F : FrameSizes) (req : MemoryRequest) : Prop :=
  F.request req ≤ maxMessageSize

/-- `on_peer_read` takes the frame of the response. -/
def FrameSizes.AcceptsResponse (F : FrameSizes) (resp : MemoryResponse) : Prop :=
  F.response resp ≤ 64 * 1024 * 1024

/-- Frames with `n` bytes of data are taken on both sides. -/
structure FrameSizes.Fits (F : FrameSizes) (n : ℕ) : Prop where
  request : ∀ req, (req.data.getD []).length ≤ n → F.AcceptsRequest req
  response : ∀ t sessionId req,
    ((MemoryProtocol.processRequest t sessionId req).1.data.getD []).length ≤ n →
      F.AcceptsResponse (MemoryProtocol.processRequest t sessionId req).1

/-- A block that may be cached, and a range, is of at most `n` bytes. -/
def Call.Within (n maxLocalBytes : ℕ) : Call → Prop
  | .allocate size => size ≤ maxLocalBytes → size ≤ n
  | .free _ => True
  | .read _ _ size => size ≤ n
  | .write _ _ data => data.length ≤ n

section Server

theorem PageTracker.length_readLoop_le {s : SlabAllocator} {pages : List ℕ} {offset size fuel : ℕ}
    {out bytes : List Byte} (hout : out.length ≤ size)
    (h : PageTracker.readLoop s pages offset size fuel out = .ok bytes) : bytes.length ≤ size := by
  induction fuel generalizing out with
  | zero =>
    obtain rfl : out = bytes := Except.ok.inj h
    exact hout
  | succ fuel ih =>
    unfold PageTracker.readLoop at h
    dsimp only at h
    split_ifs at h with hlt
    · split at h
      · cases h
      · split at h
        · cases h
        · next p _ bs hbs =>
          refine ih ?_ h
          have hlen : bs.length ≤ size - out.length := by
            unfold SlabAllocator.readPage at hbs
            split_ifs at hbs
            obtain rfl := Except.ok.inj hbs
            rw [length_window]
            exact Nat.min_le_left _ _
          rw [List.length_append]
          omega
    · obtain rfl : out = bytes := Except.ok.inj h
      exact hout

theorem PageTracker.length_read_le {t : PageTracker} {handle offset size ownerId : ℕ}
    {bytes : List Byte} (h : t.read handle offset size ownerId = .ok bytes) :
    bytes.length ≤ size := by
  unfold PageTracker.read at h
  split_ifs at h
  · obtain rfl : [] = bytes := Except.ok.inj h
    exact Nat.zero_le _
  · split at h
    · cases h
    · split_ifs at h
      exact PageTracker.length_readLoop_le (Nat.zero_le _) h

theorem MemoryProtocol.length_data_dispatch {t t' : PageTracker} {sessionId n : ℕ}
    {req : MemoryRequest} {resp : MemoryResponse} (h : req.op = .read → req.size ≤ n)
    (hd : MemoryProtocol.dispatch t sessionId req = (.ok resp, t')) :
    (resp.data.getD []).length ≤ n := by
  have hnil {status : StatusCode} {message : String} {handle : ℕ} {t₁ : PageTracker}
      (he : (Except.ok (MemoryProtocol.buildResponse req status message handle), t₁) =
        ((.ok resp, t') : Except Err MemoryResponse × PageTracker)) :
      (resp.data.getD []).length ≤ n := by
    obtain ⟨hresp, -⟩ := Prod.mk.inj he
    obtain rfl := Except.ok.inj hresp
    exact Nat.zero_le _
  unfold MemoryProtocol.dispatch at hd
  cases hop : req.op with
  | read =>
    simp only [hop] at hd
    split_ifs at hd
    · exact hnil hd
    · split at hd
      · cases (Prod.mk.inj hd).1
      · next bytes hread =>
        obtain ⟨hresp, -⟩ := Prod.mk.inj hd
        obtain rfl := Except.ok.inj hresp
        have hlen := Nat.le_trans (PageTracker.length_read_le hread) (h hop)
        cases bytes with
        | nil => exact Nat.zero_le _
        | cons b bs => exact hlen
  | alloc =>
    simp only [hop] at hd
    split at hd
    · cases (Prod.mk.inj hd).1
    · exact hnil hd
  | free =>
    simp only [hop] at hd
    split at hd
    · cases (Prod.mk.inj hd).1
    · exact hnil hd
  | write =>
    simp only [hop] at hd
    split at hd
    · exact hnil hd
    · split_ifs at hd
      · exact hnil hd
      · split at hd
        · cases (Prod.mk.inj hd).1
        · exact hnil hd
  | ping =>
    simp only [hop] at hd
    exact hnil hd
  | other code =>
    simp only [hop] at hd
    exact hnil hd

theorem MemoryProtocol.length_data_le {t : PageTracker} {sessionId n : ℕ} {req : MemoryRequest}
    (h : req.op = .read → req.size ≤ n) :
    ((MemoryProtocol.processRequest t sessionId req).1.data.getD []).length ≤ n := by
  unfold MemoryProtocol.processRequest
  split_ifs
  · exact Nat.zero_le _
  · split
    · next resp t' hd => exact MemoryProtocol.length_data_dispatch h hd
    · next e t' hd => cases e <;> exact Nat.zero_le _

end Server

section Client

variable {n M : ℕ} {c : Client} {ν : Type} {net : (o : NetOp) → ν → o.Res → ν → Prop}

/-- A request whose data, or whose answer's data, is at most `n` bytes. -/
def Small (n : ℕ) : Effect → Prop
  | .net (.call _ req) => FrameFits n req
  | _ => True

structure Sizes (n M : ℕ) (c : Client) : Prop where
  maxBytes : c.cache.maxBytes = M
  cached : ∀ node ∈ c.cache.list, node.block.data.length ≤ n
  remote : ∀ h a, c.remoteHandles.lookup h = some a → a.size ≤ M → a.size ≤ n

def Enters (n M : ℕ) : MemOp → Prop
  | .cachePut _ data _ => data.length ≤ n
  | .remoteInsert _ a => a.size ≤ M → a.size ≤ n
  | _ => True

theorem Sizes.of_subset {cache : LRUCache} (hs : Sizes n M c)
    (hm : cache.maxBytes = c.cache.maxBytes)
    (hsub : cache.list ⊆ c.cache.list) : Sizes n M { c with cache } :=
  ⟨hm.trans hs.maxBytes, fun node hn => hs.cached node (hsub hn), hs.remote⟩

theorem Sizes.perform {o : MemOp} (hs : Sizes n M c) (ho : Enters n M o) :
    Sizes n M (c.perform o).2 := by
  cases o with
  | cacheGet h => exact hs.of_subset (c.cache.maxBytes_get h) (c.cache.get_subset h)
  | cachePut h data dirty =>
    refine ⟨(c.cache.maxBytes_put h data dirty).trans hs.maxBytes, ?_, hs.remote⟩
    intro node hn
    change node ∈ (c.cache.put h data dirty).2.list at hn
    unfold LRUCache.put at hn
    split_ifs at hn
    · exact hs.cached node hn
    · rcases List.mem_cons.mp hn with rfl | hn
      · exact ho
      · exact hs.cached node (LRUCache.detach_subset _ _ (LRUCache.makeRoom_subset _ _ _ hn))
  | cacheRemove h => exact hs.of_subset (c.cache.maxBytes_detach h) (c.cache.detach_subset h)
  | cacheEvictOne => exact hs.of_subset c.cache.maxBytes_popBack c.cache.popBack_subset
  | remoteInsert h a =>
    refine ⟨hs.maxBytes, hs.cached, fun k b hb => ?_⟩
    rw [Client.perform, Dict.lookup_insert_iff] at hb
    split_ifs at hb
    · obtain rfl := Option.some.inj hb
      exact ho
    · exact hs.remote k b hb
  | remoteTake h =>
    refine ⟨hs.maxBytes, hs.cached, fun k b hb => ?_⟩
    rw [Client.perform, Dict.lookup_erase_iff] at hb
    split_ifs at hb
    exact hs.remote k b hb
  | nextLocalHandle => exact ⟨hs.maxBytes, hs.cached, hs.remote⟩
  | nextRequestId => exact ⟨hs.maxBytes, hs.cached, hs.remote⟩
  | _ => exact hs

theorem Sizes.ask {o : NetOp} {s s' : Client × ν} {r : o.Res} (hs : Sizes n M s.1)
    (he : clientEnv net (.net o) s r s') : Sizes n M s'.1 := by
  rw [he.1]
  exact hs

abbrev KeepsSizes (net : (o : NetOp) → ν → o.Res → ν → Prop) (n M : ℕ) {α : Type}
    (p : ClientM α) : Prop :=
  Preserves (clientEnv net) (fun o _ => Small n o) (fun s => Sizes n M s.1) p

theorem keepsSizes_mem_bind {α : Type} {o : MemOp} {f : o.Res → ClientM α} (ho : Enters n M o)
    (hf : ∀ c, Sizes n M c → KeepsSizes net n M (f (c.perform o).1)) :
    KeepsSizes net n M (mem o >>= f) := by
  intro s hs
  refine ⟨trivial, ?_⟩
  rintro r ⟨c, w⟩ ⟨hr, rfl⟩
  obtain ⟨rfl, rfl⟩ := Prod.mk.inj hr
  exact hf s.1 hs _ (hs.perform ho)

theorem keepsSizes_net_bind {α : Type} {o : NetOp} {f : o.Res → ClientM α}
    (ho : ∀ p req, o ≠ .call p req) (hf : ∀ r, KeepsSizes net n M (f r)) :
    KeepsSizes net n M (MemoryClient.net o >>= f) := by
  intro s hs
  have hsmall : Small n (.net o) := by
    cases o with
    | call p req => exact absurd rfl (ho p req)
    | _ => trivial
  exact ⟨hsmall, fun r s' he => hf r s' (Sizes.ask hs he)⟩

def Transfers (n : ℕ) : Effect → Prop
  | .mem o => o = .nextRequestId
  | .net (.call _ req) => FrameFits n req
  | .net _ => True

theorem transfers_background (n : ℕ) : Background (Transfers n) := by
  constructor
  · rfl
  · intro o ho
    cases o with
    | call p req => exact absurd rfl (ho p req)
    | _ => trivial

theorem Sizes.step {o : Effect} {s s' : Client × ν} {r : o.Res} (ho : Transfers n o)
    (hs : Sizes n M s.1) (he : clientEnv net o s r s') : Sizes n M s'.1 := by
  cases o with
  | mem o =>
    obtain rfl : o = .nextRequestId := ho
    have hc : s'.1 = (s.1.perform .nextRequestId).2 := congrArg Prod.snd he.1
    rw [hc]
    exact hs.perform trivial
  | net o => exact hs.ask he

theorem keepsSizes_transfers {α : Type} {p : ClientM α} {A : Abort → Prop}
    (hp : Confined (Transfers n) A p) : KeepsSizes net n M p := by
  intro s hs
  refine hp.wp_invariant (I := fun s : Client × ν => Sizes n M s.1) ?_
    (fun _ _ _ _ ho hi he => hi.step ho he) hs
  intro o s ho _
  cases o with
  | mem o => trivial
  | net o => cases o <;> exact ho

theorem keepsSizes_freeRemote (a : RemoteAllocation) : KeepsSizes net n M (freeRemote a) :=
  keepsSizes_transfers (A := fun _ => True)
    (confined_freeRemote (transfers_background n) fun _ _ _ => ⟨Nat.zero_le _, nofun⟩)

theorem keepsSizes_writeRemote {data : List Byte} (hd : data.length ≤ n) (a : RemoteAllocation)
    (offset : ℕ) : KeepsSizes net n M (writeRemote a offset data) :=
  keepsSizes_transfers (confined_writeRemote (transfers_background n)
    (fun _ _ _ _ _ hle => ⟨Nat.le_trans hle hd, nofun⟩) offset)

theorem keepsSizes_readRemote {size : ℕ} (hsize : size ≤ n) (a : RemoteAllocation) (offset : ℕ)
    (rel : Bool) : KeepsSizes net n M (readRemote a offset size rel) :=
  keepsSizes_transfers (confined_readRemote (transfers_background n)
    (fun _ _ _ _ _ hle => ⟨Nat.zero_le _, fun _ => Nat.le_trans hle hsize⟩)
    (fun _ _ _ _ => ⟨Nat.zero_le _, nofun⟩) offset)

theorem sizes_custody : Custody (clientEnv net) (fun _ => True) (fun _ s => Sizes n M s.1) where
  size _ _ _ := trivial
  requestId hs he := hs.step (n := n) (o := .mem .nextRequestId) rfl he
  ask _ hs he := hs.ask he
  refused hs _ he _ := hs.ask he
  granted hs _ he _ _ := hs.ask he
  free hs he := hs.ask he
  skip hs he _ := hs.ask he

theorem keepsSizes_allocateRemote {size : ℕ} (hsize : size ≤ M → size ≤ n) (handle : ℕ) :
    KeepsSizes net n M (allocateRemote handle size) := by
  intro s hs
  have hbackground : Background (Small n) := by
    constructor
    · trivial
    · intro o ho
      cases o with
      | call p req => exact absurd rfl (ho p req)
      | _ => trivial
  have hconf : Confined (Small n) (fun _ => True) (allocateRemote handle size) :=
    confined_allocateRemote hbackground (fun _ _ _ => ⟨Nat.zero_le _, nofun⟩)
      (fun _ _ => ⟨Nat.zero_le _, nofun⟩) (fun _ _ => trivial) handle size
  apply hconf.wp_safe (fun _ _ ho => ho)
  apply sizes_custody.wp_allocateRemote hs trivial
  · rintro a s' hs' rfl -
    refine ⟨trivial, ?_⟩
    rintro r ⟨c, w⟩ ⟨hr, rfl⟩
    obtain ⟨rfl, rfl⟩ := Prod.mk.inj hr
    exact hs'.perform (o := .remoteInsert handle a) hsize
  · exact fun _ _ hs' => hs'

theorem keepsSizes_pushOut {b : CacheBlock} (hb : b.data.length ≤ n) :
    KeepsSizes net n M (pushOut b) := by
  refine .tryCatch (.bind (keepsSizes_allocateRemote (fun _ => hb) _) fun _ => ?_) fun e => ?_
  · apply keepsSizes_mem_bind (o := .remoteFind b.handle) trivial
    intro c _
    cases (c.perform (.remoteFind b.handle)).1 with
    | none => exact preserves_throw _
    | some a => exact keepsSizes_writeRemote hb a 0
  · refine .bind (keepsSizes_mem_bind (o := .remoteTake b.handle) trivial fun c _ => ?_) fun _ => ?_
    · cases (c.perform (.remoteTake b.handle)).1 with
      | none => exact preserves_pure _
      | some orphan => exact .tryCatch (keepsSizes_freeRemote orphan) fun _ => preserves_pure _
    · apply keepsSizes_mem_bind (o := .cachePut b.handle b.data b.dirty) hb
      exact fun _ _ => preserves_throw _

theorem keepsSizes_evictRounds (sizeNeeded : ℕ) (pressure : Bool) (rounds : ℕ) :
    KeepsSizes net n M (evictRounds sizeNeeded pressure rounds) := by
  induction rounds with
  | zero => exact preserves_abort _
  | succ rounds ih =>
    apply keepsSizes_mem_bind (o := .cacheNeedsEviction sizeNeeded) trivial
    intro c _
    split_ifs
    swap
    · exact preserves_pure _
    apply keepsSizes_mem_bind (o := .cacheEvictOne) trivial
    intro c hs
    cases he : (c.perform .cacheEvictOne).1 with
    | none => exact preserves_pure _
    | some b =>
      obtain ⟨node, hn, rfl⟩ := Option.map_eq_some_iff.mp he
      exact .bind (keepsSizes_pushOut (hs.cached node (List.mem_of_getLast? hn))) fun _ => ih

theorem keepsSizes_evictIfNeeded (sizeNeeded : ℕ) :
    KeepsSizes net n M (evictIfNeeded sizeNeeded) := by
  apply keepsSizes_net_bind (o := .availableBytes) nofun
  intro bytes
  apply keepsSizes_mem_bind (o := .cacheCount) trivial
  exact fun c _ => keepsSizes_evictRounds _ _ _

/-- The answers that reach the client are those of memoryd, in whatever state. -/
def AnsweredByMemoryd (net : (o : NetOp) → ν → o.Res → ν → Prop) : Prop :=
  ∀ p req w resp w', net (.call p req) w (.response resp) w' →
    ∃ t sessionId, resp = (MemoryProtocol.processRequest t sessionId req).1

theorem AnsweredByMemoryd.readsBack (hnet : AnsweredByMemoryd net) (o : Effect) (s : Client × ν)
    (r : o.Res) (s' : Client × ν) (he : clientEnv net o s r s') : ReadsBack (· ≤ ·) o r := by
  cases o with
  | mem o => trivial
  | net o =>
    cases o with
    | call p req =>
      cases r with
      | response resp =>
        intro _ _ data hdata
        obtain ⟨t, sessionId, rfl⟩ := hnet p req _ _ _ he.2
        have hle : (((MemoryProtocol.processRequest t sessionId req).1).data.getD []).length ≤
            req.size := MemoryProtocol.length_data_le fun _ => Nat.le_refl _
        rwa [hdata] at hle
      | _ => trivial
    | _ => trivial

variable {h : ℕ} {s : Client × ν}

theorem keepsSizes_reload {a : RemoteAllocation} (hnet : AnsweredByMemoryd net) (ha : a.size ≤ n) :
    KeepsSizes net n M (do
      evictIfNeeded a.size
      let data ← readRemote a 0 a.size
      let _ ← mem (.remoteTake h)
      let _ ← mem (.cachePut h data false)) := by
  apply Preserves.bind (keepsSizes_evictIfNeeded _)
  intro _
  apply (yields_readRemote Nat.le_refl a 0 a.size true).preserves_bind hnet.readsBack
    (keepsSizes_readRemote ha a 0 true)
  intro data hdata
  apply keepsSizes_mem_bind (o := .remoteTake h) trivial
  intro _ _
  apply keepsSizes_mem_bind (o := .cachePut h data false) (Nat.le_trans hdata ha)
  exact fun _ _ => preserves_pure _

theorem sizes_loadToLocal (hnet : AnsweredByMemoryd net) (hs : Sizes n M s.1)
    (hsize : ∀ a, s.1.remoteHandles.lookup h = some a → a.size ≤ M) :
    wp (clientEnv net) (fun o _ => Small n o) (loadToLocal h) (fun _ s' => Sizes n M s'.1) s := by
  refine ⟨trivial, ?_⟩
  rintro r ⟨c, w⟩ ⟨he, rfl⟩
  obtain ⟨hr, rfl⟩ := Prod.mk.inj he
  cases r with
  | none => exact hs
  | some a => exact keepsSizes_reload hnet (hs.remote h a hr.symm (hsize a hr.symm)) s hs

theorem sizes_oversizedRemoteAlloc {α : Type} {f : Option RemoteAllocation → ClientM α}
    {Q : Outcome Err α → Client × ν → Prop} (hs : Sizes n M s.1)
    (hnone : (∀ a, s.1.remoteHandles.lookup h = some a → a.size ≤ M) →
      wp (clientEnv net) (fun o _ => Small n o) (f none) Q s)
    (hsome : ∀ a, wp (clientEnv net) (fun o _ => Small n o) (f (some a)) Q s) :
    wp (clientEnv net) (fun o _ => Small n o) (oversizedRemoteAlloc h >>= f) Q s := by
  refine wp_bind.mpr ⟨trivial, ?_⟩
  rintro r ⟨c, w⟩ ⟨he, rfl⟩
  obtain ⟨hr, rfl⟩ := Prod.mk.inj he
  cases r with
  | none => exact hnone fun a ha => absurd (hr.trans ha) nofun
  | some a =>
    refine ⟨trivial, ?_⟩
    rintro m ⟨c, w⟩ ⟨hm, rfl⟩
    obtain ⟨rfl, rfl⟩ := Prod.mk.inj hm
    change wp _ _ (if a.size ≤ s.1.cache.maxBytes then _ else _) _ s
    split_ifs with hle
    · refine hnone fun b hb => ?_
      obtain rfl := Option.some.inj (hr.trans hb)
      exact hs.maxBytes ▸ hle
    · exact hsome a

/-- What `read` and `write` have in common: the block is in the cache, too large for it, or
loaded. -/
theorem keepsSizes_access {α : Type} {k : List Byte → ClientM α} {f : RemoteAllocation → ClientM α}
    (hnet : AnsweredByMemoryd net) (hk : ∀ data, data.length ≤ n → KeepsSizes net n M (k data))
    (hf : ∀ a, KeepsSizes net n M (f a)) :
    KeepsSizes net n M (do
      match ← mem (.cacheGet h) with
      | some data => k data
      | none =>
        match ← oversizedRemoteAlloc h with
        | some remote => f remote
        | none => do
          loadToLocal h
          match ← mem (.cacheGet h) with
          | none => MonadExcept.throw (.runtimeError "Failed to load block from remote")
          | some data => k data) := by
  have hget {c : Client} {data : List Byte} (hs : Sizes n M c)
      (he : (c.perform (.cacheGet h)).1 = some data) : data.length ≤ n := by
    change (c.cache.get h).1 = some data at he
    unfold LRUCache.get at he
    split at he
    · cases he
    · next node hf =>
      obtain rfl := Option.some.inj he
      exact hs.cached node (LRUCache.mem_list_of_find hf)
  apply keepsSizes_mem_bind (o := .cacheGet h) trivial
  intro c hc
  cases he : (c.perform (.cacheGet h)).1 with
  | some data => exact hk data (hget hc he)
  | none =>
    intro s hs
    apply sizes_oversizedRemoteAlloc hs
    · intro hsize
      refine wp_bind.mpr (wp_mono (sizes_loadToLocal hnet hs hsize) fun out s' hs' => ?_)
      cases out with
      | threw e => exact hs'
      | aborted x => exact hs'
      | ok _ =>
        revert s'
        apply keepsSizes_mem_bind (o := .cacheGet h) trivial
        intro c hc
        cases he : (c.perform (.cacheGet h)).1 with
        | none => exact preserves_throw _
        | some data => exact hk data (hget hc he)
    · exact fun a => hf a s hs

theorem keepsSizes_read {offset size : ℕ} (hnet : AnsweredByMemoryd net) (hsize : size ≤ n) :
    KeepsSizes net n M (read h offset size) := by
  apply keepsSizes_access hnet
  · intro data _
    unfold readLocal
    split_ifs
    · exact preserves_throw _
    · exact preserves_pure _
  · intro a
    split_ifs
    · exact preserves_throw _
    · exact keepsSizes_readRemote hsize a offset false

theorem keepsSizes_write {offset : ℕ} {data : List Byte} (hnet : AnsweredByMemoryd net)
    (hd : data.length ≤ n) : KeepsSizes net n M (write h offset data) := by
  apply keepsSizes_access hnet
  · intro block hblock
    unfold writeLocal
    split_ifs with hout
    · exact preserves_throw _
    · have hlen : (splice block offset data).length ≤ n := by
        rw [length_splice (by unfold OutOfBounds at hout; omega)]
        exact hblock
      apply keepsSizes_mem_bind (o := .cachePut h (splice block offset data) true) hlen
      exact fun _ _ => preserves_pure _
  · intro a
    split_ifs
    · exact preserves_throw _
    · exact keepsSizes_writeRemote hd a offset

theorem keepsSizes_free : KeepsSizes net n M (free h) := by
  apply keepsSizes_mem_bind (o := .cacheRemove h) trivial
  intro c _
  split_ifs
  · exact preserves_pure _
  apply keepsSizes_mem_bind (o := .remoteFind h) trivial
  intro c _
  cases (c.perform (.remoteFind h)).1 with
  | none => exact preserves_pure _
  | some a =>
    apply Preserves.bind (keepsSizes_freeRemote a)
    intro _
    apply keepsSizes_mem_bind (o := .remoteTake h) trivial
    exact fun _ _ => preserves_pure _

theorem keepsSizes_allocate {size : ℕ} (hsize : size ≤ M → size ≤ n) :
    KeepsSizes net n M (allocate size) := by
  apply keepsSizes_mem_bind (o := .nextLocalHandle) trivial
  intro c _
  apply keepsSizes_mem_bind (o := .cacheMaxSize) trivial
  intro c hc
  split_ifs with hbig
  · exact .bind (keepsSizes_allocateRemote hsize _) fun _ => preserves_pure _
  · apply Preserves.bind (keepsSizes_evictIfNeeded size)
    intro _
    have hle : size ≤ M := by
      rw [← hc.maxBytes]
      exact Nat.not_lt.mp hbig
    have hlen : (List.replicate size (0 : Byte)).length ≤ n := by
      rw [List.length_replicate]
      exact hsize hle
    apply keepsSizes_mem_bind (o := .cachePut _ (List.replicate size 0) false) hlen
    intro c _
    split_ifs
    · exact preserves_pure _
    · exact preserves_throw _

theorem keepsSizes_exec {call : Call} (hnet : AnsweredByMemoryd net) (hcall : call.Within n M) :
    KeepsSizes net n M call.exec := by
  cases call with
  | allocate size => exact .bind (keepsSizes_allocate hcall) fun _ => preserves_pure _
  | free h => exact .bind keepsSizes_free fun _ => preserves_pure _
  | read h offset size => exact .bind (keepsSizes_read hnet hcall) fun _ => preserves_pure _
  | write h offset data => exact .bind (keepsSizes_write hnet hcall) fun _ => preserves_pure _

def SentSmall (n M : ℕ) (s : (Client × ν) × Log) : Prop :=
  Sizes n M s.1.1 ∧ ∀ e ∈ s.2, Small n e.1

theorem SentSmall.call {call : Call} {out : Outcome Err Value}
    {s s' : (Client × ν) × Log} (hnet : AnsweredByMemoryd net)
    (hcall : call.Within n M) (hs : SentSmall n M s)
    (hr : Runs (logged (clientEnv net)) call.exec s out s') : SentSmall n M s' := by
  obtain ⟨ha, hpost⟩ := wp_iff.mp (keepsSizes_exec hnet hcall s.1 hs.1)
  obtain ⟨hr', hlog⟩ := ha.logged hr
  refine ⟨hpost out s'.1 hr', fun e he => ?_⟩
  rcases hlog e he with he | he
  · exact hs.2 e he
  · exact he

theorem sentSmall_new (n M : ℕ) (w : ν) : SentSmall n M ((Client.new M, w), []) :=
  ⟨⟨rfl, fun _ hm => absurd hm List.not_mem_nil, fun _ _ ha => absurd ha nofun⟩,
    fun _ hm => absurd hm List.not_mem_nil⟩

end Client

/-- If frames with `n` bytes of data fit, the blocks of a client that may be cached are of at
most `n` bytes, and so are the ranges it reads and writes, then memoryd takes every request
of the client and the client every response to it. So it does the response to any other
request that does not ask for more than `n` bytes. -/
theorem frames_agree {ν : Type} {net : (o : NetOp) → ν → o.Res → ν → Prop} {F : FrameSizes}
    {n maxLocalBytes : ℕ} {w : ν} {tr : List (Call × Outcome Err Value)} {s : Client × ν}
    {log : Log} (hF : F.Fits n) (hnet : AnsweredByMemoryd net)
    (hcalls : ∀ e ∈ tr, e.1.Within n maxLocalBytes)
    (hrun : CallRuns (logged (clientEnv net)) ((Client.new maxLocalBytes, w), []) tr (s, log)) :
    (∀ p req r, ⟨.net (.call p req), r⟩ ∈ log → F.AcceptsRequest req ∧
      ∀ t sessionId, F.AcceptsResponse (MemoryProtocol.processRequest t sessionId req).1) ∧
    ∀ t sessionId req, F.AcceptsRequest req → (req.op = .read → req.size ≤ n) →
      F.AcceptsResponse (MemoryProtocol.processRequest t sessionId req).1 := by
  have hresp {t sessionId} {req : MemoryRequest} (h : req.op = .read → req.size ≤ n) :
      F.AcceptsResponse (MemoryProtocol.processRequest t sessionId req).1 :=
    hF.response t sessionId req (MemoryProtocol.length_data_le h)
  have hsent : SentSmall n maxLocalBytes (s, log) :=
    Allowed.invariant (P := fun e : Call × Outcome Err Value => e.1.Within n maxLocalBytes)
      (fun _ _ _ _ hcall hs hr => hs.call hnet hcall hr) hrun hcalls (sentSmall_new _ _ w)
  constructor
  · intro p req r hmem
    obtain ⟨hdata, hread⟩ : FrameFits n req := hsent.2 _ hmem
    exact ⟨hF.request req hdata, fun t sessionId => hresp hread⟩
  · exact fun t sessionId req _ hread => hresp hread

section LargeBlock

def tightFrames : FrameSizes where
  request req := (req.data.getD []).length + 1
  response resp := (resp.data.getD []).length + 1
  data_lt_request _ := Nat.lt_succ_self _
  data_lt_response _ := Nat.lt_succ_self _

def largePage : PageTracker :=
  PageTracker.new ⟨maxMessageSize, 1, fun _ => 0, fun _ => .free, [0]⟩

/-- A peer that has the pool, and closes the connection on any other request. -/
def grantsPage : (o : NetOp) → Unit → o.Res × Unit
  | .availableBytes, _ => (0, ())
  | .connectedPeers, _ => ([0], ())
  | .waitForConnectedPeer, _ => (true, ())
  | .candidates, _ => ([0], ())
  | .peer _, _ => ({ connected := true }, ())
  | .call _ req, _ =>
    if req.op = .alloc then (.response (MemoryProtocol.processRequest largePage 1 req).1, ())
    else (.empty, ())

def holdsPage : Client :=
  { cache := LRUCache.new 0
    remoteHandles := AList.singleton 1 { size := maxMessageSize, remoteHandle := 1, peer := some 0 }
    nextLocalHandle := 2
    nextRequestId := 2 }

theorem answeredByMemoryd_grantsPage :
    AnsweredByMemoryd fun o w r w' => (r, w') = grantsPage o w := by
  intro p req w resp w' h
  by_cases hop : req.op = .alloc
  · have hcall : grantsPage (.call p req) w =
        (.response (MemoryProtocol.processRequest largePage 1 req).1, ()) := if_pos hop
    rw [hcall] at h
    exact ⟨largePage, 1, CallResult.response.inj (Prod.mk.inj h).1⟩
  · have hcall : grantsPage (.call p req) w = (.empty, ()) := if_neg hop
    rw [hcall] at h
    cases (Prod.mk.inj h).1

theorem tightFrames_fits : tightFrames.Fits (maxMessageSize - 1) := by
  have hpos : 0 < maxMessageSize := by decide
  constructor
  · exact fun req h => Nat.add_le_of_le_sub hpos h
  · exact fun t sessionId req h => Nat.add_le_of_le_sub hpos h

theorem frames_agree_one_byte : ∃ s log,
    CallRuns (logged (clientEnv fun o w r w' => (r, w') = grantsPage o w))
      ((Client.new 0, ()), [])
      [(.allocate 1, .ok (.handle 1)), (.write 1 0 [7], .ok .done)] (s, log) ∧
    ∀ p req r, ⟨.net (.call p req), r⟩ ∈ log → tightFrames.AcceptsRequest req := by
  have h₁ := runs_loggedHandler grantsPage (Call.allocate 1).exec ((Client.new 0, ()), [])
  have h₂ := runs_loggedHandler grantsPage (Call.write 1 0 [7]).exec
    (eval (loggedHandler (clientHandler grantsPage)) (Call.allocate 1).exec
      ((Client.new 0, ()), [])).2
  have hrun : CallRuns (logged (clientEnv fun o w r w' => (r, w') = grantsPage o w))
      ((Client.new 0, ()), []) [(.allocate 1, .ok (.handle 1)), (.write 1 0 [7], .ok .done)] _ :=
    .cons h₁ (.cons h₂ (.nil _))
  have hagree := frames_agree tightFrames_fits answeredByMemoryd_grantsPage
    (by simp [Call.Within, maxMessageSize]) hrun
  exact ⟨_, _, hrun, fun p req r hmem => (hagree.1 p req r hmem).1⟩

theorem eval_allocate_page : ∃ log,
    eval (loggedHandler (clientHandler grantsPage)) (Call.allocate maxMessageSize).exec
      ((Client.new 0, ()), []) = (.ok (.handle 1), (holdsPage, ()), log) := ⟨_, rfl⟩

theorem eval_write_page {data : List Byte} (hd : data.length = maxMessageSize) (log : Log) :
    ∃ c log', ⟨.net (.call 0 (writeRequest 1 0 data 2)), .empty⟩ ∈ log' ∧
      eval (loggedHandler (clientHandler grantsPage)) (Call.write 1 0 data).exec
        ((holdsPage, ()), log) = (.ok .done, (c, ()), log') := by
  have hin : ¬ OutOfBounds maxMessageSize 0 data.length := by
    simp [OutOfBounds, hd]
  have hwrite : ∃ log₁, eval (loggedHandler (clientHandler grantsPage)) (Call.write 1 0 data).exec
      ((holdsPage, ()), log) = eval (loggedHandler (clientHandler grantsPage))
        ((if OutOfBounds maxMessageSize 0 data.length then
          MonadExcept.throw (.outOfRange "Write out of bounds")
        else writeRemote { size := maxMessageSize, remoteHandle := 1, peer := some 0 } 0 data)
          >>= fun _ => Pure.pure Value.done) ((holdsPage, ()), log₁) :=
    ⟨_, rfl⟩
  obtain ⟨log₁, hlog₁⟩ := hwrite
  rw [if_neg hin] at hlog₁
  exact ⟨_, _, List.mem_append_right _ (List.mem_singleton_self _), hlog₁⟩

/-- A block of 64 MiB gets a page, but no frame that memoryd takes has all of its bytes. -/
theorem oversized_frame_sent : ∃ data s log, data.length = maxMessageSize ∧
    CallRuns (logged (clientEnv fun o w r w' => (r, w') = grantsPage o w))
      ((Client.new 0, ()), [])
      [(.allocate maxMessageSize, .ok (.handle 1)), (.write 1 0 data, .ok .done)] (s, log) ∧
    ∃ req r, ⟨.net (.call 0 req), r⟩ ∈ log ∧ ¬ tightFrames.AcceptsRequest req := by
  obtain ⟨data, hd⟩ : ∃ data : List Byte, data.length = maxMessageSize :=
    ⟨List.replicate maxMessageSize 0, List.length_replicate⟩
  obtain ⟨log, hlog⟩ := eval_allocate_page
  obtain ⟨c, log', hmem, hlog'⟩ := eval_write_page hd log
  have h₁ := runs_loggedHandler grantsPage (Call.allocate maxMessageSize).exec
    ((Client.new 0, ()), [])
  have h₂ := runs_loggedHandler grantsPage (Call.write 1 0 data).exec ((holdsPage, ()), log)
  rw [hlog] at h₁
  rw [hlog'] at h₂
  refine ⟨data, (c, ()), log', hd, .cons h₁ (.cons h₂ (.nil _)), _, _, hmem, ?_⟩
  change ¬ data.length + 1 ≤ maxMessageSize
  rw [hd]
  exact Nat.not_succ_le_self _

end LargeBlock

end MemInfo
