import MemInfo.Common.Crc32c
import MemInfo.Lib.Window
import MemInfo.Memclient.Effects

/-! # The memory client

`MemoryClient` as programs over the effects of the client: blocks that fit stay in the
local cache, the others and the evicted ones live on a peer or in stripes on several.
A response that reaches a caller has passed the verifier of `on_peer_read`.
-/

namespace MemInfo

open Lib

namespace MemoryClient

def mem (o : MemOp) : ClientM o.Res := Prog.perform (Effect.mem o)

def net (o : NetOp) : ClientM o.Res := Prog.perform (Effect.net o)

abbrev Log := List (Prog.Event Effect Effect.Res)

section Binds

variable {α ν : Type} {world : (o : NetOp) → ν → o.Res → ν → Prop}
  {safe : Effect → Client × ν → Prop} {Q : Outcome Err α → Client × ν → Prop} {s : Client × ν}

theorem wp_bind_mem_iff {o : MemOp} {f : o.Res → ClientM α} :
    Prog.wp (clientEnv world) safe (mem o >>= f) Q s ↔ safe (.mem o) s ∧
      Prog.wp (clientEnv world) safe (f (s.1.perform o).1) Q ((s.1.perform o).2, s.2) := by
  constructor
  · rintro ⟨hs, h⟩
    exact ⟨hs, h _ _ ⟨rfl, rfl⟩⟩
  · rintro ⟨hs, h⟩
    refine ⟨hs, ?_⟩
    rintro r ⟨c, w⟩ ⟨hr, rfl⟩
    obtain ⟨rfl, rfl⟩ := Prod.mk.inj hr
    exact h

theorem wp_bind_mem {o : MemOp} {f : o.Res → ClientM α} (hs : safe (.mem o) s)
    (h : Prog.wp (clientEnv world) safe (f (s.1.perform o).1) Q ((s.1.perform o).2, s.2)) :
    Prog.wp (clientEnv world) safe (mem o >>= f) Q s :=
  wp_bind_mem_iff.mpr ⟨hs, h⟩

theorem wp_bind_found {k : ℕ} {e : RemoteAllocation} {f : Option RemoteAllocation → ClientM α}
    (hs : safe (.mem (.remoteFind k)) s) (hl : s.1.remoteHandles.lookup k = some e)
    (h : Prog.wp (clientEnv world) safe (f (some e)) Q s) :
    Prog.wp (clientEnv world) safe (mem (.remoteFind k) >>= f) Q s := by
  apply wp_bind_mem hs
  have hfind : s.1.perform (.remoteFind k) = (some e, s.1) := congrArg (·, s.1) hl
  rwa [hfind]

theorem wp_bind_net {o : NetOp} {f : o.Res → ClientM α} (hs : safe (.net o) s)
    (h : ∀ r w', world o s.2 r w' → Prog.wp (clientEnv world) safe (f r) Q (s.1, w')) :
    Prog.wp (clientEnv world) safe (net o >>= f) Q s := by
  refine ⟨hs, ?_⟩
  rintro r ⟨c, w⟩ ⟨rfl, hw⟩
  exact h r w hw

variable {c : Client} {w : ν} {log : Log} {out : Outcome Err α} {x : (Client × ν) × Log}

theorem runs_bind_mem {o : MemOp} {f : o.Res → ClientM α}
    (h : Prog.Runs (Prog.logged (clientEnv world)) (mem o >>= f) ((c, w), log) out x) :
    Prog.Runs (Prog.logged (clientEnv world)) (f (c.perform o).1)
      (((c.perform o).2, w), log ++ [⟨.mem o, (c.perform o).1⟩]) out x := by
  obtain ⟨r, ⟨⟨c₁, w₁⟩, log₁⟩, ⟨⟨hr, hw⟩, hlog⟩, h⟩ := h
  obtain ⟨rfl, rfl⟩ := Prod.mk.inj hr
  obtain rfl : w₁ = w := hw
  obtain rfl : log₁ = _ := hlog
  exact h

theorem runs_bind_net {o : NetOp} {f : o.Res → ClientM α}
    (h : Prog.Runs (Prog.logged (clientEnv world)) (net o >>= f) ((c, w), log) out x) :
    ∃ r w', world o w r w' ∧ Prog.Runs (Prog.logged (clientEnv world)) (f r)
      ((c, w'), log ++ [⟨.net o, r⟩]) out x := by
  obtain ⟨r, ⟨⟨c₁, w₁⟩, log₁⟩, ⟨⟨hc, hw⟩, hlog⟩, h⟩ := h
  obtain rfl : c₁ = c := hc
  obtain rfl : log₁ = _ := hlog
  exact ⟨r, w₁, hw, h⟩

theorem runs_loggedHandler (f : (o : NetOp) → ν → o.Res × ν) (p : ClientM α)
    (s : (Client × ν) × Log) :
    Prog.Runs (Prog.logged (clientEnv fun o w r w' => (r, w') = f o w)) p s
      (Prog.eval (Prog.loggedHandler (clientHandler f)) p s).1
      (Prog.eval (Prog.loggedHandler (clientHandler f)) p s).2 :=
  (Prog.runs_eval (I := fun _ => True)
    (fun o s _ => ⟨⟨clientEnv_handler (fun _ _ => rfl) o s.1, rfl⟩, trivial⟩) p trivial).1

end Binds

def allocRequest (size requestId : ℕ) : MemoryRequest :=
  { protocolVersion, requestId, op := .alloc, size }

def freeRequest (handle requestId : ℕ) : MemoryRequest :=
  { protocolVersion, requestId, op := .free, handle }

def writeRequest (handle offset : ℕ) (data : List Byte) (requestId : ℕ) : MemoryRequest :=
  { protocolVersion, requestId, op := .write, handle, offset, data := some data
    checksum := crc32c data }

def readRequest (handle offset size requestId : ℕ) : MemoryRequest :=
  { protocolVersion, requestId, op := .read, handle, offset, size }

/-- A request under a new id. The answer is `none` for an empty buffer. -/
def syncRemoteCall (peer : ℕ) (request : ℕ → MemoryRequest) : ClientM (Option MemoryResponse) := do
  let requestId ← mem .nextRequestId
  match ← net (.call peer (request requestId)) with
  | .response r => pure (some r)
  | .empty => pure none
  | .timeout => throw (.runtimeError "Remote call timed out")

def oversizedRemoteAlloc (handle : ℕ) : ClientM (Option RemoteAllocation) := do
  match ← mem (.remoteFind handle) with
  | none => pure none
  | some alloc => do
    let maxSize ← mem .cacheMaxSize
    if alloc.size ≤ maxSize then pure none else pure (some alloc)

/-- Ask a peer for `size` bytes. No failure of the request is passed on. -/
def tryAlloc (peer size : ℕ) : ClientM (Option ℕ) :=
  tryCatch
    (do
      match ← syncRemoteCall peer (allocRequest size) with
      | some resp => if resp.status = .ok then pure (some resp.handle) else pure none
      | none => pure none)
    fun _ => pure none

def allocateSingle (size : ℕ) : List ℕ → ClientM (Option (ℕ × ℕ))
  | [] => pure none
  | p :: candidates => do
    let peer ← net (.peer p)
    if peer.mayFit size then
      match ← tryAlloc p size with
      | some handle => pure (some (p, handle))
      | none => allocateSingle size candidates
    else allocateSingle size candidates

/-- Second try: stripes on the candidates in turn, each as large as its peer may hold. The
result is the stripes and the bytes left without a place. -/
def allocateStripes : List ℕ → (remaining currentOffset : ℕ) → List Stripe →
    ClientM (List Stripe × ℕ)
  | [], remaining, _, stripes => pure (stripes, remaining)
  | p :: candidates, remaining, currentOffset, stripes =>
    if remaining = 0 then pure (stripes, remaining)
    else do
      let peer ← net (.peer p)
      let chunkSize := peer.chunkSize remaining
      if chunkSize = 0 then allocateStripes candidates remaining currentOffset stripes
      else
        match ← tryAlloc p chunkSize with
        | some remoteHandle =>
          allocateStripes candidates (remaining - chunkSize) (currentOffset + chunkSize)
            (stripes ++ [⟨remoteHandle, currentOffset, chunkSize, p⟩])
        | none => allocateStripes candidates remaining currentOffset stripes

def release (p remoteHandle : ℕ) : ClientM Unit := do
  let _ ← syncRemoteCall p (freeRequest remoteHandle)

/-- FREE a block if its peer is connected; failures are only logged. -/
def tryRelease (p remoteHandle : ℕ) : ClientM Unit := do
  let peer ← net (.peer p)
  if peer.connected then tryCatch (release p remoteHandle) fun _ => pure ()
  else pure ()

def freeStripes : List Stripe → ClientM Unit
  | [] => pure ()
  | stripe :: stripes => do
    tryRelease stripe.peer stripe.remoteHandle
    freeStripes stripes

def freeRemote (alloc : RemoteAllocation) : ClientM Unit :=
  if alloc.isStriped then freeStripes alloc.stripes
  else match alloc.peer with
    | none => pure ()
    | some p => tryRelease p alloc.remoteHandle

/-- The stripes as an allocation, if nothing is left without a place. Otherwise the
stripes there are, if any, are given back. -/
def joinStripes (size : ℕ) (stripes : List Stripe) (remaining : ℕ) :
    ClientM (Option RemoteAllocation) :=
  if remaining = 0 ∧ stripes ≠ [] then pure (some { size, stripes, isStriped := true })
  else if stripes ≠ [] then do
    freeRemote { stripes, isStriped := true }
    pure none
  else pure none

/-- The placement of `size` bytes: on one peer, or in stripes if there is more than one
candidate. -/
def place (size : ℕ) (candidates : List ℕ) : ClientM (Option RemoteAllocation) := do
  match ← allocateSingle size candidates with
  | some (p, remoteHandle) => pure (some { size, remoteHandle, peer := some p })
  | none =>
    if candidates.length > 1 then do
      let (stripes, remaining) ← allocateStripes candidates size 0 []
      joinStripes size stripes remaining
    else pure none

def awaitPeer : ClientM Unit := do
  let peers ← net .connectedPeers
  if peers.isEmpty then do
    let _ ← net .waitForConnectedPeer
  else pure ()

def allocateRemote (handle size : ℕ) : ClientM Unit := do
  awaitPeer
  let candidates ← net .candidates
  match ← place size candidates with
  | none => throw (.runtimeError "Failed to allocate on any peer: out of memory on all peers")
  | some alloc => mem (.remoteInsert handle alloc)

/-- The peer of an allocation that is not striped, which has to be connected. -/
def requirePeer (alloc : RemoteAllocation) : ClientM ℕ :=
  match alloc.peer with
  | none => throw (.runtimeError "Peer not connected")
  | some p => do
    let peer ← net (.peer p)
    if peer.connected then pure p else throw (.runtimeError "Peer not connected")

/-- The stripe covers the byte at `pos`. -/
def Covers (stripe : Stripe) (pos : ℕ) : Prop :=
  stripe.offset ≤ pos ∧ pos < wrap (stripe.offset + stripe.length)

instance (stripe : Stripe) (pos : ℕ) : Decidable (Covers stripe pos) :=
  inferInstanceAs (Decidable (_ ∧ _))

/-- WRITE to a block of a peer. Neither the status of the answer nor its absence is
looked at. -/
def store (p remoteHandle offset : ℕ) (data : List Byte) : ClientM Unit := do
  let _ ← syncRemoteCall p (writeRequest remoteHandle offset data)

/-- One pass of `write_remote` over the stripes; `dataOffset` bytes are already sent. -/
def writePass (offset : ℕ) (data : List Byte) : List Stripe → ℕ → ClientM ℕ
  | [], dataOffset => pure dataOffset
  | stripe :: stripes, dataOffset =>
    if dataOffset ≥ data.length then pure dataOffset
    else if Covers stripe (wrap (offset + dataOffset)) then do
      let writeOffset := wrap (offset + dataOffset) - stripe.offset
      let writeSize := min (data.length - dataOffset) (stripe.length - writeOffset)
      tryCatch (store stripe.peer stripe.remoteHandle writeOffset (slice data dataOffset writeSize))
        fun e => throw (.runtimeError ("Failed to write stripe: " ++ e.what))
      writePass offset data stripes (dataOffset + writeSize)
    else writePass offset data stripes dataOffset

/-- The passes of `write_remote`. A pass that sends nothing is repeated for ever, so no
more than one pass for each byte can come to an end. -/
def writePasses (offset : ℕ) (data : List Byte) (stripes : List Stripe) : ℕ → ℕ → ClientM Unit
  | 0, _ => .abort .diverges
  | passes + 1, dataOffset =>
    if dataOffset < data.length then do
      let dataOffset ← writePass offset data stripes dataOffset
      writePasses offset data stripes passes dataOffset
    else pure ()

def writeRemote (alloc : RemoteAllocation) (offset : ℕ) (data : List Byte) : ClientM Unit :=
  if alloc.isStriped then writePasses offset data alloc.stripes (data.length + 1) 0
  else do
    let p ← requirePeer alloc
    store p alloc.remoteHandle offset data

def responseData : Option MemoryResponse → ClientM (List Byte)
  | none => throw (.runtimeError "Empty response")
  | some resp =>
    match resp.status, resp.data with
    | .ok, some data => pure data
    | _, _ => throw (.runtimeError "Failed to read from remote peer")

theorem responseData_of_ok {resp : MemoryResponse} {data : List Byte} (hok : resp.status = .ok)
    (hdata : resp.data = some data) : responseData (some resp) = pure data := by
  simp only [responseData, hok, hdata]

theorem responseData_of_not_ok {resp : MemoryResponse}
    (h : resp.status = .ok → resp.data = none) :
    responseData (some resp) = throw (.runtimeError "Failed to read from remote peer") := by
  simp only [responseData]
  split
  · next data hok hdata => exact absurd (hdata.symm.trans (h hok)) nofun
  · rfl

theorem responseData_cases (resp : MemoryResponse) :
    (∃ data, resp.status = .ok ∧ resp.data = some data ∧ responseData (some resp) = pure data) ∨
      ∃ e, responseData (some resp) = throw e := by
  by_cases hok : resp.status = .ok
  · cases hdata : resp.data with
    | some data => exact .inl ⟨data, hok, rfl, responseData_of_ok hok hdata⟩
    | none => exact .inr ⟨_, responseData_of_not_ok fun _ => hdata⟩
  · exact .inr ⟨_, responseData_of_not_ok fun h => absurd h hok⟩

def fetch (p remoteHandle offset size : ℕ) : ClientM (List Byte) := do
  let resp ← syncRemoteCall p (readRequest remoteHandle offset size)
  responseData resp

/-- FREE a block that has been read, if it is not to stay. Here failures are passed on. -/
def releaseAfter (releaseAfterRead : Bool) (p remoteHandle : ℕ) : ClientM Unit :=
  if releaseAfterRead then release p remoteHandle else pure ()

/-- READ from a stripe, copy to the result, and FREE the stripe. -/
def readStripe (stripe : Stripe) (readOffset readSize : ℕ) (releaseAfterRead : Bool)
    (result : List Byte) (resultOffset : ℕ) : ClientM (List Byte) := do
  let stripeData ← fetch stripe.peer stripe.remoteHandle readOffset readSize
  -- std::copy beyond the end of the buffer
  if resultOffset + stripeData.length > result.length then .abort .undefined
  else do
    releaseAfter releaseAfterRead stripe.peer stripe.remoteHandle
    pure (splice result resultOffset stripeData)

/-- One pass of `read_remote` over the stripes; the first `resultOffset` bytes of `result`
are already read. -/
def readPass (offset size : ℕ) (releaseAfterRead : Bool) :
    List Stripe → List Byte → ℕ → ClientM (List Byte × ℕ)
  | [], result, resultOffset => pure (result, resultOffset)
  | stripe :: stripes, result, resultOffset =>
    if resultOffset ≥ size then pure (result, resultOffset)
    else if Covers stripe (wrap (offset + resultOffset)) then do
      let readOffset := wrap (offset + resultOffset) - stripe.offset
      let readSize := min (size - resultOffset) (stripe.length - readOffset)
      let result ← tryCatch
        (readStripe stripe readOffset readSize releaseAfterRead result resultOffset)
        fun e => throw (.runtimeError ("Failed to read stripe: " ++ e.what))
      readPass offset size releaseAfterRead stripes result (resultOffset + readSize)
    else readPass offset size releaseAfterRead stripes result resultOffset

/-- The passes of `read_remote`, bounded as those of `write_remote` are. -/
def readPasses (offset size : ℕ) (releaseAfterRead : Bool) (stripes : List Stripe) :
    ℕ → List Byte → ℕ → ClientM (List Byte)
  | 0, _, _ => .abort .diverges
  | passes + 1, result, resultOffset =>
    if resultOffset < size then do
      let (result, resultOffset) ←
        readPass offset size releaseAfterRead stripes result resultOffset
      readPasses offset size releaseAfterRead stripes passes result resultOffset
    else pure result

def readRemote (alloc : RemoteAllocation) (offset size : ℕ) (releaseAfterRead : Bool := true) :
    ClientM (List Byte) :=
  if alloc.isStriped then
    readPasses offset size releaseAfterRead alloc.stripes (size + 1) (List.replicate size 0) 0
  else do
    let p ← requirePeer alloc
    let data ← fetch p alloc.remoteHandle offset size
    releaseAfter releaseAfterRead p alloc.remoteHandle
    pure data

def dropReservation (handle : ℕ) : ClientM Unit := do
  match ← mem (.remoteTake handle) with
  | some orphan => tryCatch (freeRemote orphan) fun _ => pure ()
  | none => pure ()

/-- Undo a failed eviction: put the block back and pass on the exception. -/
def rollback (evicted : CacheBlock) (e : Err) : ClientM Unit := do
  dropReservation evicted.handle
  let _ ← mem (.cachePut evicted.handle evicted.data evicted.dirty)
  throw e

def pushOut (evicted : CacheBlock) : ClientM Unit :=
  tryCatch
    (do
      allocateRemote evicted.handle evicted.data.length
      match ← mem (.remoteFind evicted.handle) with
      | none => throw (.runtimeError "Remote allocation vanished after allocate")
      | some alloc => writeRemote alloc 0 evicted.data)
    (rollback evicted)

/-- The loop of `evict_if_needed`. Each round takes a block out of the cache for good or
leaves the loop, so there are no more rounds than blocks and a last one. -/
def evictRounds (sizeNeeded : ℕ) (pressureEvict : Bool) : ℕ → ClientM Unit
  | 0 => .abort .diverges
  | rounds + 1 => do
    let needsEviction ← mem (.cacheNeedsEviction sizeNeeded)
    if needsEviction || pressureEvict then
      match ← mem .cacheEvictOne with
      | none => pure ()
      | some evicted => do
        pushOut evicted
        evictRounds sizeNeeded pressureEvict rounds
    else pure ()

def evictIfNeeded (sizeNeeded : ℕ) : ClientM Unit := do
  let availableBytes ← net .availableBytes
  let pressureEvict := availableBytes > 0 ∧ availableBytes < 100 * 1024 * 1024
  let blocks ← mem .cacheCount
  evictRounds sizeNeeded pressureEvict (blocks + 1)

/-- What `allocate` does once it has a handle. -/
def allocateAs (handle size : ℕ) : ClientM ℕ := do
  let maxSize ← mem .cacheMaxSize
  if size > maxSize then do
    allocateRemote handle size
    pure handle
  else do
    evictIfNeeded size
    if ← mem (.cachePut handle (List.replicate size 0) false) then pure handle
    else throw (.runtimeError "Failed to cache allocation locally")

def allocate (size : ℕ) : ClientM ℕ := do
  let handle ← mem .nextLocalHandle
  allocateAs handle size

def free (handle : ℕ) : ClientM Unit := do
  if ← mem (.cacheRemove handle) then pure ()
  else
    match ← mem (.remoteFind handle) with
    | none => pure ()
    | some alloc => do
      freeRemote alloc
      let _ ← mem (.remoteTake handle)

def loadToLocal (handle : ℕ) : ClientM Unit := do
  match ← mem (.remoteFind handle) with
  | none => throw (.invalidArgument "Invalid handle or block not found")
  | some alloc => do
    evictIfNeeded alloc.size
    let data ← readRemote alloc 0 alloc.size
    let _ ← mem (.remoteTake handle)
    let _ ← mem (.cachePut handle data false)

/-- The range is outside of a block of `blockSize` bytes. -/
def OutOfBounds (blockSize offset size : ℕ) : Prop := offset > blockSize ∨ size > blockSize - offset

instance (blockSize offset size : ℕ) : Decidable (OutOfBounds blockSize offset size) :=
  inferInstanceAs (Decidable (_ ∨ _))

def readLocal (data : List Byte) (offset size : ℕ) : ClientM (List Byte) :=
  if OutOfBounds data.length offset size then throw (.outOfRange "Read out of bounds")
  else pure (slice data offset size)

def read (handle offset size : ℕ) : ClientM (List Byte) := do
  match ← mem (.cacheGet handle) with
  | some data => readLocal data offset size
  | none =>
    match ← oversizedRemoteAlloc handle with
    | some remote =>
      if OutOfBounds remote.size offset size then throw (.outOfRange "Read out of bounds")
      else readRemote remote offset size false
    | none => do
      loadToLocal handle
      match ← mem (.cacheGet handle) with
      | none => throw (.runtimeError "Failed to load block from remote")
      | some data => readLocal data offset size

def writeLocal (handle : ℕ) (block : List Byte) (offset : ℕ) (data : List Byte) : ClientM Unit :=
  if OutOfBounds block.length offset data.length then throw (.outOfRange "Write out of bounds")
  else do
    let _ ← mem (.cachePut handle (splice block offset data) true)

def write (handle offset : ℕ) (data : List Byte) : ClientM Unit := do
  match ← mem (.cacheGet handle) with
  | some block => writeLocal handle block offset data
  | none =>
    match ← oversizedRemoteAlloc handle with
    | some remote =>
      if OutOfBounds remote.size offset data.length then
        throw (.outOfRange "Write out of bounds")
      else writeRemote remote offset data
    | none => do
      loadToLocal handle
      match ← mem (.cacheGet handle) with
      | none => throw (.runtimeError "Failed to load block from remote")
      | some block => writeLocal handle block offset data

theorem writePasses_done {passes : ℕ} (offset : ℕ) (data : List Byte) (stripes : List Stripe)
    (h : 0 < passes) : writePasses offset data stripes passes data.length = pure () := by
  obtain ⟨k, rfl⟩ := Nat.exists_eq_succ_of_ne_zero (Nat.ne_of_gt h)
  simp [writePasses]

theorem readPasses_done {passes : ℕ} (offset size : ℕ) (releaseAfterRead : Bool)
    (stripes : List Stripe) (result : List Byte) (h : 0 < passes) :
    readPasses offset size releaseAfterRead stripes passes result size = pure result := by
  obtain ⟨k, rfl⟩ := Nat.exists_eq_succ_of_ne_zero (Nat.ne_of_gt h)
  simp [readPasses]

end MemoryClient

end MemInfo
