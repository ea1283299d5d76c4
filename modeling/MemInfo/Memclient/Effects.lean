import MemInfo.Common.Messages
import MemInfo.Lib.Prog
import MemInfo.Memclient.LruCache

/-! # What the client works on

The functions of `MemoryClient` read and change the client's own data, and they ask the
world outside: the memory monitor, the table of peers that discovery and the network
thread keep, and the peers themselves.
-/

namespace MemInfo

open Lib

/-- What an application thread reads of a `RemotePeer`. -/
structure RemotePeer where
  connected : Bool := false
  freeRamBytes : ℕ := 0
  capacityKnown : Bool := false
  deriving DecidableEq, Repr

def RemotePeer.mayFit (p : RemotePeer) (size : ℕ) : Bool :=
  !p.capacityKnown || p.freeRamBytes ≥ size

/-- The part of the remaining bytes that a peer is asked to take as a stripe. -/
def RemotePeer.chunkSize (p : RemotePeer) (remaining : ℕ) : ℕ :=
  if p.capacityKnown then min remaining p.freeRamBytes else remaining

/-- A peer is named by its position in `peers_`, which only grows. -/
structure Stripe where
  remoteHandle : ℕ
  offset : ℕ
  length : ℕ
  peer : ℕ
  deriving DecidableEq, Repr

structure RemoteAllocation where
  remoteHandle : ℕ := 0
  size : ℕ := 0
  peer : Option ℕ := none
  stripes : List Stripe := []
  isStriped : Bool := false
  deriving DecidableEq, Repr

/-- How the promise of a request is resolved: with a response that passed the verifier,
with an empty buffer because a connection was lost, or not within ten seconds. -/
inductive CallResult where
  | response (r : MemoryResponse)
  | empty
  | timeout
  deriving DecidableEq, Repr

inductive MemOp where
  | nextLocalHandle
  | nextRequestId
  | cacheMaxSize
  | cacheCount
  | cacheNeedsEviction (additionalBytes : ℕ)
  | cacheGet (handle : ℕ)
  | cachePut (handle : ℕ) (data : List Byte) (dirty : Bool)
  | cacheRemove (handle : ℕ)
  | cacheEvictOne
  | remoteFind (handle : ℕ)
  | remoteInsert (handle : ℕ) (alloc : RemoteAllocation)
  | remoteTake (handle : ℕ)
  deriving DecidableEq, Repr

abbrev MemOp.Res : MemOp → Type
  | .nextLocalHandle => ℕ
  | .nextRequestId => ℕ
  | .cacheMaxSize => ℕ
  | .cacheCount => ℕ
  | .cacheNeedsEviction _ => Bool
  | .cacheGet _ => Option (List Byte)
  | .cachePut _ _ _ => Bool
  | .cacheRemove _ => Bool
  | .cacheEvictOne => Option CacheBlock
  | .remoteFind _ => Option RemoteAllocation
  | .remoteInsert _ _ => Unit
  | .remoteTake _ => Option RemoteAllocation

/-- Questions to the world outside. `candidates` are the connected peers in the order that
`std::sort` leaves them. -/
inductive NetOp where
  | availableBytes
  | connectedPeers
  | waitForConnectedPeer
  | candidates
  | peer (p : ℕ)
  | call (p : ℕ) (req : MemoryRequest)
  deriving DecidableEq, Repr

abbrev NetOp.Res : NetOp → Type
  | .availableBytes => ℕ
  | .connectedPeers => List ℕ
  | .waitForConnectedPeer => Bool
  | .candidates => List ℕ
  | .peer _ => RemotePeer
  | .call _ _ => CallResult

inductive Effect where
  | mem (o : MemOp)
  | net (o : NetOp)
  deriving DecidableEq, Repr

abbrev Effect.Res : Effect → Type
  | .mem o => o.Res
  | .net o => o.Res

abbrev ClientM := Prog Effect Effect.Res Err

/-- The data of a `MemoryClient`. The handle counter is kept unreduced; its value is the
reduced one. -/
structure Client where
  cache : LRUCache
  remoteHandles : Dict ℕ RemoteAllocation
  nextLocalHandle : ℕ
  nextRequestId : ℕ

namespace Client

def new (maxLocalBytes : ℕ) : Client := ⟨LRUCache.new maxLocalBytes, ∅, 1, 1⟩

def perform (c : Client) : (o : MemOp) → o.Res × Client
  | .nextLocalHandle =>
    (wrap c.nextLocalHandle, { c with nextLocalHandle := c.nextLocalHandle + 1 })
  | .nextRequestId => (wrap c.nextRequestId, { c with nextRequestId := c.nextRequestId + 1 })
  | .cacheMaxSize => (c.cache.maxSize, c)
  | .cacheCount => (c.cache.count, c)
  | .cacheNeedsEviction n => (c.cache.needsEviction n, c)
  | .cacheGet h => ((c.cache.get h).1, { c with cache := (c.cache.get h).2 })
  | .cachePut h data dirty =>
    ((c.cache.put h data dirty).1, { c with cache := (c.cache.put h data dirty).2 })
  | .cacheRemove h => ((c.cache.remove h).1, { c with cache := (c.cache.remove h).2 })
  | .cacheEvictOne => (c.cache.evictOne.1, { c with cache := c.cache.evictOne.2 })
  | .remoteFind h => (c.remoteHandles.lookup h, c)
  | .remoteInsert h alloc => ((), { c with remoteHandles := c.remoteHandles.insert h alloc })
  | .remoteTake h =>
    (c.remoteHandles.lookup h, { c with remoteHandles := c.remoteHandles.erase h })

theorem maxBytes_perform (c : Client) (o : MemOp) :
    (c.perform o).2.cache.maxBytes = c.cache.maxBytes := by
  cases o <;> simp [Client.perform, LRUCache.remove, LRUCache.evictOne]

end Client

section Environment

variable {ν : Type}

/-- The environment of a client in a world that answers as `net` allows. -/
def clientEnv (net : (o : NetOp) → ν → o.Res → ν → Prop) :
    (o : Effect) → Client × ν → o.Res → Client × ν → Prop
  | .mem o, s, r, s' => (r, s'.1) = s.1.perform o ∧ s'.2 = s.2
  | .net o, s, r, s' => s'.1 = s.1 ∧ net o s.2 r s'.2

/-- The environment of a client in a world that is a function. -/
def clientHandler (net : (o : NetOp) → ν → o.Res × ν) :
    (o : Effect) → Client × ν → o.Res × (Client × ν)
  | .mem o, s => ((s.1.perform o).1, (s.1.perform o).2, s.2)
  | .net o, s => ((net o s.2).1, s.1, (net o s.2).2)

theorem clientEnv_handler {net : (o : NetOp) → ν → o.Res → ν → Prop}
    {f : (o : NetOp) → ν → o.Res × ν} (h : ∀ o w, net o w (f o w).1 (f o w).2)
    (o : Effect) (s : Client × ν) :
    clientEnv net o s (clientHandler f o s).1 (clientHandler f o s).2 := by
  cases o with
  | mem o => exact ⟨rfl, rfl⟩
  | net o => exact ⟨rfl, h o s.2⟩

theorem maxBytes_clientEnv {net : (o : NetOp) → ν → o.Res → ν → Prop} {o : Effect}
    {s s' : Client × ν} {r : o.Res} (he : clientEnv net o s r s') :
    s'.1.cache.maxBytes = s.1.cache.maxBytes := by
  cases o with
  | mem o =>
    have h : s'.1 = (s.1.perform o).2 := congrArg Prod.snd he.1
    rw [h, Client.maxBytes_perform]
  | net o => rw [he.1]

end Environment

end MemInfo
