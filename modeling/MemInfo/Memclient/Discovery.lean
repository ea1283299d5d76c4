import MemInfo.Discoveryd.ControlSocket
import MemInfo.Lib.Run
import MemInfo.Memclient.Network

/-! # How the client finds its peers

Any thread may ask discoveryd for the peers and go through its answer: the discovery thread does so
from time to time, an application thread while it waits for a peer. `peers_mutex_` is taken twice
for each peer of the answer, and the thread of libuv opens the connections that were queued.
-/

namespace MemInfo

open Lib

structure PeerEndpoint where
  ip : String
  port : ℕ
  freeRamBytes : UInt64
  freeVramBytes : UInt64
  deriving DecidableEq, Repr

/-- What `query_discovery` makes of the answer, if there is one and it can be read. -/
def queryDiscovery (answer : Option DiscoveryResponse) : List PeerEndpoint :=
  ((answer.bind DiscoveryResponse.peers).getD []).filterMap fun p =>
    if p.memoryPort = 0 then none
    else some ⟨p.address, p.memoryPort.toNat, p.freeRamBytes, p.freeVramBytes⟩

/-- The fields of a `RemotePeer` that `peers_mutex_` guards. -/
structure KnownPeer where
  ip : String
  port : ℕ
  freeRamBytes : UInt64 := 0
  freeVramBytes : UInt64 := 0
  capacityKnown : Bool := false
  lastCapacityUpdate : ℤ := 0
  deriving DecidableEq, Repr

namespace KnownPeer

def create (ip : String) (port : ℕ) : KnownPeer where
  ip := ip
  port := port

def address (p : KnownPeer) : String × ℕ := (p.ip, p.port)

def refresh (p : KnownPeer) (ep : PeerEndpoint) (now : ℤ) : KnownPeer :=
  { p with
    freeRamBytes := ep.freeRamBytes
    freeVramBytes := ep.freeVramBytes
    capacityKnown := true
    lastCapacityUpdate := now }

end KnownPeer

/-- What a round of `connect_to_peers` keeps. -/
structure Round where
  rest : List PeerEndpoint
  now : ℤ
  queued : Bool
  deriving DecidableEq, Repr

/-- Where a thread is in `connect_to_peers`. -/
inductive RoundPc where
  | idle
  /-- The next endpoint is looked up, or the round ends. -/
  | ensuring (r : Round)
  | updating (peer : ℕ) (ep : PeerEndpoint) (r : Round)
  deriving DecidableEq, Repr

/-- The round has put a peer into `pending_connects_`. -/
def RoundPc.queued : RoundPc → Bool
  | .idle => false
  | .ensuring r => r.queued
  | .updating _ _ r => r.queued

inductive ClientPhase where
  /-- The constructor looks for peers. -/
  | constructing
  /-- The constructor opens the first connections. -/
  | connecting
  /-- The thread of libuv runs. -/
  | running
  deriving DecidableEq, Repr

structure ClientPeers where
  peers : List KnownPeer := []
  network : Network := {}
  rounds : ℕ → RoundPc := fun _ => .idle
  /-- `connect_async_` has been sent and its callback has not yet run. -/
  connectAsync : Bool := false
  /-- What `drain_pending_connects` has still to start. -/
  batch : List ℕ := []
  phase : ClientPhase := .constructing

inductive ClientPeersEvent where
  /-- The constructor is given the address of a peer. -/
  | direct (ip : String) (port : ℕ) (outcome : ConnectStart)
  | query (thread : ℕ) (answer : Option DiscoveryResponse) (now : ℤ)
  | ensure (thread : ℕ) (ep : PeerEndpoint) (r : Round)
  | update (thread peer : ℕ) (ep : PeerEndpoint) (r : Round)
  | finish (thread : ℕ) (r : Round)
  | drain
  | start (peer : ℕ) (outcome : ConnectStart)
  | launch
  /-- Another callback of libuv, or a call of an application thread. -/
  | network (ev : NetworkEvent)

namespace ClientPeers

variable (s : ClientPeers)

/-- The peer for this `ip:port`, created if there is none. -/
def ensurePeer (ip : String) (port : ℕ) : ℕ × List KnownPeer :=
  match s.peers.findIdx? fun p => p.ip = ip ∧ p.port = port with
  | some i => (i, s.peers)
  | none => (s.peers.length, s.peers ++ [.create ip port])

def setRound (thread : ℕ) (pc : RoundPc) : ClientPeers :=
  { s with rounds := Function.update s.rounds thread pc }

def updatePeer (thread peer : ℕ) (ep : PeerEndpoint) (r : Round) : ClientPeers :=
  let s' := { s with peers := s.peers.modify peer fun p => p.refresh ep r.now }
  if (s.network.connections peer).connected then s'.setRound thread (.ensuring r)
  else
    let pending := s.network.pendingConnects ++ [peer]
    { s' with network := { s.network with pendingConnects := pending } }.setRound thread
      (.ensuring { r with queued := true })

/-- `drain_pending_connects` runs in the constructor and as the callback of `connect_async_`, and
the thread that runs it has ended what it did before. -/
def mayDrain : Bool :=
  s.batch.isEmpty &&
    match s.phase with
    | .constructing => s.rounds 0 = .idle
    | .connecting => false
    | .running => s.connectAsync

/-- Discovery and the start of connections are steps of their own. Other callbacks run when the
thread of libuv has ended the last one. -/
def admits : NetworkEvent → Bool
  | .discover _ => false
  | .drain _ => false
  | .start _ _ => false
  | .connect _ _ => s.phase = .running ∧ s.batch = []
  | .read _ _ => s.phase = .running ∧ s.batch = []
  | .draw => true
  | .call _ _ => true
  | .wake _ => true

def enabled : ClientPeersEvent → Bool
  | .direct _ _ _ => s.phase = .constructing ∧ s.peers = [] ∧ s.rounds 0 = .idle
  -- only the constructing thread is there before the client is complete
  | .query thread _ _ =>
    s.rounds thread = .idle ∧ (s.phase = .running ∨ s.phase = .constructing ∧ thread = 0)
  | .ensure thread ep r => s.rounds thread = .ensuring { r with rest := ep :: r.rest }
  | .update thread peer ep r => s.rounds thread = .updating peer ep r
  | .finish thread r => s.rounds thread = .ensuring r ∧ r.rest = []
  | .drain => s.mayDrain
  | .start peer _ => s.batch.head? = some peer
  | .launch => s.phase = .connecting ∧ s.batch = []
  | .network ev => s.admits ev

def effect (decode : List Byte → Option MemoryResponse) : ClientPeersEvent → ClientPeers
  | .direct ip port outcome =>
    let (peer, peers) := s.ensurePeer ip port
    { s with
      peers := peers
      network := s.network.startConnect peer outcome
      phase := .connecting }
  | .query thread answer now =>
    let discovered := queryDiscovery answer
    if discovered = [] then s else s.setRound thread (.ensuring ⟨discovered, now, false⟩)
  | .ensure thread ep r =>
    let (peer, peers) := s.ensurePeer ep.ip ep.port
    { s with peers := peers }.setRound thread (.updating peer ep r)
  | .update thread peer ep r => s.updatePeer thread peer ep r
  | .finish thread r =>
    { s with connectAsync := s.connectAsync || r.queued }.setRound thread .idle
  | .drain =>
    { s with
      network := { s.network with pendingConnects := [] }
      batch := s.network.pendingConnects
      -- a callback clears the signal before it runs
      connectAsync := if s.phase = .running then false else s.connectAsync
      phase := if s.phase = .constructing then .connecting else s.phase }
  | .start peer outcome =>
    { s with network := s.network.startConnect peer outcome, batch := s.batch.tail }
  | .launch => { s with phase := .running }
  | .network ev => { s with network := s.network.step decode ev }

def step (decode : List Byte → Option MemoryResponse) (e : ClientPeersEvent) : Option ClientPeers :=
  if s.enabled e then some (s.effect decode e) else none

def run (decode : List Byte → Option MemoryResponse) (events : List ClientPeersEvent) :
    Option ClientPeers := events.foldlM (fun s e => s.step decode e) {}

variable {s} {t : ClientPeers} {e : ClientPeersEvent} {decode : List Byte → Option MemoryResponse}

theorem step_eq_some : s.step decode e = some t ↔ s.enabled e = true ∧ s.effect decode e = t := by
  simp only [step, Option.ite_none_right_eq_some, Option.some.injEq]

theorem ensurePeer_spec (s : ClientPeers) (ip : String) (port : ℕ) :
    ((s.ensurePeer ip port).2.map KnownPeer.address)[(s.ensurePeer ip port).1]? =
        some (ip, port) ∧
      ((s.ensurePeer ip port).2 = s.peers ∨
        (s.ensurePeer ip port).2 = s.peers ++ [.create ip port] ∧
          (ip, port) ∉ s.peers.map KnownPeer.address) := by
  unfold ensurePeer
  cases hidx : s.peers.findIdx? fun p => p.ip = ip ∧ p.port = port with
  | some i =>
    obtain ⟨hlt, hsame, -⟩ := List.findIdx?_eq_some_iff_getElem.1 hidx
    refine ⟨?_, Or.inl rfl⟩
    rw [List.getElem?_map, List.getElem?_eq_getElem hlt, Option.map_some]
    exact congrArg some (Prod.ext_iff.2 (of_decide_eq_true hsame))
  | none =>
    refine ⟨by simp [KnownPeer.address, KnownPeer.create], Or.inr ⟨rfl, ?_⟩⟩
    rw [List.mem_map]
    rintro ⟨p, hp, hsame⟩
    exact of_decide_eq_false (List.findIdx?_eq_none_iff.1 hidx p hp) (Prod.ext_iff.1 hsame)

end ClientPeers

end MemInfo
