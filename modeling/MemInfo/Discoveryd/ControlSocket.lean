import MemInfo.Discoveryd.PeerTable
import MemInfo.Memoryd.Control

/-! # The control socket of discoveryd

What the control socket answers: the peers of the table, the state of the daemon, and whether a
command was carried out.
-/

namespace MemInfo

/-- An entry of the answer to LIST_PEERS. A peer that is not active is listed as stale. -/
structure PeerListing where
  nodeId : NodeId
  hostname : String
  address : String
  freeRamBytes : UInt64
  freeVramBytes : UInt64
  memoryPort : UInt16
  gpuPort : UInt16
  active : Bool
  lastSeenMs : UInt64
  deriving DecidableEq, Repr

structure LocalStatus where
  localId : NodeId
  localHostname : String
  freeRam : UInt64
  freeVram : UInt64
  poolJoined : Bool
  peerCount : UInt32
  deriving DecidableEq, Repr

/-- The fields of a `ControlResponse` that discoveryd fills in. -/
structure DiscoveryResponse where
  requestId : ℕ
  success : Bool
  message : String
  peers : Option (List PeerListing) := none
  status : Option LocalStatus := none
  deriving DecidableEq, Repr

/-- `duration_cast<milliseconds>`, stored in a `uint64`. -/
def elapsedMs (now lastSeen : ℤ) : UInt64 := .ofInt ((now - lastSeen).tdiv 1000000)

namespace ControlSocket

/-- The fields `success` and `message`. -/
def outcome (daemon : Bool) : ControlCommand → Bool × String
  | .listPeers => (true, "OK")
  | .joinPool => if daemon then (true, "Joined pool") else (false, "Daemon not available")
  | .leavePool => if daemon then (true, "Left pool") else (false, "Daemon not available")
  | .getLocalStatus => if daemon then (true, "OK") else (false, "Daemon not available")
  | _ => (false, "Unsupported command")

def listing (now : ℤ) (p : PeerInfo) : PeerListing where
  nodeId := p.id
  hostname := p.hostname
  address := p.address
  freeRamBytes := p.freeRamBytes
  freeVramBytes := p.freeVramBytes
  memoryPort := p.memoryPort
  gpuPort := p.gpuPort
  active := p.state = .active
  lastSeenMs := elapsedMs now p.lastSeen

/-- The end of `handle_request`, with what the daemon says if there is one. -/
def response (daemon : Option LocalStatus) (req : ControlRequest) (peers : List PeerListing) :
    DiscoveryResponse where
  requestId := req.requestId
  success := (outcome daemon.isSome req.command).1
  message := (outcome daemon.isSome req.command).2
  peers := if req.command = .listPeers then some peers else none
  status := if req.command = .getLocalStatus then daemon else none

end ControlSocket

end MemInfo
