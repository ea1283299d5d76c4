import MemInfo.Discoveryd.PeerTable

/-! # Announcements

A node announces itself over UDP multicast, and every listener enters what it hears in its table.
Nothing orders the datagrams: the time that an announcement carries is not read.
-/

namespace MemInfo

open Lib

/-- An announcement as its accessors read it. The verifier lets vectors and strings be absent. -/
structure Announcement where
  protocolVersion : ℕ := 0
  nodeId : Option (List Byte) := none
  hostname : Option String := none
  freeRamBytes : UInt64 := 0
  freeVramBytes : UInt64 := 0
  heartbeatTs : UInt64 := 0
  memoryPort : UInt16 := 0
  gpuPort : UInt16 := 0
  listenAddress : Option String := none
  deriving DecidableEq, Repr

structure Announcer where
  localId : NodeId
  localHostname : String
  listenAddress : String
  memoryPort : UInt16
  gpuPort : UInt16
  freeRam : UInt64 := 0
  freeVram : UInt64 := 0
  isRunning : Bool := false
  poolJoined : Bool := true
  deriving DecidableEq, Repr

namespace Announcer

/-- `start`; the socket may fail to bind, and then nothing is ever announced. -/
def start (a : Announcer) (binds : Bool) : Announcer :=
  if a.isRunning then a
  else if binds then { a with isRunning := true }
  else a

def stop (a : Announcer) : Announcer :=
  if a.isRunning then { a with isRunning := false } else a

def updateMetrics (a : Announcer) (freeRam freeVram : UInt64) : Announcer :=
  { a with freeRam, freeVram }

def setPoolJoined (a : Announcer) (joined : Bool) : Announcer := { a with poolJoined := joined }

/-- `on_timer` reads the figures one after the other, and `pool_joined_` for each of them. -/
def announceRam (a : Announcer) : UInt64 := if a.poolJoined then a.freeRam else 0

def announceVram (a : Announcer) : UInt64 := if a.poolJoined then a.freeVram else 0

/-- The datagram that `on_timer` sends after it has read them. -/
def onTimer (a : Announcer) (announceRam announceVram heartbeatTs : UInt64) : Announcement where
  protocolVersion := protocolVersion
  nodeId := some a.localId.toList
  hostname := some a.localHostname
  freeRamBytes := announceRam
  freeVramBytes := announceVram
  heartbeatTs := heartbeatTs
  memoryPort := a.memoryPort
  gpuPort := a.gpuPort
  listenAddress := some a.listenAddress

def self (a : Announcer) : PeerInfo where
  id := a.localId
  hostname := a.localHostname
  address := a.listenAddress
  freeRamBytes := a.announceRam
  freeVramBytes := a.announceVram
  memoryPort := a.memoryPort
  gpuPort := a.gpuPort

end Announcer

namespace Listener

/-- The entry that `on_recv` makes of an announcement; none of another version of the protocol, or
without an id of sixteen bytes. -/
def peerInfo (ann : Announcement) : Option PeerInfo :=
  if ann.protocolVersion = protocolVersion then
    match ann.nodeId with
    | none => none
    | some bytes =>
      if h : bytes.length = 16 then
        some
          { id := ⟨bytes.toArray, by simpa using h⟩
            hostname := ann.hostname.getD ""
            address := ann.listenAddress.getD ""
            freeRamBytes := ann.freeRamBytes
            freeVramBytes := ann.freeVramBytes
            memoryPort := ann.memoryPort
            gpuPort := ann.gpuPort }
      else none
  else none

/-- `on_recv`. A datagram is absent if it is empty or the verifier refuses it. -/
def onRecv (t : PeerTable) (now : ℤ) (datagram : Option Announcement) : PeerTable :=
  match datagram.bind peerInfo with
  | none => t
  | some info => t.update now info

end Listener

theorem Listener.peerInfo_onTimer (a : Announcer) (ram vram heartbeatTs : UInt64) :
    Listener.peerInfo (a.onTimer ram vram heartbeatTs) =
      some { a.self with freeRamBytes := ram, freeVramBytes := vram } := by
  simp [Listener.peerInfo, Announcer.onTimer, Announcer.self, Vector.toList]

theorem Listener.capacity_peerInfo {ann : Announcement} {info : PeerInfo}
    (h : Listener.peerInfo ann = some info) :
    info.freeRamBytes = ann.freeRamBytes ∧ info.freeVramBytes = ann.freeVramBytes := by
  unfold Listener.peerInfo at h
  split_ifs at h
  split at h
  · cases h
  · split_ifs at h
    cases h
    exact ⟨rfl, rfl⟩

end MemInfo
