import MemInfo.Discoveryd.Announcements
import MemInfo.Discoveryd.ControlSocket
import MemInfo.Discoveryd.PoolProbe
import MemInfo.Lib.Broadcast
import MemInfo.Memoryd.Capacity

/-! # The discovery daemon

A station of the network runs memoryd and discoveryd. Three threads of discoveryd work on the same
state: the event loop with its timers and the listener, the pool probe, and the control socket. A
callback of the loop is not interrupted by another one, but the other threads take steps in
between.
-/

namespace MemInfo

open Lib

/-- The options of the configuration that the daemon reads, with their defaults. -/
structure DiscoveryConfig where
  listenAddress : String := "0.0.0.0"
  memoryPort : ℤ := 9200
  gpuPort : ℤ := 9300
  peerTtlSeconds : ℤ := 10
  memoryControlSocket : String := ""

/-- `to_port`: a value that is no port disables it. -/
def toPort (value : ℤ) : UInt16 := if value < 0 ∨ 65535 < value then 0 else .ofNat value.toNat

structure DiscoveryDaemon where
  announcer : Announcer
  peerTable : PeerTable
  poolProbe : PoolProbe
  localId : NodeId
  localHostname : String
  isRunning : Bool := false
  poolJoined : Bool := true
  freeRam : UInt64 := 0
  freeVram : UInt64 := 0

namespace DiscoveryDaemon

variable (d : DiscoveryDaemon)

def new (config : DiscoveryConfig) (localId : NodeId) (localHostname : String) :
    DiscoveryDaemon where
  announcer :=
    { localId, localHostname, listenAddress := config.listenAddress
      memoryPort := toPort config.memoryPort, gpuPort := toPort config.gpuPort }
  peerTable := PeerTable.setTtlSeconds {} config.peerTtlSeconds
  poolProbe := { socketName := config.memoryControlSocket }
  localId := localId
  localHostname := localHostname

def updateAnnouncerState : DiscoveryDaemon :=
  { d with announcer := d.announcer.setPoolJoined d.poolJoined }

/-- `run` up to the event loop, with the answer to the first poll. No other thread of the daemon
has been started before it. -/
def start (binds : Bool) (stats : Option ControlResponse) : DiscoveryDaemon :=
  let d := { d with announcer := d.announcer.start binds }.updateAnnouncerState
  let probe := (d.poolProbe.pollOnce stats).2.foldl PoolProbe.store d.poolProbe
  { d with poolProbe := probe.start, isRunning := true }

/-- The end of the tick: the figure is kept and handed to the announcer. There is no figure for
video memory. -/
def publish (freeRam : UInt64) : DiscoveryDaemon :=
  { d with freeRam, freeVram := 0, announcer := d.announcer.updateMetrics freeRam 0 }

/-- The callback of `stop_async_`. -/
def stop : DiscoveryDaemon := { d with announcer := d.announcer.stop, isRunning := false }

def localStatus : LocalStatus where
  localId := d.localId
  localHostname := d.localHostname
  freeRam := d.freeRam
  freeVram := d.freeVram
  poolJoined := d.poolJoined
  peerCount := .ofNat d.peerTable.activeCount

end DiscoveryDaemon

/-- Where the event loop is: in no callback, in the callback of the tick timer, or in that of the
announcer. -/
inductive LoopPc where
  | starting
  | idle
  /-- The table has been looked through. -/
  | ticked
  /-- `available()` was true. -/
  | loading
  /-- `available()` was false. -/
  | measuring
  | publishing (freeRam : UInt64)
  /-- `on_timer` has read what it will announce. -/
  | sampling (announceRam : UInt64)
  | announcing (announceRam announceVram : UInt64)
  | stopped
  deriving DecidableEq, Repr

/-- The free memory that `on_timer` has read and not yet sent. -/
def LoopPc.sampled : LoopPc → Option UInt64
  | .sampling announceRam => some announceRam
  | .announcing announceRam _ => some announceRam
  | _ => none

inductive ControlPc where
  | idle
  /-- `pool_joined_` has been changed, and the announcer does not know. -/
  | updating (req : ControlRequest)
  | responding (req : ControlRequest) (peers : List PeerListing)
  deriving DecidableEq, Repr

structure Station where
  totalReservedBytes : ℕ := 1024 * 1024 * 256
  pageSizeBytes : ℕ := 4096
  /-- memoryd, if it runs. -/
  memoryd : Option PageTracker := none
  daemon : DiscoveryDaemon
  loop : LoopPc := .starting
  /-- What the probe still has to store. -/
  stores : List ProbeStore := []
  control : ControlPc := .idle
  /-- What the control socket has answered. -/
  responses : List DiscoveryResponse := []

inductive StationEvent where
  | startMemoryd (garbage : ℕ → Byte)
  | stopMemoryd
  | serve (ev : Event)
  /-- discoveryd starts; the first poll may be answered. -/
  | start (binds answered : Bool)
  | poll (answered : Bool)
  | store (next : ProbeStore)
  | tick (ord : IterOrder NodeId) (now : ℤ)
  | loadAvailable
  | loadFree
  /-- `get_stats`, if there is a monitor. -/
  | measure (free : Option UInt64)
  | publish (freeRam : UInt64)
  /-- The timer of the announcer fires. -/
  | sampleRam
  | sampleVram (announceRam : UInt64)
  | announce (announceRam announceVram heartbeatTs : UInt64)
  | stop
  /-- The control socket takes a request. -/
  | request (req : ControlRequest) (now : ℤ)
  | update (req : ControlRequest)
  | respond (req : ControlRequest) (peers : List PeerListing)

namespace Station

variable (s : Station)

def stats (answered : Bool) : Option ControlResponse :=
  if answered then s.memoryd.bind fun t => t.memoryStats 0 else none

/-- Carries out a command up to `update_announcer_state`. -/
def perform (req : ControlRequest) (now : ℤ) : Station :=
  match req.command with
  | .listPeers =>
    let peers := s.daemon.peerTable.getPeers.map (ControlSocket.listing now)
    { s with control := .responding req peers }
  | .joinPool =>
    if s.daemon.poolJoined then { s with control := .responding req [] }
    else { s with daemon := { s.daemon with poolJoined := true }, control := .updating req }
  | .leavePool =>
    if s.daemon.poolJoined then
      { s with daemon := { s.daemon with poolJoined := false }, control := .updating req }
    else { s with control := .responding req [] }
  | _ => { s with control := .responding req [] }

def newSlab (garbage : ℕ → Byte) : Except Err SlabAllocator :=
  SlabAllocator.create (fun n => if n ≤ ptrdiffMax then some garbage else none)
    s.totalReservedBytes s.pageSizeBytes

def enabled : StationEvent → Bool
  | .startMemoryd garbage => s.memoryd.isNone ∧ (s.newSlab garbage).toOption.isSome
  | .stopMemoryd => true
  | .serve _ => s.memoryd.isSome
  | .start _ _ => s.loop = .starting
  | .poll _ => s.daemon.poolProbe.running ∧ s.stores = []
  | .store next => s.stores.head? = some next
  | .tick _ _ => s.loop = .idle
  | .loadAvailable => s.loop = .ticked
  | .loadFree => s.loop = .loading
  | .measure _ => s.loop = .measuring
  | .publish freeRam => s.loop = .publishing freeRam
  | .sampleRam => s.loop = .idle ∧ s.daemon.announcer.isRunning
  | .sampleVram announceRam => s.loop = .sampling announceRam
  | .announce announceRam announceVram _ => s.loop = .announcing announceRam announceVram
  | .stop => s.loop = .idle
  | .request _ _ => s.control = .idle ∧ s.loop ≠ .starting
  | .update req => s.control = .updating req
  | .respond req peers => s.control = .responding req peers

def effect : StationEvent → Station
  | .startMemoryd garbage => { s with memoryd := (s.newSlab garbage).toOption.map .new }
  | .stopMemoryd => { s with memoryd := none }
  | .serve ev => { s with memoryd := s.memoryd.map fun t => (t.serve ev).2 }
  | .start binds answered =>
    { s with daemon := s.daemon.start binds (s.stats answered), loop := .idle }
  | .poll answered => { s with stores := (s.daemon.poolProbe.pollOnce (s.stats answered)).2 }
  | .store next =>
    { s with
      daemon := { s.daemon with poolProbe := s.daemon.poolProbe.store next }
      stores := s.stores.tail }
  | .tick ord now =>
    { s with
      daemon := { s.daemon with peerTable := s.daemon.peerTable.tick ord now }
      loop := .ticked }
  | .loadAvailable =>
    { s with loop := if s.daemon.poolProbe.available then .loading else .measuring }
  | .loadFree => { s with loop := .publishing s.daemon.poolProbe.freeBytes }
  | .measure free => { s with loop := .publishing (free.getD 0) }
  | .publish freeRam => { s with daemon := s.daemon.publish freeRam, loop := .idle }
  | .sampleRam => { s with loop := .sampling s.daemon.announcer.announceRam }
  | .sampleVram announceRam =>
    { s with loop := .announcing announceRam s.daemon.announcer.announceVram }
  | .announce _ _ _ => { s with loop := .idle }
  | .stop => { s with daemon := s.daemon.stop, loop := .stopped }
  | .request req now => s.perform req now
  | .update req =>
    { s with daemon := s.daemon.updateAnnouncerState, control := .responding req [] }
  | .respond req peers =>
    let resp := ControlSocket.response (some s.daemon.localStatus) req peers
    { s with control := .idle, responses := s.responses ++ [resp] }

def sends : StationEvent → List Announcement
  | .announce announceRam announceVram heartbeatTs =>
    [s.daemon.announcer.onTimer announceRam announceVram heartbeatTs]
  | _ => []

/-- A step of one of the threads, with the announcement it sends. -/
def act (e : StationEvent) : Option (Station × List Announcement) :=
  if s.enabled e then some (s.effect e, s.sends e) else none

def receive (now : ℤ) (ann : Announcement) : Option Station :=
  if s.loop = .idle then
    let table := Listener.onRecv s.daemon.peerTable now (some ann)
    some { s with daemon := { s.daemon with peerTable := table } }
  else none

variable {s} {s' : Station} {e : StationEvent} {ms : List Announcement}

theorem act_eq_some :
    s.act e = some (s', ms) ↔ s.enabled e = true ∧ s.effect e = s' ∧ s.sends e = ms := by
  simp only [act, Option.ite_none_right_eq_some, Option.some.injEq, Prod.mk.injEq]

def Obeys (s : Station) (req : ControlRequest) : Prop :=
  (req.command = .joinPool → s.daemon.poolJoined = true) ∧
    (req.command = .leavePool → s.daemon.poolJoined = false)

/-- A command changes whether the station is in the pool, or nothing but the thread's place. -/
theorem perform_cases (s : Station) (req : ControlRequest) (now : ℤ) :
    (∃ peers, s.perform req now = { s with control := .responding req peers } ∧ s.Obeys req) ∨
      (req.command = .joinPool ∧ s.perform req now =
        { s with daemon := { s.daemon with poolJoined := true }, control := .updating req }) ∨
      (req.command = .leavePool ∧ s.perform req now =
        { s with daemon := { s.daemon with poolJoined := false }, control := .updating req }) := by
  unfold perform
  split
  case h_1 hcmd => exact Or.inl ⟨_, rfl, by simp [hcmd], by simp [hcmd]⟩
  case h_2 hcmd =>
    split_ifs with hjoined
    · exact Or.inl ⟨_, rfl, fun _ => hjoined, by simp [hcmd]⟩
    · exact Or.inr (Or.inl ⟨hcmd, rfl⟩)
  case h_3 hcmd =>
    split_ifs with hjoined
    · exact Or.inr (Or.inr ⟨hcmd, rfl⟩)
    · exact Or.inl ⟨_, rfl, by simp [hcmd], fun _ => by simpa using hjoined⟩
  case h_4 hlist hjoin hleave =>
    exact Or.inl ⟨_, rfl, fun h => absurd h hjoin, fun h => absurd h hleave⟩

/-- Only a tick works on the table. -/
theorem peerTable_effect (s : Station) (e : StationEvent) :
    (s.effect e).daemon.peerTable = s.daemon.peerTable ∨ ∃ ord now, e = .tick ord now ∧
      (s.effect e).daemon.peerTable = s.daemon.peerTable.tick ord now := by
  cases e with
  | tick ord now => exact Or.inr ⟨ord, now, rfl, rfl⟩
  | request req now =>
    left
    obtain ⟨peers, heq, -⟩ | ⟨-, heq⟩ | ⟨-, heq⟩ := perform_cases s req now <;> rw [effect, heq]
  | _ => exact Or.inl rfl

theorem sends_cases (s : Station) (e : StationEvent) :
    s.sends e = [] ∨ ∃ ram vram ts, e = .announce ram vram ts ∧
      s.sends e = [s.daemon.announcer.onTimer ram vram ts] := by
  cases e with
  | announce ram vram ts => exact Or.inr ⟨ram, vram, ts, rfl, rfl⟩
  | _ => exact Or.inl rfl

/-- What a station announces of itself apart from its capacity. -/
def label (s : Station) : PeerInfo :=
  { s.daemon.announcer.self with freeRamBytes := 0, freeVramBytes := 0 }

theorem self_announcer (s : Station) : s.daemon.announcer.self =
    { s.label with
      freeRamBytes := s.daemon.announcer.announceRam
      freeVramBytes := s.daemon.announcer.announceVram } := rfl

theorem label_effect (s : Station) (e : StationEvent) : (s.effect e).label = s.label := by
  cases e with
  | start binds answered =>
    dsimp only [effect, DiscoveryDaemon.start, DiscoveryDaemon.updateAnnouncerState,
      Announcer.setPoolJoined, Announcer.start]
    split_ifs <;> rfl
  | stop =>
    dsimp only [effect, DiscoveryDaemon.stop, Announcer.stop]
    split_ifs <;> rfl
  | request req now =>
    obtain ⟨peers, heq, -⟩ | ⟨-, heq⟩ | ⟨-, heq⟩ := perform_cases s req now
    all_goals
      rw [effect, heq]
      rfl
  | _ => rfl

theorem sampled_effect (henabled : s.enabled e = true) :
    e = .sampleRam ∧ (s.effect e).loop.sampled = some s.daemon.announcer.announceRam ∨
      e ≠ .sampleRam ∧
        ∀ ram, (s.effect e).loop.sampled = some ram → s.loop.sampled = some ram := by
  cases e with
  | sampleRam => exact Or.inl ⟨rfl, rfl⟩
  | sampleVram ram =>
    refine Or.inr ⟨by simp, ?_⟩
    rintro _ ⟨⟩
    rw [of_decide_eq_true henabled]
    rfl
  | loadAvailable =>
    refine Or.inr ⟨by simp, fun ram h => ?_⟩
    rw [effect] at h
    split_ifs at h
    all_goals cases h
  | request req now =>
    refine Or.inr ⟨by simp, fun ram h => ?_⟩
    obtain ⟨peers, heq, -⟩ | ⟨-, heq⟩ | ⟨-, heq⟩ := perform_cases s req now
    all_goals
      rw [effect, heq] at h
      exact h
  | _ => exact Or.inr ⟨by simp, by simp [effect, LoopPc.sampled]⟩

theorem receive_eq_some {now : ℤ} {ann : Announcement} (h : s.receive now ann = some s') :
    s.loop = .idle ∧ s' = { s with
      daemon := { s.daemon with
        peerTable := Listener.onRecv s.daemon.peerTable now (some ann) } } := by
  obtain ⟨hpc, heq⟩ := Option.ite_none_right_eq_some.1 h
  exact ⟨hpc, (Option.some.inj heq).symm⟩

variable (s) in
structure Fresh : Prop where
  memoryd : s.memoryd = none
  daemon : ∃ config localId localHostname, s.daemon = .new config localId localHostname
  loop : s.loop = .starting
  stores : s.stores = []
  control : s.control = .idle
  responses : s.responses = []

end Station

theorem figures_stop (d : DiscoveryDaemon) : d.stop.announcer.freeRam = d.announcer.freeRam ∧
    d.stop.announcer.freeVram = d.announcer.freeVram := by
  dsimp only [DiscoveryDaemon.stop, Announcer.stop]
  split_ifs <;> exact ⟨rfl, rfl⟩

theorem figures_start (d : DiscoveryDaemon) (binds : Bool) (stats : Option ControlResponse) :
    (d.start binds stats).announcer.freeRam = d.announcer.freeRam ∧
      (d.start binds stats).announcer.freeVram = d.announcer.freeVram ∧
      (d.start binds stats).poolProbe.freeBytes =
        ((d.poolProbe.pollOnce stats).2.foldl PoolProbe.store d.poolProbe).freeBytes ∧
      (d.start binds stats).poolProbe.available =
        ((d.poolProbe.pollOnce stats).2.foldl PoolProbe.store d.poolProbe).available := by
  dsimp only [DiscoveryDaemon.start, DiscoveryDaemon.updateAnnouncerState,
    Announcer.setPoolJoined, Announcer.start, PoolProbe.start]
  refine ⟨?_, ?_, ?_, ?_⟩
  all_goals split_ifs <;> rfl

def discovery : Broadcast Station StationEvent ℤ Announcement where
  act := Station.act
  receive := Station.receive

abbrev DiscoveryEvent := Broadcast.Event ℕ StationEvent ℤ Announcement

abbrev Lan := Broadcast.World ℕ Station Announcement

end MemInfo
