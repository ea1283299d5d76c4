import Mathlib.Data.Set.Card
import MemInfo.Common.Types
import MemInfo.Lib.Dict

/-! # The table of peers

`PeerTable` of the discovery daemon. A peer is entered when it announces itself. Later ticks find
it stale when it has been silent for longer than the ttl, and evict it after three times as long.
After every tick the table is what the history of announcements says, whatever earlier ticks have
evicted.
-/

namespace MemInfo

open Lib

/-- `node_id_t`. -/
abbrev NodeId := Vector Byte 16

inductive PeerState where
  | active
  | stale
  | evicted
  deriving DecidableEq, Repr

structure PeerInfo where
  id : NodeId := Vector.replicate 16 0
  hostname : String := ""
  address : String := ""
  freeRamBytes : UInt64 := 0
  freeVramBytes : UInt64 := 0
  memoryPort : UInt16 := 0
  gpuPort : UInt16 := 0
  /-- A reading of the steady clock, in nanoseconds. -/
  lastSeen : ℤ := 0
  state : PeerState := .active
  deriving DecidableEq, Repr

structure PeerTable where
  peers : Dict NodeId PeerInfo := ∅
  ttlSeconds : ℤ := 10

/-- `duration_cast<seconds>`, which rounds towards zero. -/
def elapsedSeconds (now lastSeen : ℤ) : ℤ := (now - lastSeen).tdiv 1000000000

namespace PeerTable

variable (t : PeerTable)

/-- `ttl_seconds_ * 3`, a product of type `int`. -/
def evictionSeconds : ℤ := (t.ttlSeconds * 3).bmod (2 ^ 32)

def update (now : ℤ) (info : PeerInfo) : PeerTable :=
  { t with peers := t.peers.insert info.id { info with lastSeen := now, state := .active } }

/-- One round of the loop of `tick`. -/
def visit (now : ℤ) (t : PeerTable) (id : NodeId) : PeerTable :=
  match t.peers.lookup id with
  | none => t
  | some peer =>
    let elapsed := elapsedSeconds now peer.lastSeen
    if elapsed > t.evictionSeconds then { t with peers := t.peers.erase id }
    else if elapsed > t.ttlSeconds then
      { t with peers := t.peers.insert id { peer with state := .stale } }
    else { t with peers := t.peers.insert id { peer with state := .active } }

def tick (ord : IterOrder NodeId) (now : ℤ) : PeerTable :=
  (ord.order t.peers.keys).foldl (visit now) t

def getPeers : List PeerInfo := t.peers.entries.map fun e => e.2

def getPeer (id : NodeId) : Except Err PeerInfo :=
  match t.peers.lookup id with
  | none => .error (.outOfRange "Peer not found")
  | some peer => .ok peer

def removePeer (id : NodeId) : PeerTable := { t with peers := t.peers.erase id }

def activeCount : ℕ := t.peers.entries.countP fun e => e.2.state = .active

def setTtlSeconds (ttl : ℤ) : PeerTable := { t with ttlSeconds := ttl }

end PeerTable

inductive PeerEvent where
  | update (info : PeerInfo)
  | removePeer (id : NodeId)
  | tick (ord : IterOrder NodeId)

def PeerEvent.concerns (id : NodeId) : PeerEvent → Bool
  | .update info => info.id = id
  | .removePeer id' => id' = id
  | .tick _ => false

abbrev PeerHistory := List (ℤ × PeerEvent)

def PeerHistory.mostRecent (h : PeerHistory) (id : NodeId) : Option (ℤ × PeerEvent) :=
  (h.filter fun e => e.2.concerns id).getLast?

def PeerHistory.Monotone (h : PeerHistory) : Prop := (h.map Prod.fst).Pairwise (· ≤ ·)

namespace PeerTable

def step (t : PeerTable) : ℤ × PeerEvent → PeerTable
  | (now, .update info) => t.update now info
  | (_, .removePeer id) => t.removePeer id
  | (now, .tick ord) => t.tick ord now

def run (ttl : ℤ) (h : PeerHistory) : PeerTable := h.foldl step (setTtlSeconds {} ttl)

end PeerTable

def floorSeconds (time : ℤ) : ℤ := time / 1000000000

theorem floorSeconds_mono {s t : ℤ} (h : s ≤ t) : floorSeconds s ≤ floorSeconds t :=
  Int.ediv_le_ediv (by decide) h

theorem elapsedSeconds_eq {now lastSeen : ℤ} (h : lastSeen ≤ now) :
    elapsedSeconds now lastSeen = floorSeconds (now - lastSeen) :=
  Int.tdiv_eq_ediv_of_nonneg (Int.sub_nonneg_of_le h)

theorem PeerHistory.mostRecent_concat (h : PeerHistory) (e : ℤ × PeerEvent) (id : NodeId) :
    mostRecent (h ++ [e]) id = if e.2.concerns id then some e else h.mostRecent id := by
  unfold mostRecent
  rw [List.filter_append]
  split_ifs with he
  · simp [he]
  · simp [he]

namespace PeerTable

variable {t : PeerTable} {id : NodeId} {peer : PeerInfo} {now ttl : ℤ}

def aged (t : PeerTable) (now : ℤ) (peer : PeerInfo) : Option PeerInfo :=
  if t.evictionSeconds < elapsedSeconds now peer.lastSeen then none
  else some { peer with
    state := if t.ttlSeconds < elapsedSeconds now peer.lastSeen then .stale else .active }

theorem bind_aged_aged : (t.aged now peer).bind (t.aged now) = t.aged now peer := by
  unfold aged
  by_cases h : t.evictionSeconds < elapsedSeconds now peer.lastSeen
  · simp [h]
  · simp [h]

theorem getPeer_eq_ok : t.getPeer id = .ok peer ↔ t.peers.lookup id = some peer := by
  unfold getPeer
  cases t.peers.lookup id with
  | none => simp
  | some p => simp

theorem visit_spec (t : PeerTable) (now : ℤ) (id : NodeId) :
    (t.visit now id).ttlSeconds = t.ttlSeconds ∧
      ∀ k, (t.visit now id).peers.lookup k =
        if k = id then (t.peers.lookup k).bind (t.aged now) else t.peers.lookup k := by
  have hlookup (k : NodeId) :
      (if k = id then (t.peers.lookup k).bind (t.aged now) else t.peers.lookup k) =
        if k = id then (t.peers.lookup id).bind (t.aged now) else t.peers.lookup k := by
    split_ifs with hk
    · rw [hk]
    · rfl
  simp only [hlookup]
  unfold visit
  cases hl : t.peers.lookup id with
  | none =>
    refine ⟨rfl, fun k => ?_⟩
    split_ifs with hk
    · rw [hk, hl]
      rfl
    · rfl
  | some peer =>
    rw [Option.bind_some]
    unfold aged
    dsimp only
    split_ifs with hevict hstale
    · exact ⟨rfl, fun k => Dict.lookup_erase_iff ..⟩
    · exact ⟨rfl, fun k => Dict.lookup_insert_iff ..⟩
    · exact ⟨rfl, fun k => Dict.lookup_insert_iff ..⟩

theorem aged_congr {t' : PeerTable} (h : t'.ttlSeconds = t.ttlSeconds) :
    t'.aged now = t.aged now := by
  unfold aged evictionSeconds
  rw [h]

theorem foldl_visit (t : PeerTable) (now : ℤ) (ids : List NodeId) :
    (ids.foldl (visit now) t).ttlSeconds = t.ttlSeconds ∧
      ∀ k, (ids.foldl (visit now) t).peers.lookup k =
        if k ∈ ids then (t.peers.lookup k).bind (t.aged now) else t.peers.lookup k := by
  induction ids generalizing t with
  | nil => exact ⟨rfl, fun k => by simp⟩
  | cons id ids ih =>
    obtain ⟨httl, hlookup⟩ := t.visit_spec now id
    obtain ⟨httl', hlookup'⟩ := ih (t.visit now id)
    refine ⟨httl'.trans httl, fun k => ?_⟩
    rw [List.foldl_cons, hlookup', hlookup, aged_congr httl]
    by_cases hk : k = id
    · simp only [hk, if_true, List.mem_cons, true_or, Option.bind_assoc, bind_aged_aged, ite_self]
    · simp only [hk, if_false, List.mem_cons, false_or]

/-- A tick looks at every peer, in whatever order. -/
theorem lookup_tick (t : PeerTable) (ord : IterOrder NodeId) (now : ℤ) (k : NodeId) :
    (t.tick ord now).peers.lookup k = (t.peers.lookup k).bind (t.aged now) := by
  rw [tick, (t.foldl_visit now _).2]
  split_ifs with hk
  · rfl
  · rw [ord.mem_iff, ← AList.mem_keys, ← AList.lookup_eq_none] at hk
    rw [hk]
    rfl

theorem ttlSeconds_step (t : PeerTable) (e : ℤ × PeerEvent) :
    (t.step e).ttlSeconds = t.ttlSeconds := by
  obtain ⟨now, event⟩ := e
  cases event with
  | update info => rfl
  | removePeer id => rfl
  | tick ord => exact (t.foldl_visit now _).1

theorem run_concat (ttl : ℤ) (h : PeerHistory) (e : ℤ × PeerEvent) :
    run ttl (h ++ [e]) = (run ttl h).step e := List.foldl_concat ..

theorem ttlSeconds_run (ttl : ℤ) (h : PeerHistory) : (run ttl h).ttlSeconds = ttl := by
  induction h using List.reverseRecOn with
  | nil => rfl
  | append_singleton h e ih => rw [run_concat, ttlSeconds_step, ih]

/-- The table knows the last announcement of the peers it holds. A peer that it does not hold
although its last event was an announcement has been silent for too long. -/
structure Tracks (h : PeerHistory) (now : ℤ) (t : PeerTable) : Prop where
  held : ∀ id peer, t.peers.lookup id = some peer → ∃ u info, u ≤ now ∧
    h.mostRecent id = some (u, .update info) ∧
      peer = { info with lastSeen := u, state := peer.state }
  missing : ∀ id u info, h.mostRecent id = some (u, .update info) → t.peers.lookup id = none →
    t.evictionSeconds < floorSeconds (now - u)

variable {h : PeerHistory}

theorem Tracks.later {now' : ℤ} (ht : Tracks h now t) (hle : now ≤ now') : Tracks h now' t := by
  constructor
  · intro id peer hl
    obtain ⟨u, info, hu, hm, hp⟩ := ht.held id peer hl
    exact ⟨u, info, hu.trans hle, hm, hp⟩
  · intro id u info hm hl
    exact (ht.missing id u info hm hl).trans_le (floorSeconds_mono (by omega))

theorem Tracks.update (ht : Tracks h now t) (info : PeerInfo) :
    Tracks (h ++ [(now, .update info)]) now (t.update now info) := by
  constructor
  · intro id peer hl
    rw [PeerTable.update, Dict.lookup_insert_iff] at hl
    rw [PeerHistory.mostRecent_concat]
    split_ifs at hl with hid
    · obtain rfl := Option.some.inj hl
      exact ⟨now, info, le_rfl, if_pos (by simp [PeerEvent.concerns, hid]), rfl⟩
    · rw [if_neg (by simpa [PeerEvent.concerns] using Ne.symm hid)]
      exact ht.held id peer hl
  · intro id u info' hm hl
    rw [PeerTable.update, Dict.lookup_insert_iff] at hl
    rw [PeerHistory.mostRecent_concat] at hm
    split_ifs at hl with hid
    rw [if_neg (by simpa [PeerEvent.concerns] using Ne.symm hid)] at hm
    exact ht.missing id u info' hm hl

theorem Tracks.removePeer (ht : Tracks h now t) (id' : NodeId) :
    Tracks (h ++ [(now, .removePeer id')]) now (t.removePeer id') := by
  constructor
  · intro id peer hl
    rw [PeerTable.removePeer, Dict.lookup_erase_iff] at hl
    rw [PeerHistory.mostRecent_concat]
    split_ifs at hl with hid
    rw [if_neg (by simpa [PeerEvent.concerns] using Ne.symm hid)]
    exact ht.held id peer hl
  · intro id u info hm hl
    rw [PeerTable.removePeer, Dict.lookup_erase_iff] at hl
    rw [PeerHistory.mostRecent_concat] at hm
    by_cases hid : id = id'
    · rw [if_pos (by simp [PeerEvent.concerns, hid])] at hm
      simp at hm
    · rw [if_neg (by simpa [PeerEvent.concerns] using Ne.symm hid)] at hm
      rw [if_neg hid] at hl
      exact ht.missing id u info hm hl

theorem Tracks.lookup_tick_iff (ht : Tracks h now t) (ord : IterOrder NodeId) :
    (t.tick ord now).peers.lookup id = some peer ↔
      ∃ u info, u ≤ now ∧ h.mostRecent id = some (u, .update info) ∧
        floorSeconds (now - u) ≤ t.evictionSeconds ∧
        peer = { info with
          lastSeen := u
          state := if t.ttlSeconds < floorSeconds (now - u) then .stale else .active } := by
  rw [lookup_tick]
  constructor
  · intro hl
    obtain ⟨p, hp, hage⟩ := Option.bind_eq_some_iff.mp hl
    obtain ⟨u, info, hu, hm, heq⟩ := ht.held id p hp
    have hseen : p.lastSeen = u := by rw [heq]
    unfold aged at hage
    rw [hseen, elapsedSeconds_eq hu] at hage
    split_ifs at hage with hout
    all_goals
      obtain rfl := Option.some.inj hage
      refine ⟨u, info, hu, hm, Int.not_lt.mp hout, ?_⟩
      rw [heq]
      simp [*]
  · rintro ⟨u, info, hu, hm, hin, rfl⟩
    cases hp : t.peers.lookup id with
    | none =>
      have := ht.missing id u info hm hp
      omega
    | some p =>
      obtain ⟨u', info', -, hm', heq⟩ := ht.held id p hp
      obtain ⟨rfl, hinfo⟩ := Prod.mk.inj (Option.some.inj (hm.symm.trans hm'))
      obtain rfl := PeerEvent.update.inj hinfo
      have hseen : p.lastSeen = u := by rw [heq]
      rw [Option.bind_some, aged, hseen, elapsedSeconds_eq hu, if_neg (Int.not_lt.mpr hin), heq]

theorem Tracks.tick (ht : Tracks h now t) (ord : IterOrder NodeId) :
    Tracks (h ++ [(now, .tick ord)]) now (t.tick ord now) := by
  have hrecent (id : NodeId) :
      PeerHistory.mostRecent (h ++ [(now, .tick ord)]) id = h.mostRecent id := by
    rw [PeerHistory.mostRecent_concat, if_neg (by simp [PeerEvent.concerns])]
  constructor
  · intro id peer hl
    obtain ⟨u, info, hu, hm, -, rfl⟩ := (ht.lookup_tick_iff ord).mp hl
    exact ⟨u, info, hu, (hrecent id).trans hm, rfl⟩
  · intro id u info hm hl
    rw [hrecent] at hm
    have httl : (t.tick ord now).evictionSeconds = t.evictionSeconds := by
      unfold evictionSeconds
      rw [PeerTable.tick, (t.foldl_visit now _).1]
    rw [httl]
    rw [lookup_tick] at hl
    cases hp : t.peers.lookup id with
    | none => exact ht.missing id u info hm hp
    | some p =>
      obtain ⟨u', info', hu', hm', heq⟩ := ht.held id p hp
      obtain ⟨rfl, -⟩ := Prod.mk.inj (Option.some.inj (hm.symm.trans hm'))
      have hseen : p.lastSeen = u := by rw [heq]
      rw [hp, Option.bind_some, aged, hseen, elapsedSeconds_eq hu'] at hl
      split_ifs at hl with hout
      exact hout

theorem Tracks.step (ht : Tracks h now t) (event : PeerEvent) :
    Tracks (h ++ [(now, event)]) now (t.step (now, event)) := by
  cases event with
  | update info => exact ht.update info
  | removePeer id => exact ht.removePeer id
  | tick ord => exact ht.tick ord

theorem tracks_run (hmono : h.Monotone) (hnow : ∀ e ∈ h, e.1 ≤ now) : Tracks h now (run ttl h) := by
  induction h using List.reverseRecOn generalizing now with
  | nil =>
    constructor
    · intro id peer hl
      simp [run, setTtlSeconds] at hl
    · intro id u info hm
      simp [PeerHistory.mostRecent] at hm
  | append_singleton h e ih =>
    obtain ⟨time, event⟩ := e
    rw [PeerHistory.Monotone, List.map_append, List.pairwise_append] at hmono
    have hbefore : ∀ e ∈ h, e.1 ≤ time := fun e he =>
      hmono.2.2 e.1 (List.mem_map_of_mem he) time (List.mem_singleton_self _)
    have hlast : time ≤ now := hnow (time, event) (by simp)
    rw [run_concat]
    exact ((ih hmono.1 hbefore).step event).later hlast

theorem activeCount_eq (t : PeerTable) :
    t.activeCount = Set.ncard {id | ∃ peer, t.getPeer id = .ok peer ∧ peer.state = .active} := by
  let active := t.peers.entries.filter fun e => e.2.state = .active
  have hnodup : (active.map Sigma.fst).Nodup :=
    (List.filter_sublist.map Sigma.fst).nodup t.peers.nodupKeys
  have hset : {id | ∃ peer, t.getPeer id = .ok peer ∧ peer.state = .active} =
      ((active.map Sigma.fst).toFinset : Set NodeId) := by
    ext id
    simp only [Set.mem_ofPred_eq, List.coe_toFinset, List.mem_map, getPeer_eq_ok]
    constructor
    · rintro ⟨peer, hl, hs⟩
      exact ⟨⟨id, peer⟩, List.mem_filter.mpr ⟨Dict.mem_entries_iff.mpr hl, by simpa using hs⟩, rfl⟩
    · rintro ⟨⟨k, peer⟩, hmem, rfl⟩
      obtain ⟨he, hs⟩ := List.mem_filter.mp hmem
      exact ⟨peer, Dict.mem_entries_iff.mp he, by simpa using hs⟩
  rw [hset, Set.ncard_coe_finset, List.toFinset_card_of_nodup hnodup, List.length_map, activeCount,
    List.countP_eq_length_filter]

/-- After a tick the table holds the peers whose last event was an announcement not more than
three times the ttl ago, as they were announced, and those silent for longer than the ttl are
stale. -/
theorem table_matches_history (hpos : 0 < ttl) (hint : 3 * ttl < 2 ^ 31) {ord : IterOrder NodeId}
    (hmono : PeerHistory.Monotone (h ++ [(now, .tick ord)])) :
    (∀ id peer, (run ttl (h ++ [(now, .tick ord)])).getPeer id = .ok peer ↔
      ∃ u info, h.mostRecent id = some (u, .update info) ∧ floorSeconds (now - u) ≤ 3 * ttl ∧
        peer = { info with
          lastSeen := u
          state := if ttl < floorSeconds (now - u) then .stale else .active }) ∧
      (run ttl (h ++ [(now, .tick ord)])).activeCount =
        Set.ncard {id | ∃ peer, (run ttl (h ++ [(now, .tick ord)])).getPeer id = .ok peer ∧
          peer.state = .active} := by
  rw [PeerHistory.Monotone, List.map_append, List.pairwise_append] at hmono
  have hbefore : ∀ e ∈ h, e.1 ≤ now := fun e he =>
    hmono.2.2 e.1 (List.mem_map_of_mem he) now (List.mem_singleton_self _)
  have htracks : Tracks h now (run ttl h) := tracks_run hmono.1 hbefore
  have httl := ttlSeconds_run ttl h
  have hevict : (run ttl h).evictionSeconds = 3 * ttl := by
    rw [evictionSeconds, httl, Int.mul_comm ttl, Int.bmod_eq_of_le] <;> omega
  refine ⟨fun id peer => ?_, activeCount_eq _⟩
  rw [run_concat, getPeer_eq_ok]
  change ((run ttl h).tick ord now).peers.lookup id = some peer ↔ _
  rw [htracks.lookup_tick_iff ord, httl, hevict]
  constructor
  · rintro ⟨u, info, -, hrest⟩
    exact ⟨u, info, hrest⟩
  · rintro ⟨u, info, hm, hrest⟩
    have hmem : (u, PeerEvent.update info) ∈ h := List.mem_of_mem_filter (List.mem_of_getLast? hm)
    exact ⟨u, info, hbefore _ hmem, hm, hrest⟩

def laptop : PeerInfo :=
  { id := Vector.replicate 16 1, hostname := "laptop", address := "10.0.0.1"
    freeRamBytes := 0x200000000, memoryPort := 9101 }

def desktop : PeerInfo :=
  { id := Vector.replicate 16 2, hostname := "desktop", address := "10.0.0.2"
    freeRamBytes := 0x400000000, freeVramBytes := 0x100000000, memoryPort := 9101, gpuPort := 9102 }

def server : PeerInfo :=
  { id := Vector.replicate 16 3, hostname := "server", address := "10.0.0.3"
    freeRamBytes := 0x1000000000, memoryPort := 9201 }

/-- Five seconds. The laptop falls silent, the desktop leaves and comes back with less memory, and
the server comes late. -/
def fiveSeconds : PeerHistory :=
  [(0, .update laptop), (1000000000, .update desktop), (2000000000, .tick (.id _)),
    (2500000000, .removePeer desktop.id),
    (3000000000, .update { desktop with freeRamBytes := 0x40000000 }),
    (4000000000, .update server)]

/-- With a ttl of one second, the laptop is gone, the desktop is stale and the server is active. -/
theorem silent_peer_is_stale :
    (∀ peer, (run 1 (fiveSeconds ++ [(5000000000, .tick (.id _))])).getPeer laptop.id ≠ .ok peer) ∧
    (run 1 (fiveSeconds ++ [(5000000000, .tick (.id _))])).getPeer desktop.id =
      .ok { desktop with freeRamBytes := 0x40000000, lastSeen := 3000000000, state := .stale } ∧
    (run 1 (fiveSeconds ++ [(5000000000, .tick (.id _))])).getPeer server.id =
      .ok { server with lastSeen := 4000000000 } ∧
    Set.ncard {id | ∃ peer, (run 1 (fiveSeconds ++ [(5000000000, .tick (.id _))])).getPeer id =
      .ok peer ∧ peer.state = .active} = 1 := by
  have hmono : PeerHistory.Monotone (fiveSeconds ++ [(5000000000, .tick (.id _))]) := by
    simp [PeerHistory.Monotone, fiveSeconds]
  obtain ⟨hpeers, hcount⟩ := table_matches_history Int.zero_lt_one (by decide) hmono
  refine ⟨fun peer hpeer => ?_, ?_, ?_, ?_⟩
  · obtain ⟨u, info, hlast, hrecent, -⟩ := (hpeers _ _).mp hpeer
    obtain rfl : u = 0 := (congrArg Prod.fst (Option.some.inj hlast)).symm
    exact absurd hrecent (by decide)
  · exact (hpeers _ _).mpr ⟨3000000000, _, rfl, by decide, rfl⟩
  · exact (hpeers _ _).mpr ⟨4000000000, _, rfl, by decide, rfl⟩
  · exact hcount.symm.trans (by decide)

end PeerTable

end MemInfo
