import MemInfo.Discoveryd.Cluster

/-! # Silence and the tables

Stations whose clocks run at the same pace, on a network that delays what it does not lose by no
more than a bound. After a tick a table shows a station that has just been heard as active, and
does not show one that fell silent more than three times the ttl ago.
-/

namespace MemInfo

open Lib Broadcast

def reading : DiscoveryEvent → Option ℤ
  | .act _ (.tick _ now) => some now
  | .deliver _ _ now => some now
  | .inject _ _ now => some now
  | _ => none

/-- The events have times, which never go back and are what the code reads. -/
structure Clocked (es : List (ℤ × DiscoveryEvent)) : Prop where
  monotone : (es.map Prod.fst).Pairwise (· ≤ ·)
  readings : ∀ p ∈ es, ∀ now, reading p.2 = some now → now = p.1

def sender : DiscoveryEvent → Option ℕ
  | .act j (.announce _ _ _) => some j
  | _ => none

def dispatches (es : List (ℤ × DiscoveryEvent)) : List (ℤ × ℕ) :=
  es.filterMap fun p => (sender p.2).map fun j => (p.1, j)

/-- What reaches the station was sent no longer ago than this. -/
def Prompt (delay : ℤ) (i : ℕ) (es : List (ℤ × DiscoveryEvent)) : Prop :=
  ∀ u k now s j, (u, .deliver i k now) ∈ es → (dispatches es)[k]? = some (s, j) → u ≤ s + delay

section Sending

variable {stations : ℕ → Station} {w : Lan} {ts : List (ℤ × DiscoveryEvent)}

theorem senders_run {es : List DiscoveryEvent} (hrun : discovery.run stations es = some w) :
    w.sent.map Prod.fst = es.filterMap sender := by
  refine foldlM_history (I := fun es w => w.sent.map Prod.fst = es.filterMap sender) rfl ?_ hrun
  intro es u e v _ hu hstep
  rw [List.filterMap_append]
  obtain ⟨j, ev, s, ms, rfl, hact, rfl⟩ | ⟨j, now, ann, s, harrival, -, rfl⟩ := step_cases hstep
  · obtain ⟨-, -, rfl⟩ := Station.act_eq_some.1 hact
    rw [List.map_append, hu]
    congr 1
    cases ev <;> rfl
  · rw [hu]
    cases e with
    | act j' ev => cases harrival
    | _ => exact (List.append_nil _).symm

theorem dispatched {k j : ℕ} {ann : Announcement}
    (hrun : discovery.run stations (ts.map Prod.snd) = some w) (hk : w.sent[k]? = some (j, ann)) :
    ∃ s ram vram heartbeat, (dispatches ts)[k]? = some (s, j) ∧
      (s, .act j (.announce ram vram heartbeat)) ∈ ts := by
  have hsenders : (dispatches ts).map Prod.snd = w.sent.map Prod.fst := by
    rw [senders_run hrun, dispatches, List.map_filterMap, List.filterMap_map]
    congr 1
    funext p
    cases h : sender p.2 <;> simp [h]
  have hj : ((dispatches ts).map Prod.snd)[k]? = some j := by
    rw [hsenders, List.getElem?_map, hk]
    rfl
  rw [List.getElem?_map] at hj
  obtain ⟨⟨s, j'⟩, hs, rfl⟩ := Option.map_eq_some_iff.1 hj
  obtain ⟨⟨s', e⟩, hmem, heq⟩ := List.mem_filterMap.1 (List.mem_of_getElem? hs)
  obtain ⟨j'', hsender, heq⟩ := Option.map_eq_some_iff.1 heq
  cases heq
  cases e with
  | act j₀ ev =>
    cases ev with
    | announce ram vram heartbeat =>
      cases hsender
      exact ⟨_, ram, vram, heartbeat, hs, hmem⟩
    | _ => cases hsender
  | _ => cases hsender

end Sending

section Detection

variable {stations : ℕ → Station} {w : Lan} {es : List DiscoveryEvent}
  {ts : List (ℤ × DiscoveryEvent)} {i : ℕ} {now : ℤ} {ord : IterOrder NodeId} {id : NodeId}
  {peer : PeerInfo}

theorem ttlSeconds_run (hrun : discovery.run stations es = some w) (i : ℕ) :
    (w.nodes i).daemon.peerTable.ttlSeconds = (stations i).daemon.peerTable.ttlSeconds := by
  refine nodes_invariant
    (I := fun i s => s.daemon.peerTable.ttlSeconds = (stations i).daemon.peerTable.ttlSeconds)
    ?_ ?_ (fun _ => rfl) hrun i
  · intro i s ev s' ms hs hact
    obtain ⟨-, rfl, -⟩ := Station.act_eq_some.1 hact
    obtain heq | ⟨ord, now, -, heq⟩ := s.peerTable_effect ev
    · rw [heq, hs]
    · rw [heq, PeerTable.tick, (PeerTable.foldl_visit _ _ _).1, hs]
  · intro i s now ann s' hs hrec
    rw [(Station.receive_eq_some hrec).2, ← hs]
    cases hinfo : Listener.peerInfo ann <;> simp [Listener.onRecv, hinfo, PeerTable.update]

theorem evictionSeconds_eq {t : PeerTable} (hpos : 0 < t.ttlSeconds)
    (hint : 3 * t.ttlSeconds < 2 ^ 31) : t.evictionSeconds = 3 * t.ttlSeconds := by
  rw [PeerTable.evictionSeconds, Int.mul_comm, Int.bmod_eq_of_le] <;> omega

theorem aged_of_recent {t : PeerTable} (hpos : 0 < t.ttlSeconds) (hint : 3 * t.ttlSeconds < 2 ^ 31)
    (hle : peer.lastSeen ≤ now) (hrecent : floorSeconds (now - peer.lastSeen) ≤ t.ttlSeconds) :
    t.aged now peer = some { peer with state := .active } := by
  rw [PeerTable.aged, elapsedSeconds_eq hle, evictionSeconds_eq hpos hint, if_neg (by omega),
    if_neg (by omega)]

theorem Clocked.left {ts' : List (ℤ × DiscoveryEvent)} (h : Clocked (ts ++ ts')) : Clocked ts :=
  ⟨h.monotone.sublist ((List.sublist_append_left _ _).map _),
    fun p hp => h.readings p (List.mem_append_left _ hp)⟩

theorem Clocked.le_last {p : ℤ × DiscoveryEvent} (h : Clocked (ts ++ [p])) :
    ∀ q ∈ ts, q.1 ≤ p.1 := by
  intro q hq
  have hmono := h.monotone
  rw [List.map_append, List.pairwise_append] at hmono
  exact hmono.2.2 q.1 (List.mem_map_of_mem hq) p.1 (by simp)

theorem reading_of_arrival {e : DiscoveryEvent} {sent : List (ℕ × Announcement)}
    {ann : Announcement} (h : e.arrival sent = some (i, now, ann)) : reading e = some now := by
  cases e with
  | act j ev => cases h
  | deliver j k now' =>
    obtain ⟨m, -, heq⟩ := Option.map_eq_some_iff.1 h
    cases heq
    rfl
  | inject j ann' now' =>
    cases h
    rfl

theorem recent_held (hpos : 0 < (stations i).daemon.peerTable.ttlSeconds)
    (hint : 3 * (stations i).daemon.peerTable.ttlSeconds < 2 ^ 31) (hclock : Clocked ts)
    (hrun : discovery.run stations (ts.map Prod.snd) = some w) {p : ℤ × DiscoveryEvent}
    (hp : p ∈ ts) (hears : Hears w.sent i id p.2) (hnow : ∀ q ∈ ts, q.1 ≤ now)
    (hrecent : floorSeconds (now - p.1) ≤ (stations i).daemon.peerTable.ttlSeconds) :
    ∃ peer, (w.nodes i).daemon.peerTable.peers.lookup id = some peer ∧ p.1 ≤ peer.lastSeen ∧
      peer.lastSeen ≤ now := by
  induction ts using List.reverseRecOn generalizing w now with
  | nil => cases hp
  | append_singleton ts q ih =>
    rw [List.map_append, List.map_singleton] at hrun
    obtain ⟨v, hv, hstep⟩ := foldlM_concat_eq_some.1 hrun
    have hsent : v.sent <+: w.sent := sent_step hstep
    have hq : q.1 ≤ now := hnow q (by simp)
    have hpq : p.1 ≤ q.1 := by
      obtain hin | hin := List.mem_append.1 hp
      · exact hclock.le_last p hin
      · rw [List.mem_singleton.1 hin]
    obtain ⟨now', ann, info, harrival, -, -, hl⟩ | ⟨hnot, hl⟩ := lookup_step hstep i id
    · have hread : now' = q.1 :=
        hclock.readings q (by simp) now' (reading_of_arrival harrival)
      exact ⟨_, hl, by simpa [hread] using hpq, by simpa [hread] using hq⟩
    · have hin : p ∈ ts := by
        refine (List.mem_append.1 hp).resolve_right fun hin => hnot ?_
        rw [List.mem_singleton.1 hin] at hears
        rwa [Hears, ← arrival_of_step hstep hsent]
      have hears' : Hears v.sent i id p.2 := by
        rwa [Hears, ← arrival_of_run hv (List.mem_map_of_mem hin) hsent]
      have hfloor := floorSeconds_mono (s := q.1 - p.1) (t := now - p.1) (by omega)
      obtain ⟨peer, hpeer, hle, hge⟩ :=
        ih hclock.left hv hin hears' hclock.le_last (hfloor.trans hrecent)
      obtain hsame | ⟨ord, now', he, hage⟩ := hl
      · exact ⟨peer, hsame.trans hpeer, hle, hge.trans hq⟩
      · -- the tick finds the entry recent enough
        have hread : now' = q.1 := hclock.readings q (by simp) now' (by rw [he]; rfl)
        have httl := ttlSeconds_run hv i
        have hfloor' := floorSeconds_mono (s := q.1 - peer.lastSeen) (t := q.1 - p.1) (by omega)
        rw [hage, hpeer, Option.bind_some, hread,
          aged_of_recent (by omega) (by omega) hge (by omega)]
        exact ⟨_, rfl, hle, hge.trans hq⟩

theorem step_tick {v : Lan} (h : discovery.step v (.act i (.tick ord now)) = some w) :
    w.sent = v.sent ∧ ∀ id, (w.nodes i).daemon.peerTable.peers.lookup id =
      ((v.nodes i).daemon.peerTable.peers.lookup id).bind
        ((v.nodes i).daemon.peerTable.aged now) := by
  obtain ⟨s, ms, hact, rfl⟩ := step_act_eq_some.1 h
  obtain ⟨-, rfl, rfl⟩ := Station.act_eq_some.1 hact
  simp [Station.sends, Station.effect, PeerTable.lookup_tick]

/-- What the table says of a node came from a station with that id, at most a delay after it was
sent. -/
theorem heard_promptly {delay last : ℤ} (hfresh : ∀ i, (stations i).Fresh) (hclock : Clocked ts)
    (hrun : discovery.run stations (ts.map Prod.snd) = some w)
    (hforged : Unforged i id (ts.map Prod.snd)) (hprompt : Prompt delay i ts)
    (hlast : ∀ s j ram vram heartbeat, (s, .act j (.announce ram vram heartbeat)) ∈ ts →
      (stations j).daemon.localId = id → s ≤ last)
    (hl : (w.nodes i).daemon.peerTable.peers.lookup id = some peer) :
    (∃ e, (peer.lastSeen, e) ∈ ts) ∧ peer.lastSeen ≤ last + delay := by
  obtain ⟨before, e, after, info, heq, hheard⟩ := lastHeard_run hfresh hrun hl
  have he : e ∈ ts.map Prod.snd := by simp [heq]
  obtain ⟨k, j, ann, rfl, hk, -, hid⟩ := hheard.delivered hfresh hrun he hforged
  obtain ⟨⟨u, e⟩, hin, rfl⟩ := List.mem_map.1 he
  obtain rfl : peer.lastSeen = u := hclock.readings _ hin _ rfl
  obtain ⟨s, ram, vram, heartbeat, hs, hsent⟩ := dispatched hrun hk
  have hbefore : s ≤ last := hlast s j ram vram heartbeat hsent hid
  have hdelay : peer.lastSeen ≤ s + delay := hprompt _ k _ s j hin hs
  exact ⟨⟨_, hin⟩, by omega⟩

/-- After a tick the table shows a station as active that was heard within the ttl. It does not show
one whose last announcement is longer ago than three times the ttl and the delay of the network. -/
theorem silence_is_detected (hfresh : ∀ i, (stations i).Fresh)
    (hclock : Clocked (ts ++ [(now, .act i (.tick ord now))]))
    (hrun : discovery.run stations (ts.map Prod.snd ++ [.act i (.tick ord now)]) = some w)
    (hpos : 0 < (stations i).daemon.peerTable.ttlSeconds)
    (hint : 3 * (stations i).daemon.peerTable.ttlSeconds < 2 ^ 31) (j : ℕ) :
    let ttl := (stations i).daemon.peerTable.ttlSeconds
    let shown := (w.nodes i).daemon.peerTable.getPeer (stations j).daemon.localId
    (∀ u k ann, (u, .deliver i k u) ∈ ts → w.sent[k]? = some (j, ann) →
        floorSeconds (now - u) ≤ ttl → ∃ peer, shown = .ok peer ∧ peer.state = .active) ∧
      ∀ last delay, Unforged i (stations j).daemon.localId (ts.map Prod.snd) →
        (∀ s j' ram vram heartbeat, (s, .act j' (.announce ram vram heartbeat)) ∈ ts →
          (stations j').daemon.localId = (stations j).daemon.localId → s ≤ last) →
        Prompt delay i ts → 3 * ttl < floorSeconds (now - (last + delay)) →
        shown = .error (.outOfRange "Peer not found") := by
  intro ttl shown
  obtain ⟨v, hv, htick⟩ := foldlM_concat_eq_some.1 hrun
  have hclock' : Clocked ts := hclock.left
  have httl : (v.nodes i).daemon.peerTable.ttlSeconds = ttl := ttlSeconds_run hv i
  have hnow : ∀ q ∈ ts, q.1 ≤ now := hclock.le_last
  obtain ⟨hsent, hl⟩ := step_tick htick
  constructor
  · intro u k ann hin hk hle
    rw [hsent] at hk
    obtain ⟨peer, hpeer, hge, hseen⟩ :=
      recent_held hpos hint hclock' hv hin (hears_deliver hfresh hv hk) hnow hle
    have hfloor := floorSeconds_mono (s := now - peer.lastSeen) (t := now - u) (by omega)
    refine ⟨{ peer with state := .active }, PeerTable.getPeer_eq_ok.2 ?_, rfl⟩
    rw [hl, hpeer, Option.bind_some, aged_of_recent (by omega) (by omega) hseen (by omega)]
  · intro last delay hforged hlast hprompt hlong
    change PeerTable.getPeer _ _ = _
    unfold PeerTable.getPeer
    split
    · rfl
    case h_2 peer hpeer =>
      rw [hl] at hpeer
      obtain ⟨peer₀, hl₀, hage⟩ := Option.bind_eq_some_iff.1 hpeer
      obtain ⟨⟨e, hseen⟩, hheard⟩ := heard_promptly hfresh hclock' hv hforged hprompt hlast hl₀
      have hle : peer₀.lastSeen ≤ now := hnow _ hseen
      have hkept := (PeerTable.aged_eq_some hage).1
      have hfloor := floorSeconds_mono (s := now - (last + delay)) (t := now - peer₀.lastSeen)
        (by omega)
      rw [elapsedSeconds_eq hle, evictionSeconds_eq (by omega) (by omega)] at hkept
      omega

/-- The second station hears the first one second after it was sent. -/
def timedGreeting : List (ℤ × DiscoveryEvent) :=
  [(0, .act 0 (.start true false)), (0, .act 1 (.start true false)),
    (3000000000, .act 0 .sampleRam), (3000000000, .act 0 (.sampleVram 0)),
    (4000000000, .act 0 (.announce 0 0 7)), (5000000000, .deliver 1 0 5000000000)]

theorem clocked_timedGreeting {now : ℤ} (h : 5000000000 ≤ now) (ord : IterOrder NodeId) :
    Clocked (timedGreeting ++ [(now, .act 1 (.tick ord now))]) := by
  constructor
  · rw [List.map_append, List.pairwise_append]
    have hmax : ∀ t ∈ timedGreeting.map Prod.fst, t ≤ 5000000000 := by decide
    refine ⟨by decide, List.pairwise_singleton _ _, fun t ht t' ht' => ?_⟩
    rw [List.mem_singleton.1 ht']
    exact (hmax t ht).trans h
  · simp [timedGreeting, reading]

/-- Six seconds later the first station is active, and after a minute it is gone. -/
theorem silence_is_detected_greeting :
    (∃ w peer, discovery.run numbered
        (timedGreeting.map Prod.snd ++ [.act 1 (.tick (.id _) 11000000000)]) = some w ∧
      (w.nodes 1).daemon.peerTable.getPeer (numbered 0).daemon.localId = .ok peer ∧
      peer.state = .active) ∧
    ∃ w, discovery.run numbered
        (timedGreeting.map Prod.snd ++ [.act 1 (.tick (.id _) 60000000000)]) = some w ∧
      (w.nodes 1).daemon.peerTable.getPeer (numbered 0).daemon.localId =
        .error (.outOfRange "Peer not found") := by
  have hearly : (discovery.run numbered
      (timedGreeting.map Prod.snd ++ [.act 1 (.tick (.id _) 11000000000)])).any
        (fun w => w.sent[0]?.map Prod.fst = some 0) = true := by
    decide +kernel
  have hlate : (discovery.run numbered
      (timedGreeting.map Prod.snd ++ [.act 1 (.tick (.id _) 60000000000)])).isSome = true := by
    decide +kernel
  obtain ⟨w, hw, hfrom⟩ := (Option.any_eq_true _ _).1 hearly
  obtain ⟨⟨j, ann⟩, hann, rfl⟩ := Option.map_eq_some_iff.1 (of_decide_eq_true hfrom)
  obtain ⟨w', hw'⟩ := Option.isSome_iff_exists.1 hlate
  have hactive := (silence_is_detected fresh_numbered (clocked_timedGreeting (by decide) (.id _)) hw
    (by decide) (by decide) 0).1 5000000000 0 ann (by simp [timedGreeting]) hann (by decide)
  have hgone := (silence_is_detected fresh_numbered (clocked_timedGreeting (by decide) (.id _)) hw'
    (by decide) (by decide) 0).2 4000000000 1000000000 ?_ ?_ ?_ (by decide)
  · obtain ⟨peer, hpeer, hstate⟩ := hactive
    exact ⟨⟨w, peer, hw, hpeer, hstate⟩, w', hw', hgone⟩
  · simp [Unforged, timedGreeting]
  · intro s j' ram vram heartbeat hin _
    obtain ⟨rfl, -⟩ : s = 4000000000 ∧ j' = 0 ∧ ram = 0 ∧ vram = 0 ∧ heartbeat = 7 := by
      simpa [timedGreeting] using hin
    exact le_rfl
  · intro u k now s j hin hs
    obtain ⟨rfl, rfl, -⟩ : u = 5000000000 ∧ k = 0 ∧ now = 5000000000 := by
      simpa [timedGreeting] using hin
    cases hs
    decide

end Detection

end MemInfo
