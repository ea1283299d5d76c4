import MemInfo.Discoveryd.DiscoveryDaemon

/-! # Where the entries of the tables come from

Any number of stations announce themselves over a network that loses, delays, reorders and
duplicates datagrams, and on which others may send, too. An entry of a table is the last datagram
about its node that has reached the station, and a datagram of a station says how that station
described itself when it read what to announce.
-/

namespace MemInfo

open Lib Broadcast

def Hears (sent : List (ℕ × Announcement)) (i : ℕ) (id : NodeId) (e : DiscoveryEvent) : Prop :=
  ∃ now ann info, e.arrival sent = some (i, now, ann) ∧ Listener.peerInfo ann = some info ∧
    info.id = id

/-- The entry was made when this event brought a datagram to the station, and no datagram about its
node has reached the station after it. -/
structure LastHeard (sent : List (ℕ × Announcement)) (i : ℕ) (id : NodeId) (peer info : PeerInfo)
    (e : DiscoveryEvent) (after : List DiscoveryEvent) : Prop where
  arrived : ∃ ann, e.arrival sent = some (i, peer.lastSeen, ann) ∧
    Listener.peerInfo ann = some info
  entry : peer = { info with lastSeen := peer.lastSeen, state := peer.state }
  node : info.id = id
  last : ∀ e' ∈ after, ¬ Hears sent i id e'

/-- The station sends an announcement in the run, and describes itself like this when it reads what
to announce. -/
def Announced (stations : ℕ → Station) (es : List DiscoveryEvent) (j : ℕ) (info : PeerInfo) :
    Prop :=
  ∃ before between u ram vram ts,
    before ++ .act j .sampleRam :: between ++ [.act j (.announce ram vram ts)] <+: es ∧
      .act j .sampleRam ∉ between ∧ discovery.run stations before = some u ∧
      info = (u.nodes j).daemon.announcer.self

def Unforged (i : ℕ) (id : NodeId) (es : List DiscoveryEvent) : Prop :=
  ∀ ann now info, .inject i ann now ∈ es → Listener.peerInfo ann = some info → info.id ≠ id

namespace PeerTable

variable {t : PeerTable} {id : NodeId} {peer : PeerInfo} {now : ℤ}

theorem aged_eq_some {p : PeerInfo} (h : t.aged now p = some peer) :
    elapsedSeconds now p.lastSeen ≤ t.evictionSeconds ∧ peer = { p with state := peer.state } := by
  obtain ⟨hle, heq⟩ := Option.ite_none_left_eq_some.1 h
  cases heq
  exact ⟨Int.not_lt.1 hle, rfl⟩

end PeerTable

section Entries

variable {stations : ℕ → Station} {es : List DiscoveryEvent} {u v w : Lan} {e : DiscoveryEvent}
  {i j k : ℕ} {now : ℤ} {id : NodeId} {ann : Announcement} {peer info : PeerInfo}
  {before after : List DiscoveryEvent}

theorem lookup_step (hstep : discovery.step u e = some v) (i : ℕ) (id : NodeId) :
    (∃ now ann info, e.arrival u.sent = some (i, now, ann) ∧ Listener.peerInfo ann = some info ∧
        info.id = id ∧ (v.nodes i).daemon.peerTable.peers.lookup id =
          some { info with lastSeen := now, state := .active }) ∨
      ¬ Hears u.sent i id e ∧
        ((v.nodes i).daemon.peerTable.peers.lookup id =
            (u.nodes i).daemon.peerTable.peers.lookup id ∨
          ∃ ord now, e = .act i (.tick ord now) ∧
            (v.nodes i).daemon.peerTable.peers.lookup id =
              ((u.nodes i).daemon.peerTable.peers.lookup id).bind
                ((u.nodes i).daemon.peerTable.aged now)) := by
  obtain ⟨ev, ms, rfl, hact⟩ | ⟨now, ann, harrival, hrec⟩ | ⟨hsame, hnot⟩ := node_cases hstep i
  · refine Or.inr ⟨?_, ?_⟩
    · rintro ⟨now, ann, info, harrival, -⟩
      cases harrival
    · rw [← (Station.act_eq_some.1 hact).2.1]
      obtain heq | ⟨ord, now, rfl, heq⟩ := (u.nodes i).peerTable_effect ev
      · exact Or.inl (by rw [heq])
      · exact Or.inr ⟨ord, now, rfl, by rw [heq, PeerTable.lookup_tick]⟩
  · rw [(Station.receive_eq_some hrec).2]
    by_cases hears : Hears u.sent i id e
    · obtain ⟨now', ann', info, harrival', hinfo, rfl⟩ := hears
      cases harrival.symm.trans harrival'
      refine Or.inl ⟨now, ann, info, harrival, hinfo, rfl, ?_⟩
      simp [Listener.onRecv, hinfo, PeerTable.update]
    · refine Or.inr ⟨hears, Or.inl ?_⟩
      cases hinfo : Listener.peerInfo ann with
      | none => simp [Listener.onRecv, hinfo]
      | some info =>
        have hne : info.id ≠ id := fun hid => hears ⟨now, ann, info, harrival, hinfo, hid⟩
        simp [Listener.onRecv, hinfo, PeerTable.update, AList.lookup_insert_ne hne.symm]
  · refine Or.inr ⟨?_, Or.inl (by rw [hsame])⟩
    rintro ⟨now, ann, info, harrival, -⟩
    exact hnot.1 now ann harrival

theorem entry_step (hstep : discovery.step u e = some v)
    (h : (v.nodes i).daemon.peerTable.peers.lookup id = some peer) :
    (∃ now ann info, e.arrival u.sent = some (i, now, ann) ∧ Listener.peerInfo ann = some info ∧
        info.id = id ∧ peer = { info with lastSeen := now, state := .active }) ∨
      ¬ Hears u.sent i id e ∧ ∃ peer₀, (u.nodes i).daemon.peerTable.peers.lookup id = some peer₀ ∧
        peer = { peer₀ with state := peer.state } := by
  obtain ⟨now, ann, info, harrival, hinfo, hid, hl⟩ | ⟨hnot, hl | ⟨ord, now, -, hl⟩⟩ :=
    lookup_step hstep i id
  · exact Or.inl ⟨now, ann, info, harrival, hinfo, hid, Option.some.inj (h.symm.trans hl)⟩
  · exact Or.inr ⟨hnot, peer, hl.symm.trans h, rfl⟩
  · obtain ⟨peer₀, hl₀, hage⟩ := Option.bind_eq_some_iff.1 (hl.symm.trans h)
    exact Or.inr ⟨hnot, peer₀, hl₀, (PeerTable.aged_eq_some hage).2⟩

/-- Every entry is the last that was heard of its node. -/
theorem lastHeard_run (hfresh : ∀ i, (stations i).Fresh) (hrun : discovery.run stations es = some w)
    (h : (w.nodes i).daemon.peerTable.peers.lookup id = some peer) :
    ∃ before e after info, es = before ++ e :: after ∧
      LastHeard w.sent i id peer info e after := by
  refine foldlM_history (I := fun es w => ∀ i id peer,
    (w.nodes i).daemon.peerTable.peers.lookup id = some peer → ∃ before e after info,
      es = before ++ e :: after ∧ LastHeard w.sent i id peer info e after) ?_ ?_ hrun i id peer h
  · intro i id peer h
    obtain ⟨config, localId, hostname, hnew⟩ := (hfresh i).daemon
    rw [hnew] at h
    simp [DiscoveryDaemon.new, PeerTable.setTtlSeconds] at h
  · intro es u e v hu ih hstep i id peer h
    have hsent : u.sent <+: v.sent := sent_step hstep
    obtain ⟨now, ann, info, harrival, hinfo, hid, hpeer⟩ | ⟨hnot, peer₀, hl, hpeer⟩ :=
      entry_step hstep h
    · have hseen : peer.lastSeen = now := by rw [hpeer]
      refine ⟨es, e, [], info, rfl, ⟨ann, ?_, hinfo⟩, ?_, hid, by simp⟩
      · rw [arrival_of_step hstep hsent, harrival, hseen]
      · rw [hpeer]
    · obtain ⟨before, e₀, after, info, rfl, ⟨ann, harrival, hinfo⟩, hentry, hid, hlast⟩ :=
        ih i id peer₀ hl
      have hseen : peer.lastSeen = peer₀.lastSeen := by rw [hpeer]
      refine ⟨before, e₀, after ++ [e], info, by simp, ⟨ann, ?_, hinfo⟩, ?_, hid, ?_⟩
      · rw [arrival_of_run hu (by simp) hsent, harrival, hseen]
      · rw [hpeer, hentry]
      · intro e' he'
        unfold Hears
        obtain he' | he' := List.mem_append.1 he'
        · rw [arrival_of_run hu (by simp [he']) hsent]
          exact hlast e' he'
        · rw [List.mem_singleton.1 he', arrival_of_step hstep hsent]
          exact hnot

theorem Station.Fresh.announcer_localId {s : Station} (h : s.Fresh) :
    s.daemon.announcer.localId = s.daemon.localId := by
  obtain ⟨config, localId, hostname, hnew⟩ := h.daemon
  rw [hnew]
  rfl

theorem Announced.mono {es' : List DiscoveryEvent} {info : PeerInfo}
    (h : Announced stations es j info) (hpre : es <+: es') : Announced stations es' j info := by
  obtain ⟨before, between, u, ram, vram, ts, hes, hrest⟩ := h
  exact ⟨before, between, u, ram, vram, ts, hes.trans hpre, hrest⟩

theorem label_run (hrun : discovery.run stations es = some w) (j : ℕ) :
    (w.nodes j).label = (stations j).label := by
  refine nodes_invariant (I := fun j s => s.label = (stations j).label) ?_ ?_ (fun _ => rfl) hrun j
  · intro j s ev s' ms hs hact
    rw [← (Station.act_eq_some.1 hact).2.1, s.label_effect, hs]
  · intro j s now ann s' hs hrec
    rw [(Station.receive_eq_some hrec).2]
    exact hs

/-- Where the free memory that a station is about to announce was read. -/
def Sampled (stations : ℕ → Station) (es : List DiscoveryEvent) (j : ℕ) (ram : UInt64) : Prop :=
  ∃ before between u, es = before ++ .act j .sampleRam :: between ∧
    .act j .sampleRam ∉ between ∧ discovery.run stations before = some u ∧
    ram = (u.nodes j).daemon.announcer.announceRam

theorem Sampled.concat {ram : UInt64} (h : Sampled stations es j ram)
    (he : e ≠ .act j .sampleRam) : Sampled stations (es ++ [e]) j ram := by
  obtain ⟨before, between, u, rfl, hnot, hrest⟩ := h
  refine ⟨before, between ++ [e], u, by simp, ?_, hrest⟩
  simp [hnot, he.symm]

theorem sampled_run {ram : UInt64} (hfresh : ∀ i, (stations i).Fresh)
    (hrun : discovery.run stations es = some w) (h : (w.nodes j).loop.sampled = some ram) :
    Sampled stations es j ram := by
  refine foldlM_history (I := fun es w => ∀ j ram, (w.nodes j).loop.sampled = some ram →
    Sampled stations es j ram) ?_ ?_ hrun j ram h
  · intro j ram h
    rw [(hfresh j).loop] at h
    cases h
  · intro es u e v hu ih hstep j ram h
    obtain ⟨ev, ms, rfl, hact⟩ | ⟨now, ann, -, hrec⟩ | ⟨hsame, -, hother⟩ := node_cases hstep j
    · obtain ⟨henabled, heq, -⟩ := Station.act_eq_some.1 hact
      rw [← heq] at h
      obtain ⟨rfl, hram⟩ | ⟨hne, hold⟩ := Station.sampled_effect henabled
      · exact ⟨es, [], u, rfl, by simp, hu, Option.some.inj (h.symm.trans hram)⟩
      · exact (ih j ram (hold ram h)).concat (by simpa using hne)
    · obtain ⟨hidle, heq⟩ := Station.receive_eq_some hrec
      rw [heq, hidle] at h
      cases h
    · rw [hsame] at h
      exact (ih j ram h).concat (hother _)

/-- discoveryd has no figure for video memory. -/
structure Station.NoVram (s : Station) : Prop where
  announcer : s.daemon.announcer.freeVram = 0
  announcing : ∀ ram vram, s.loop = .announcing ram vram → vram = 0

theorem Station.NoVram.announceVram {s : Station} (h : s.NoVram) :
    s.daemon.announcer.announceVram = 0 := by
  rw [Announcer.announceVram, h.announcer, ite_self]

theorem noVram_run (hfresh : ∀ i, (stations i).Fresh) (hrun : discovery.run stations es = some w)
    (j : ℕ) : (w.nodes j).NoVram := by
  refine nodes_invariant (I := fun _ s => s.NoVram) ?_ ?_ (fun j => ?_) hrun j
  · intro j s ev s' ms hs hact
    obtain ⟨-, rfl, -⟩ := Station.act_eq_some.1 hact
    cases ev with
    | start binds answered =>
      exact ⟨(figures_start ..).2.1.trans hs.announcer, by simp [Station.effect]⟩
    | stop => exact ⟨(figures_stop _).2.trans hs.announcer, by simp [Station.effect]⟩
    | sampleVram ram =>
      refine ⟨hs.announcer, ?_⟩
      rintro _ _ ⟨⟩
      exact hs.announceVram
    | request req now =>
      rw [Station.effect]
      obtain ⟨peers, heq, -⟩ | ⟨-, heq⟩ | ⟨-, heq⟩ := Station.perform_cases s req now
      all_goals
        rw [heq]
        exact { hs with }
    | loadAvailable =>
      refine ⟨hs.announcer, fun ram vram h => ?_⟩
      rw [Station.effect] at h
      split_ifs at h
    | tick ord now => exact ⟨hs.announcer, by simp [Station.effect]⟩
    | loadFree => exact ⟨hs.announcer, by simp [Station.effect]⟩
    | measure free => exact ⟨hs.announcer, by simp [Station.effect]⟩
    | publish freeRam => exact ⟨rfl, by simp [Station.effect]⟩
    | sampleRam => exact ⟨hs.announcer, by simp [Station.effect]⟩
    | announce ram vram ts => exact ⟨hs.announcer, by simp [Station.effect]⟩
    | _ => exact { hs with }
  · intro j s now ann s' hs hrec
    rw [(Station.receive_eq_some hrec).2]
    exact { hs with }
  · obtain ⟨config, localId, hostname, hnew⟩ := (hfresh j).daemon
    exact ⟨by rw [hnew]; rfl, by simp [(hfresh j).loop]⟩

theorem announced_of_sent (hfresh : ∀ i, (stations i).Fresh)
    (hrun : discovery.run stations es = some w) (hk : w.sent[k]? = some (j, ann)) :
    ∃ info, Listener.peerInfo ann = some info ∧ Announced stations es j info ∧
      info.id = (stations j).daemon.localId := by
  obtain ⟨before, u, ev, s, ms, hpre, hu, hact, hmem⟩ :=
    sent_origin hrun (List.mem_of_getElem? hk)
  rw [← (Station.act_eq_some.1 hact).2.2] at hmem
  obtain heq | ⟨ram, vram, ts, rfl, heq⟩ := (u.nodes j).sends_cases ev
  · simp [heq] at hmem
  rw [heq, List.mem_singleton] at hmem
  subst hmem
  have hloop : (u.nodes j).loop = .announcing ram vram :=
    of_decide_eq_true (Station.act_eq_some.1 hact).1
  have hsampled : (u.nodes j).loop.sampled = some ram := by
    rw [hloop]
    rfl
  obtain ⟨bef, between, u₀, rfl, hnot, hu₀, hram⟩ := sampled_run hfresh hu hsampled
  -- the description has not changed since the figures were read
  have hself : { (u.nodes j).label with freeRamBytes := ram, freeVramBytes := vram } =
      (u₀.nodes j).daemon.announcer.self := by
    rw [Station.self_announcer, label_run hu₀, label_run hu, hram,
      (noVram_run hfresh hu₀ j).announceVram, (noVram_run hfresh hu j).announcing _ _ hloop]
  refine ⟨_, Listener.peerInfo_onTimer _ ram vram ts, ?_, ?_⟩
  · exact ⟨bef, between, u₀, ram, vram, ts, hpre, hnot, hu₀, hself⟩
  · exact (congrArg PeerInfo.id (label_run hu j)).trans (hfresh j).announcer_localId

theorem hears_deliver (hfresh : ∀ i, (stations i).Fresh) (hrun : discovery.run stations es = some w)
    (hk : w.sent[k]? = some (j, ann)) :
    Hears w.sent i (stations j).daemon.localId (.deliver i k now) := by
  obtain ⟨info, hinfo, -, hid⟩ := announced_of_sent hfresh hrun hk
  exact ⟨now, ann, info, by simp [Event.arrival, hk], hinfo, hid⟩

/-- Without forgeries the datagram came over the network, from a station with that id. -/
theorem LastHeard.delivered (hheard : LastHeard w.sent i id peer info e after)
    (hfresh : ∀ i, (stations i).Fresh) (hrun : discovery.run stations es = some w) (he : e ∈ es)
    (hforged : Unforged i id es) : ∃ k j ann, e = .deliver i k peer.lastSeen ∧
      w.sent[k]? = some (j, ann) ∧ Listener.peerInfo ann = some info ∧
      (stations j).daemon.localId = id := by
  obtain ⟨ann, harrival, hinfo⟩ := hheard.arrived
  cases e with
  | act i' ev => cases harrival
  | inject i' ann' now =>
    cases harrival
    exact absurd hheard.node (hforged ann peer.lastSeen info he hinfo)
  | deliver i' k now =>
    obtain ⟨⟨j, ann'⟩, hk, heq⟩ := Option.map_eq_some_iff.1 harrival
    cases heq
    obtain ⟨info', hinfo', -, hid⟩ := announced_of_sent hfresh hrun hk
    cases hinfo.symm.trans hinfo'
    exact ⟨k, j, ann', rfl, hk, hinfo, hid.symm.trans hheard.node⟩

theorem LastHeard.announced (hfresh : ∀ i, (stations i).Fresh)
    (hrun : discovery.run stations (before ++ .deliver i k now :: after) = some w)
    (hheard : LastHeard w.sent i id peer info (.deliver i k now) after) :
    ∃ j, (stations j).daemon.localId = id ∧ Announced stations before j info := by
  obtain ⟨u, hu⟩ := foldlM_of_prefix (List.prefix_append before _) hrun
  rw [Broadcast.run, foldlM_append_of_some hu] at hrun
  obtain ⟨v, hstep, hafter⟩ := Option.bind_eq_some_iff.1 hrun
  obtain ⟨ann, harrival, hinfo⟩ := hheard.arrived
  rw [arrival_of_step hstep ((sent_step hstep).trans (sent_run hafter))] at harrival
  obtain ⟨⟨j, ann'⟩, hk, heq⟩ := Option.map_eq_some_iff.1 harrival
  cases heq
  obtain ⟨info', hinfo', hann, hid⟩ := announced_of_sent hfresh hu hk
  cases hinfo.symm.trans hinfo'
  exact ⟨j, hid.symm.trans hheard.node, hann⟩

/-- Every entry of a table was made by the last datagram about its node that has reached the
station. If the datagram is one of those sent on the network, the station with that id sent it
before, and the entry is how it described itself then. -/
theorem entries_announced (hfresh : ∀ i, (stations i).Fresh)
    (hrun : discovery.run stations es = some w)
    (h : (w.nodes i).daemon.peerTable.getPeer id = .ok peer) :
    ∃ before e after info, es = before ++ e :: after ∧
      LastHeard w.sent i id peer info e after ∧
      ∀ k now, e = .deliver i k now → ∃ j, (stations j).daemon.localId = id ∧
        Announced stations before j info := by
  obtain ⟨before, e, after, info, rfl, hheard⟩ :=
    lastHeard_run hfresh hrun (PeerTable.getPeer_eq_ok.1 h)
  refine ⟨before, e, after, info, rfl, hheard, ?_⟩
  rintro k now rfl
  exact hheard.announced hfresh hrun

def numbered (i : ℕ) : Station :=
  { daemon := .new {} (Vector.replicate 16 (if i = 0 then 0 else 1)) "node" }

theorem fresh_numbered (i : ℕ) : (numbered i).Fresh := ⟨rfl, ⟨_, _, _, rfl⟩, rfl, rfl, rfl, rfl⟩

def greeting : List DiscoveryEvent :=
  [.act 0 (.start true false), .act 1 (.start true false), .act 0 .sampleRam,
    .act 0 (.sampleVram 0), .act 0 (.announce 0 0 7), .deliver 1 0 5]

theorem entries_announced_greeting :
    ∃ w peer, discovery.run numbered greeting = some w ∧
      (w.nodes 1).daemon.peerTable.getPeer (Vector.replicate 16 0) = .ok peer ∧
      ∃ before e after info, greeting = before ++ e :: after ∧
        LastHeard w.sent 1 (Vector.replicate 16 0) peer info e after := by
  have hany : (discovery.run numbered greeting).any (fun w =>
      ((w.nodes 1).daemon.peerTable.peers.lookup (Vector.replicate 16 0)).isSome) = true := by
    decide +kernel
  obtain ⟨w, hrun, hsome⟩ := (Option.any_eq_true _ _).1 hany
  obtain ⟨peer, hl⟩ := Option.isSome_iff_exists.1 hsome
  have hpeer := PeerTable.getPeer_eq_ok.2 hl
  obtain ⟨before, e, after, info, heq, hheard, -⟩ := entries_announced fresh_numbered hrun hpeer
  exact ⟨w, peer, hrun, hpeer, before, e, after, info, heq, hheard⟩

end Entries

end MemInfo
