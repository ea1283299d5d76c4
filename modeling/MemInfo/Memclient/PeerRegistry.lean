import MemInfo.Memclient.Discovery

/-! # The registry of peers

Rounds of several threads may interleave as they like. No address is registered twice, a peer stays
where it is, and its capacity is the one that was written last. A peer that a round finds without a
connection is started by the thread of libuv, which cannot miss that it was queued. What holds in
every run of the network thus holds between the critical sections too: a peer is lost for good
exactly if a bad frame was read from it.
-/

namespace MemInfo

open Lib

namespace ClientPeers

variable {decode : List Byte → Option MemoryResponse} {s t u w : ClientPeers}
  {e : ClientPeersEvent} {events before after : List ClientPeersEvent} {i thread : ℕ}
  {p : KnownPeer} {ep : PeerEndpoint} {r : Round}

section Addresses

def addresses (s : ClientPeers) : List (String × ℕ) := s.peers.map KnownPeer.address

theorem addresses_modify (peers : List KnownPeer) (i : ℕ) (ep : PeerEndpoint) (now : ℤ) :
    (peers.modify i fun p => p.refresh ep now).map KnownPeer.address =
      peers.map KnownPeer.address := by
  apply List.ext_getElem?
  intro j
  rw [List.getElem?_map, List.getElem?_modify, List.getElem?_map]
  cases peers[j]? with
  | none => rfl
  | some p => by_cases hij : i = j <;> simp [hij, KnownPeer.refresh, KnownPeer.address]

theorem peers_step (h : s.step decode e = some t) :
    (∃ thread i ep r, e = .update thread i ep r ∧ s.rounds thread = .updating i ep r ∧
        t.peers = s.peers.modify i fun p => p.refresh ep r.now) ∨
      (∀ thread i ep r, e ≠ .update thread i ep r) ∧ (t.peers = s.peers ∨
        ∃ ip port, t.peers = s.peers ++ [.create ip port] ∧ (ip, port) ∉ s.addresses) := by
  obtain ⟨henabled, rfl⟩ := step_eq_some.1 h
  cases e with
  | direct ip port outcome =>
    refine Or.inr ⟨by simp, (s.ensurePeer_spec ip port).2.imp_right fun h => ?_⟩
    exact ⟨ip, port, h⟩
  | query thread answer now =>
    refine Or.inr ⟨by simp, Or.inl ?_⟩
    dsimp only [effect]
    split <;> rfl
  | ensure thread ep r =>
    refine Or.inr ⟨by simp, (s.ensurePeer_spec ep.ip ep.port).2.imp_right fun h => ?_⟩
    exact ⟨ep.ip, ep.port, h⟩
  | update thread i ep r =>
    refine Or.inl ⟨thread, i, ep, r, rfl, of_decide_eq_true henabled, ?_⟩
    dsimp only [effect, updatePeer]
    split <;> rfl
  | _ => exact Or.inr ⟨by simp, Or.inl rfl⟩

theorem addresses_step (h : s.step decode e = some t) : t.addresses = s.addresses ∨
    ∃ a, t.addresses = s.addresses ++ [a] ∧ a ∉ s.addresses := by
  unfold addresses
  obtain ⟨thread, i, ep, r, -, -, heq⟩ | ⟨-, heq | ⟨ip, port, heq, hnew⟩⟩ := peers_step h
  · exact Or.inl (by rw [heq, addresses_modify])
  · exact Or.inl (by rw [heq])
  · exact Or.inr ⟨(ip, port), by simp [heq, KnownPeer.create, KnownPeer.address], hnew⟩

theorem addresses_prefix (hrun : events.foldlM (fun s e => s.step decode e) s = some t) :
    s.addresses <+: t.addresses := by
  refine foldlM_invariant (I := fun t => s.addresses <+: t.addresses) ?_ List.prefix_rfl hrun
  intro t e v hpre hstep
  obtain heq | ⟨a, heq, -⟩ := addresses_step hstep
  · exact heq ▸ hpre
  · exact heq ▸ hpre.trans (List.prefix_append _ _)

theorem nodup_addresses (hrun : run decode events = some w) : w.addresses.Nodup := by
  refine foldlM_invariant (I := fun s => s.addresses.Nodup) ?_ List.nodup_nil hrun
  intro s e t hnodup hstep
  obtain heq | ⟨a, heq, hnew⟩ := addresses_step hstep
  · exact heq ▸ hnodup
  · rw [heq]
    exact List.nodup_append_comm.1 (List.nodup_cons.2 ⟨hnew, hnodup⟩)

end Addresses

section Rounds

theorem rounds_step (hstep : s.step decode e = some t) (thread : ℕ) :
    t.rounds thread = s.rounds thread ∨
      (∃ answer now, e = .query thread answer now ∧ s.rounds thread = .idle ∧
        t.rounds thread = .ensuring ⟨queryDiscovery answer, now, false⟩) ∨
      (∃ i ep r, s.rounds thread = .ensuring { r with rest := ep :: r.rest } ∧
        t.rounds thread = .updating i ep r ∧ t.addresses[i]? = some (ep.ip, ep.port)) ∨
      (∃ i ep r queued, s.rounds thread = .updating i ep r ∧
        t.rounds thread = .ensuring { r with queued := queued } ∧
        (r.queued = true → queued = true)) ∨
      ∃ r, s.rounds thread = .ensuring r ∧ t.rounds thread = .idle ∧
        t.connectAsync = (s.connectAsync || r.queued) := by
  have hother {other : ℕ} (s : ClientPeers) (pc : RoundPc) (h : thread ≠ other) :
      (s.setRound other pc).rounds thread = s.rounds thread := Function.update_of_ne h ..
  have hself (s : ClientPeers) (pc : RoundPc) : (s.setRound thread pc).rounds thread = pc :=
    Function.update_self ..
  obtain ⟨henabled, rfl⟩ := step_eq_some.1 hstep
  cases e with
  | query other answer now =>
    dsimp only [effect]
    split
    · exact Or.inl rfl
    · by_cases h : thread = other
      · subst h
        exact Or.inr (Or.inl ⟨answer, now, rfl, (of_decide_eq_true henabled).1, hself ..⟩)
      · exact Or.inl (hother s _ h)
  | ensure other ep r =>
    by_cases h : thread = other
    · subst h
      refine Or.inr (Or.inr (Or.inl ⟨_, ep, r, of_decide_eq_true henabled, hself .., ?_⟩))
      exact (s.ensurePeer_spec ep.ip ep.port).1
    · exact Or.inl (hother _ _ h)
  | update other i ep r =>
    dsimp only [effect, updatePeer]
    by_cases h : thread = other
    · subst h
      have hpc := of_decide_eq_true henabled
      split
      · exact Or.inr (Or.inr (Or.inr (Or.inl ⟨i, ep, r, _, hpc, hself .., id⟩)))
      · exact Or.inr (Or.inr (Or.inr (Or.inl ⟨i, ep, r, _, hpc, hself .., fun _ => rfl⟩)))
    · split <;> exact Or.inl (hother _ _ h)
  | finish other r =>
    by_cases h : thread = other
    · subst h
      exact Or.inr (Or.inr (Or.inr (Or.inr ⟨r, (of_decide_eq_true henabled).1, hself .., rfl⟩)))
    · exact Or.inl (hother _ _ h)
  | _ => exact Or.inl rfl

theorem held_run (hrun : run decode events = some w) (hpc : w.rounds thread = .updating i ep r) :
    w.addresses[i]? = some (ep.ip, ep.port) := by
  refine foldlM_invariant (I := fun s => ∀ thread i ep r, s.rounds thread = .updating i ep r →
    s.addresses[i]? = some (ep.ip, ep.port)) ?_ ?_ hrun thread i ep r hpc
  · intro s e t hheld hstep thread i ep r hpc
    obtain hsame | ⟨_, _, -, -, h⟩ | ⟨j, ep', r', -, h, haddress⟩ | ⟨_, _, _, _, -, h, -⟩ |
        ⟨_, -, h, -⟩ := rounds_step hstep thread
    · have hi := hheld thread i ep r (hsame ▸ hpc)
      obtain heq | ⟨a, heq, -⟩ := addresses_step hstep
      · exact heq ▸ hi
      · rw [heq, List.getElem?_append_left (List.getElem?_eq_some_iff.1 hi).1]
        exact hi
    · cases h.symm.trans hpc
    · cases h.symm.trans hpc
      exact haddress
    · cases h.symm.trans hpc
    · cases h.symm.trans hpc
  · intro thread i ep r h
    cases h

/-- discoveryd has listed the endpoint in the answer to a round that began at this time. -/
def Listed (events : List ClientPeersEvent) (ep : PeerEndpoint) (now : ℤ) : Prop :=
  ∃ thread answer, .query thread answer now ∈ events ∧ ep ∈ queryDiscovery answer

def left : RoundPc → List (PeerEndpoint × ℤ)
  | .idle => []
  | .ensuring r => r.rest.map (·, r.now)
  | .updating _ ep r => (ep :: r.rest).map (·, r.now)

theorem listed_run (hrun : run decode events = some w) {x : PeerEndpoint × ℤ}
    (hleft : x ∈ left (w.rounds thread)) : Listed events x.1 x.2 := by
  refine foldlM_history (I := fun events w => ∀ thread x, x ∈ left (w.rounds thread) →
    Listed events x.1 x.2) ?_ ?_ hrun thread x hleft
  · intro thread x h
    cases h
  · intro events s e t _ ih hstep thread x hleft
    have hbefore (h : x ∈ left (s.rounds thread)) : Listed (events ++ [e]) x.1 x.2 := by
      obtain ⟨other, answer, hmem, hep⟩ := ih thread x h
      exact ⟨other, answer, List.mem_append_left _ hmem, hep⟩
    obtain hsame | ⟨answer, now, rfl, -, h⟩ | ⟨i, ep, r, hpc, h, -⟩ |
        ⟨i, ep, r, queued, hpc, h, -⟩ | ⟨r, -, h, -⟩ := rounds_step hstep thread
    · exact hbefore (hsame ▸ hleft)
    · rw [h] at hleft
      obtain ⟨ep, hep, rfl⟩ := List.mem_map.1 hleft
      exact ⟨thread, answer, by simp, hep⟩
    · rw [h] at hleft
      exact hbefore (hpc ▸ hleft)
    · rw [h] at hleft
      exact hbefore (hpc ▸ List.mem_cons_of_mem _ hleft)
    · rw [h] at hleft
      cases hleft

end Rounds

section Figures

/-- After these events a thread writes the figures of the endpoint to the peer. -/
def WritesAfter (events : List ClientPeersEvent) (i : ℕ) (ep : PeerEndpoint) (now : ℤ)
    (before : List ClientPeersEvent) : Prop :=
  ∃ thread r, before ++ [.update thread i ep r] <+: events ∧ r.now = now

/-- The figures of a peer are those that were written last, if any were. -/
structure LastWritten (events : List ClientPeersEvent) (i : ℕ) (p : KnownPeer) : Prop where
  unknown : p.capacityKnown = false → p = .create p.ip p.port ∧
    ∀ ep now before, ¬ WritesAfter events i ep now before
  known : p.capacityKnown = true → ∃ ep now before, WritesAfter events i ep now before ∧
    Listed before ep now ∧ p = (KnownPeer.create ep.ip ep.port).refresh ep now ∧
    ∀ ep' now' before', WritesAfter events i ep' now' before' → before'.length ≤ before.length

theorem writesAfter_concat {now : ℤ} (hnot : ∀ thread ep r, e ≠ .update thread i ep r) :
    WritesAfter (events ++ [e]) i ep now before ↔ WritesAfter events i ep now before := by
  constructor
  · rintro ⟨thread, r, hpre, hnow⟩
    obtain heq | hpre := List.prefix_concat_iff.1 hpre
    · exact absurd (List.append_inj' heq rfl).2 (by simpa [eq_comm] using hnot thread ep r)
    · exact ⟨thread, r, hpre, hnow⟩
  · rintro ⟨thread, r, hpre, hnow⟩
    exact ⟨thread, r, hpre.trans (List.prefix_append _ _), hnow⟩

theorem getElem?_addresses (s : ClientPeers) (i : ℕ) :
    s.addresses[i]? = s.peers[i]?.map KnownPeer.address := List.getElem?_map ..

theorem WritesAfter.ne_none {now : ℤ} (h : WritesAfter events i ep now before)
    (hrun : run decode events = some w) : w.peers[i]? ≠ none := by
  obtain ⟨thread, r, ⟨after, rfl⟩, -⟩ := h
  rw [List.append_assoc, run, List.foldlM_append] at hrun
  obtain ⟨u, hu, hrest⟩ := Option.bind_eq_some_iff.1 hrun
  have henabled := (step_eq_some.1 (Option.bind_eq_some_iff.1 hrest).choose_spec.1).1
  have hheld := held_run hu (of_decide_eq_true henabled)
  obtain ⟨more, hmore⟩ := addresses_prefix hrest
  intro hnone
  have hlt := (List.getElem?_eq_some_iff.1 hheld).1
  have haddress := getElem?_addresses w i
  rw [hnone, ← hmore, List.getElem?_append_left hlt, hheld] at haddress
  cases haddress

theorem refresh_eq {now : ℤ} (h : p.address = (ep.ip, ep.port)) :
    p.refresh ep now = (KnownPeer.create ep.ip ep.port).refresh ep now := by
  obtain ⟨hip, hport⟩ := Prod.ext_iff.1 h
  simp only [KnownPeer.address] at hip hport
  simp [KnownPeer.refresh, KnownPeer.create, hip, hport]

/-- A step writes to a peer, leaves it as it was, or creates it. -/
theorem getElem?_step (hstep : s.step decode e = some t) (hp : t.peers[i]? = some p) :
    (∃ thread ep r p₀, e = .update thread i ep r ∧ s.rounds thread = .updating i ep r ∧
        s.peers[i]? = some p₀ ∧ p = p₀.refresh ep r.now) ∨
      (∀ thread ep r, e ≠ .update thread i ep r) ∧
        (s.peers[i]? = some p ∨ s.peers[i]? = none ∧ p = .create p.ip p.port) := by
  obtain ⟨thread, j, ep, r, rfl, hpc, heq⟩ | ⟨hnot, heq | ⟨ip, port, heq, -⟩⟩ := peers_step hstep
  · rw [heq, List.getElem?_modify] at hp
    by_cases hij : j = i
    · subst hij
      obtain ⟨p₀, hp₀, rfl⟩ := Option.map_eq_some_iff.1 hp
      exact Or.inl ⟨thread, ep, r, p₀, rfl, hpc, hp₀, by simp⟩
    · exact Or.inr ⟨by simp [hij], Or.inl (by simpa [hij] using hp)⟩
  · exact Or.inr ⟨fun thread => hnot thread i, Or.inl (heq ▸ hp)⟩
  · refine Or.inr ⟨fun thread => hnot thread i, ?_⟩
    rw [heq, List.getElem?_append] at hp
    split_ifs at hp with hlt
    · exact Or.inl hp
    · have hnew := List.mem_singleton.1 (List.mem_of_getElem? hp)
      exact Or.inr ⟨List.getElem?_eq_none (Nat.le_of_not_lt hlt), by rw [hnew]; rfl⟩

theorem lastWritten_run (hrun : run decode events = some w) (hp : w.peers[i]? = some p) :
    LastWritten events i p := by
  refine foldlM_history (I := fun events w => ∀ i p, w.peers[i]? = some p →
    LastWritten events i p) ?_ ?_ hrun i p hp
  · intro i p hp
    cases hp
  · intro events s e t hs ih hstep i p hp
    obtain ⟨thread, ep, r, p₀, rfl, hpc, hp₀, rfl⟩ | ⟨hnot, hkept⟩ := getElem?_step hstep hp
    · have hheld := held_run hs hpc
      rw [getElem?_addresses, hp₀] at hheld
      rw [refresh_eq (Option.some.inj hheld)]
      refine ⟨by simp [KnownPeer.refresh], fun _ => ⟨ep, r.now, events, ?_, ?_, rfl, ?_⟩⟩
      · exact ⟨thread, r, List.prefix_rfl, rfl⟩
      · have hleft : (ep, r.now) ∈ left (s.rounds thread) := by
          rw [hpc]
          exact List.mem_cons_self
        exact listed_run hs hleft
      · rintro ep' now' before' ⟨_, _, hpre, -⟩
        simpa using hpre.length_le
    · have hsame (ep : PeerEndpoint) (now : ℤ) (before : List ClientPeersEvent) :
          WritesAfter (events ++ [e]) i ep now before ↔ WritesAfter events i ep now before :=
        writesAfter_concat hnot
      obtain hp₀ | ⟨hnone, hnew⟩ := hkept
      · obtain ⟨hunknown, hknown⟩ := ih i p hp₀
        simp only [← hsame] at hunknown hknown
        exact ⟨hunknown, hknown⟩
      · refine ⟨fun _ => ⟨hnew, fun ep now before hw => ?_⟩, fun hknown => ?_⟩
        · exact ((hsame ep now before).1 hw).ne_none hs hnone
        · rw [hnew] at hknown
          cases hknown

/-- Whatever the order of their critical sections, rounds register each address once and for all,
and what is known of a peer is what the last write to it took from a listing of discoveryd. -/
theorem peers_registered_once (hrun : run decode events = some w) :
    w.addresses.Nodup ∧
      (∀ before u, before <+: events → run decode before = some u →
        u.addresses <+: w.addresses) ∧
      ∀ i p, w.peers[i]? = some p → LastWritten events i p := by
  refine ⟨nodup_addresses hrun, ?_, fun i p => lastWritten_run hrun⟩
  rintro before u ⟨after, rfl⟩ hu
  rw [run, foldlM_append_of_some hu] at hrun
  exact addresses_prefix hrun

def listing (free : UInt64) : DiscoveryResponse where
  requestId := 0
  success := true
  message := "OK"
  peers := some [⟨.replicate 16 0, "b", "10.0.0.2", free, 0, 7070, 0, true, 0⟩]

def endpoint (free : UInt64) : PeerEndpoint := ⟨"10.0.0.2", 7070, free, 0⟩

/-- Two rounds find the same peer, and the one that began first writes last. -/
def overtaken : List ClientPeersEvent :=
  [.drain, .launch, .query 1 (some (listing 5)) 1, .query 2 (some (listing 9)) 2,
    .ensure 1 (endpoint 5) ⟨[], 1, false⟩, .ensure 2 (endpoint 9) ⟨[], 2, false⟩,
    .update 2 0 (endpoint 9) ⟨[], 2, false⟩, .update 1 0 (endpoint 5) ⟨[], 1, false⟩,
    .finish 2 ⟨[], 2, true⟩]

theorem peers_registered_once_overtaken : ∃ w, run (fun _ => none) overtaken = some w ∧
    w.peers = [(KnownPeer.create "10.0.0.2" 7070).refresh (endpoint 5) 1] ∧ w.addresses.Nodup ∧
    ∀ i p, w.peers[i]? = some p → LastWritten overtaken i p := by
  have hany : (run (fun _ => none) overtaken).any (fun w =>
      w.peers = [(KnownPeer.create "10.0.0.2" 7070).refresh (endpoint 5) 1]) = true := by
    decide +kernel
  obtain ⟨w, hrun, hpeers⟩ := (Option.any_eq_true _ _).1 hany
  obtain ⟨hnodup, -, hwritten⟩ := peers_registered_once hrun
  exact ⟨w, hrun, of_decide_eq_true hpeers, hnodup, hwritten⟩

end Figures

section Network

theorem drain_initFails (n : Network) :
    n.drainPendingConnects (fun _ => .initFails) = { n with pendingConnects := [] } := by
  refine List.foldlRecOn (motive := fun m => m = { n with pendingConnects := [] }) _ _ rfl ?_
  rintro _ rfl ⟨peer, k⟩ -
  simp [Network.startConnect, Network.setConnection, PeerConnection.startConnect]

/-- What a step is to the network. A drain takes the queue, and steps of their own start what was
in it. -/
def networkEvent : ClientPeersEvent → Option NetworkEvent
  | .direct _ _ outcome => some (.start 0 outcome)
  | .update _ peer _ _ => some (.discover [peer])
  | .drain => some (.drain fun _ => .initFails)
  | .start peer outcome => some (.start peer outcome)
  | .network ev => some ev
  | _ => none

theorem network_step (hstep : s.step decode e = some t) :
    t.network = s.network.run decode (networkEvent e).toList := by
  obtain ⟨henabled, rfl⟩ := step_eq_some.1 hstep
  cases e with
  | direct ip port outcome =>
    obtain ⟨-, hnone, -⟩ := of_decide_eq_true henabled
    simp only [effect, ensurePeer, hnone]
    rfl
  | query thread answer now =>
    dsimp only [effect]
    split <;> rfl
  | update thread i ep r =>
    -- a peer that is connected is not queued, in the round or in the network
    cases hconn : (s.network.connections i).connected <;>
      simp [effect, updatePeer, hconn, setRound, networkEvent, Network.step, Network.connectToPeers]
  | drain => exact (drain_initFails _).symm
  | _ => rfl

theorem network_run (hrun : events.foldlM (fun s e => s.step decode e) s = some w) :
    w.network = s.network.run decode (events.filterMap networkEvent) := by
  refine foldlM_history (I := fun events w =>
    w.network = s.network.run decode (events.filterMap networkEvent)) rfl ?_ hrun
  intro events u e v _ ih hstep
  rw [List.filterMap_append, Network.run_append, ← ih, network_step hstep]
  cases h : networkEvent e <;> simp [h]

/-- A chunk that was read in the run has broken the connection to the peer. -/
def Broken (decode : List Byte → Option MemoryResponse) (events : List ClientPeersEvent) (i : ℕ) :
    Prop :=
  ∃ before u bytes, before ++ [.network (.read i (.data bytes))] <+: events ∧
    run decode before = some u ∧ PeerConnection.Breaks decode (u.network.connections i) bytes

theorem closing_iff_broken (hrun : run decode events = some w) (i : ℕ) :
    (w.network.connections i).socket = some .closing ↔ Broken decode events i := by
  rw [network_run hrun, Network.closing_iff]
  constructor
  · rintro ⟨before, bytes, after, heq, hbreaks⟩
    obtain ⟨bef, rest, rfl, rfl, hrest⟩ := List.filterMap_eq_append_iff.1 heq
    obtain ⟨mid, e, aft, rfl, hnone, he, -⟩ := List.filterMap_eq_cons_iff.1 hrest
    -- only the callback itself is a read
    obtain rfl : e = .network (.read i (.data bytes)) := by
      cases e <;> simp_all [networkEvent]
    rw [← List.append_assoc] at hrun
    obtain ⟨u, hu⟩ := foldlM_of_prefix (List.prefix_append (bef ++ mid) _) hrun
    refine ⟨bef ++ mid, u, bytes, ⟨aft, by simp⟩, hu, ?_⟩
    rwa [network_run hu, List.filterMap_append, List.filterMap_eq_nil_iff.2 hnone, List.append_nil]
  · rintro ⟨before, u, bytes, ⟨after, rfl⟩, hu, hbreaks⟩
    refine ⟨before.filterMap networkEvent, bytes, after.filterMap networkEvent, ?_, ?_⟩
    · simp [networkEvent]
    · rwa [← network_run hu]

theorem phase_network (hrun : run decode events = some w) (i : ℕ) :
    (w.network.connections i).Phase := by
  rw [network_run hrun]
  exact Network.phase_run decode PeerConnection.phase_new _

/-- In whatever order the critical sections and the callbacks come, a peer is lost exactly if a
chunk that was read from it completes a frame that the verifier rejects or a prefix above the
limit. A peer that is lost stays as it is, and no round queues it again. A peer that is not
connected is queued by a round that finds it, and an attempt to connect gets under way when it is
started. -/
theorem peers_lost_iff_broken (hrun : run decode events = some w) (i : ℕ) :
    (¬ (w.network.connections i).Usable ↔ Broken decode events i) ∧
      (Broken decode events i → ∀ more t, run decode (events ++ more) = some t →
        t.network.connections i = w.network.connections i ∧
          t.network.pendingConnects.count i ≤ w.network.pendingConnects.count i) ∧
      ((w.network.connections i).connected = false →
        (∀ thread ep r t, w.step decode (.update thread i ep r) = some t →
          i ∈ t.network.pendingConnects) ∧
        ∀ t, w.step decode (.start i .inFlight) = some t →
          (t.network.connections i).socket = some .connecting) := by
  have hphase := phase_network hrun i
  refine ⟨?_, fun hbroken more t ht => ?_, fun hdown => ⟨?_, fun t ht => ?_⟩⟩
  · rw [hphase.usable_iff, not_not, closing_iff_broken hrun]
  · have hclosing := (closing_iff_broken hrun i).2 hbroken
    rw [run, foldlM_append_of_some hrun] at ht
    rw [network_run ht]
    exact Network.lost_run (hphase.connected.2 (Or.inr hclosing)) hclosing _
  · intro thread ep r t ht
    obtain ⟨-, rfl⟩ := step_eq_some.1 ht
    simp [effect, updatePeer, hdown, setRound]
  · rw [network_step ht, networkEvent, Option.toList_some, Network.run_cons, Network.run_nil,
      Network.connections_start]
    exact hphase.startConnect_inFlight hdown

/-- The peer sends a frame of length zero, and discoveryd goes on listing it. -/
def ruined : List ClientPeersEvent :=
  [.drain, .launch, .query 1 (some (listing 5)) 1, .ensure 1 (endpoint 5) ⟨[], 1, false⟩,
    .update 1 0 (endpoint 5) ⟨[], 1, false⟩, .finish 1 ⟨[], 1, true⟩, .drain, .start 0 .inFlight,
    .network (.connect 0 true), .network (.read 0 (.data [0, 0, 0, 0]))]

def relisted : List ClientPeersEvent :=
  [.query 1 (some (listing 9)) 2, .ensure 1 (endpoint 9) ⟨[], 2, false⟩,
    .update 1 0 (endpoint 9) ⟨[], 2, false⟩, .finish 1 ⟨[], 2, false⟩]

theorem peers_lost_iff_broken_ruined : ∃ w t, run (fun _ => none) ruined = some w ∧
    run (fun _ => none) (ruined ++ relisted) = some t ∧ Broken (fun _ => none) ruined 0 ∧
    t.network.connections 0 = w.network.connections 0 ∧ t.network.pendingConnects.count 0 = 0 := by
  have hruined : (run (fun _ => none) ruined).any (fun w =>
      (w.network.connections 0).connected = true ∧
      (w.network.connections 0).socket = some .closing ∧
      w.network.pendingConnects = []) = true := by
    decide +kernel
  have hrelisted : (run (fun _ => none) (ruined ++ relisted)).isSome = true := by
    decide +kernel
  obtain ⟨w, hw, hruined⟩ := (Option.any_eq_true _ _).1 hruined
  obtain ⟨hconn, hsocket, hpending⟩ := of_decide_eq_true hruined
  obtain ⟨t, ht⟩ := Option.isSome_iff_exists.1 hrelisted
  obtain ⟨hlost, hkept, -⟩ := peers_lost_iff_broken hw 0
  have hbroken : Broken (fun _ => none) ruined 0 := by
    refine hlost.1 fun husable => ?_
    obtain ⟨s, hs, hne⟩ := husable.connected hconn
    exact hne (Option.some.inj (hs.symm.trans hsocket))
  obtain ⟨hsame, hcount⟩ := hkept hbroken relisted t ht
  rw [hpending, List.count_nil] at hcount
  exact ⟨w, t, hw, ht, hbroken, hsame, Nat.le_zero.1 hcount⟩

end Network

section Waking

theorem pendingConnects_step (h : s.step decode e = some t) :
    (t.network.pendingConnects = s.network.pendingConnects ∧
        (t.batch = s.batch ∨ ∃ i outcome, e = .start i outcome ∧ s.batch = i :: t.batch)) ∨
      (∃ thread i, t.network.pendingConnects = s.network.pendingConnects ++ [i] ∧
        t.batch = s.batch ∧ (t.rounds thread).queued = true) ∨
      t.network.pendingConnects = [] ∧ s.batch = [] ∧ t.batch = s.network.pendingConnects := by
  obtain ⟨henabled, rfl⟩ := step_eq_some.1 h
  cases e with
  | query thread answer now =>
    refine Or.inl ?_
    dsimp only [effect]
    split <;> exact ⟨rfl, Or.inl rfl⟩
  | update thread i ep r =>
    cases hconn : (s.network.connections i).connected with
    | true => exact Or.inl (by simp [effect, updatePeer, hconn, setRound])
    | false =>
      refine Or.inr (Or.inl ⟨thread, i, ?_⟩)
      simp [effect, updatePeer, hconn, setRound, RoundPc.queued]
  | drain =>
    exact Or.inr (Or.inr ⟨rfl, List.isEmpty_iff.1 (Bool.and_eq_true_iff.1 henabled).1, rfl⟩)
  | start i outcome =>
    refine Or.inl ⟨rfl, Or.inr ⟨i, outcome, rfl, ?_⟩⟩
    exact List.eq_cons_of_mem_head? (of_decide_eq_true henabled)
  | network ev =>
    refine Or.inl ⟨?_, Or.inl rfl⟩
    cases ev <;> first | rfl | cases henabled
  | _ => exact Or.inl ⟨rfl, Or.inl rfl⟩

theorem connectAsync_step (h : s.step decode e = some t) (hasync : s.connectAsync = true) :
    t.connectAsync = true ∨ t.network.pendingConnects = [] := by
  obtain ⟨-, rfl⟩ := step_eq_some.1 h
  cases e with
  | query thread answer now =>
    refine Or.inl ?_
    dsimp only [effect]
    split <;> exact hasync
  | update thread i ep r =>
    refine Or.inl ?_
    dsimp only [effect, updatePeer]
    split <;> exact hasync
  | finish thread r => exact Or.inl (by simp [effect, setRound, hasync])
  | drain => exact Or.inr rfl
  | _ => exact Or.inl hasync

def Told (s : ClientPeers) : Prop :=
  s.connectAsync = true ∨ ∃ thread, (s.rounds thread).queued = true

theorem Told.step (hs : s.Told) (hstep : s.step decode e = some t)
    (hpending : t.network.pendingConnects ≠ []) : t.Told := by
  obtain hasync | ⟨thread, hqueued⟩ := hs
  · exact Or.inl ((connectAsync_step hstep hasync).resolve_right hpending)
  · obtain hsame | ⟨answer, now, -, hpc, -⟩ | ⟨i, ep, r, hpc, h, -⟩ |
        ⟨i, ep, r, queued, hpc, h, hq⟩ | ⟨r, hpc, -, hasync⟩ := rounds_step hstep thread
    · exact Or.inr ⟨thread, hsame ▸ hqueued⟩
    · rw [hpc] at hqueued
      cases hqueued
    · exact Or.inr ⟨thread, by rw [hpc] at hqueued; rwa [h]⟩
    · exact Or.inr ⟨thread, by rw [hpc] at hqueued; rw [h]; exact hq hqueued⟩
    · have hr : r.queued = true := by rwa [hpc] at hqueued
      exact Or.inl (by rw [hasync, hr, Bool.or_true])

theorem told_run (hrun : run decode events = some w) (hpending : w.network.pendingConnects ≠ []) :
    w.Told := by
  refine foldlM_invariant (I := fun s => s.network.pendingConnects ≠ [] → s.Told) ?_ ?_ hrun
    hpending
  · intro s e t ih hstep hpending
    obtain ⟨heq, -⟩ | ⟨thread, i, -, -, hqueued⟩ | ⟨heq, -⟩ := pendingConnects_step hstep
    · exact (ih (heq ▸ hpending)).step hstep hpending
    · exact Or.inr ⟨thread, hqueued⟩
    · exact absurd heq hpending
  · intro h
    exact absurd rfl h

theorem started_or_waiting (hu : run decode before = some u) (hi : i ∈ u.network.pendingConnects)
    (hrun : run decode (before ++ after) = some w) :
    (∃ outcome, .start i outcome ∈ after) ∨ i ∈ w.batch ∨ i ∈ w.network.pendingConnects := by
  rw [run, foldlM_append_of_some hu] at hrun
  refine foldlM_history (I := fun after w => (∃ outcome, .start i outcome ∈ after) ∨ i ∈ w.batch ∨
    i ∈ w.network.pendingConnects) (Or.inr (Or.inr hi)) ?_ hrun
  intro after s e t _ ih hstep
  obtain ⟨outcome, hmem⟩ | hwaits := ih
  · exact Or.inl ⟨outcome, List.mem_append_left _ hmem⟩
  obtain ⟨heq, hbatch | ⟨j, outcome, rfl, hbatch⟩⟩ | ⟨thread, j, heq, hbatch, -⟩ |
      ⟨-, hempty, hbatch⟩ := pendingConnects_step hstep
  · exact Or.inr (by rwa [heq, hbatch])
  · rw [hbatch, List.mem_cons, or_assoc] at hwaits
    obtain rfl | hwaits := hwaits
    · exact Or.inl ⟨outcome, by simp⟩
    · exact Or.inr (by rwa [heq])
  · rw [heq, hbatch, List.mem_append]
    exact Or.inr (hwaits.imp_right Or.inl)
  · rw [hempty] at hwaits
    exact Or.inr (Or.inl (hbatch ▸ hwaits.resolve_left List.not_mem_nil))

/-- A peer that a round finds without a connection is started later on, or it waits: the thread of
libuv is about to start it, has been told, or will be told when a round ends. -/
theorem queued_peers_are_started
    (hrun : run decode (before ++ .update thread i ep r :: after) = some w)
    (hu : run decode before = some u) (hdown : (u.network.connections i).connected = false) :
    (∃ outcome, .start i outcome ∈ after) ∨ i ∈ w.batch ∨
      i ∈ w.network.pendingConnects ∧
        (w.connectAsync = true ∨ ∃ thread, (w.rounds thread).queued = true) := by
  rw [List.append_cons] at hrun
  obtain ⟨v, hv⟩ := foldlM_of_prefix (List.prefix_append _ after) hrun
  obtain ⟨u', hu', hstep⟩ := foldlM_concat_eq_some.1 hv
  cases hu.symm.trans hu'
  obtain ⟨-, rfl⟩ := step_eq_some.1 hstep
  have hi : i ∈ (u.effect decode (.update thread i ep r)).network.pendingConnects := by
    simp [effect, updatePeer, hdown, setRound]
  obtain hstarted | hbatch | hpending := started_or_waiting hv hi hrun
  · exact Or.inl hstarted
  · exact Or.inr (Or.inl hbatch)
  · exact Or.inr (Or.inr ⟨hpending, told_run hrun (List.ne_nil_of_mem hpending)⟩)

theorem run_overtaken : ∃ w, run (fun _ => none) overtaken = some w :=
  Option.isSome_iff_exists.1 (by decide +kernel)

theorem queued_peers_are_started_overtaken : ∃ w, run (fun _ => none) overtaken = some w ∧
    ((∃ outcome, .start 0 outcome ∈ overtaken.drop 7) ∨ 0 ∈ w.batch ∨
      0 ∈ w.network.pendingConnects ∧
        (w.connectAsync = true ∨ ∃ thread, (w.rounds thread).queued = true)) := by
  have hbefore : (run (fun _ => none) (overtaken.take 6)).any (fun u =>
      (u.network.connections 0).connected = false) = true := by
    decide +kernel
  obtain ⟨w, hrun⟩ := run_overtaken
  obtain ⟨u, hu, hdown⟩ := (Option.any_eq_true _ _).1 hbefore
  exact ⟨w, hrun, queued_peers_are_started hrun hu (of_decide_eq_true hdown)⟩

end Waking

end ClientPeers

end MemInfo
