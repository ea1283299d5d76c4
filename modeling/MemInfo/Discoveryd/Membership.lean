import MemInfo.Discoveryd.Cluster

/-! # Leaving the pool

The control socket changes `pool_joined_` on its own thread and tells the announcer afterwards.
The timer of the announcer reads the figures some time before it sends them, so the answer to
LEAVE_POOL can overtake one announcement. In those that are begun after the answer the station
announces no capacity until it is asked to join again, and a listener that gets its datagrams in
order shows none as soon as one of them has arrived.
-/

namespace MemInfo

open Lib Broadcast

/-- The figures that `on_timer` has read so far are zero. -/
def LoopPc.Empty : LoopPc → Prop
  | .sampling announceRam => announceRam = 0
  | .announcing announceRam announceVram => announceRam = 0 ∧ announceVram = 0
  | _ => True

theorem LoopPc.empty_of_sampled {pc : LoopPc} (h : pc.sampled = none) : pc.Empty := by
  cases pc with
  | sampling ram => cases h
  | announcing ram vram => cases h
  | _ => trivial

namespace Station

variable {s s' : Station} {e : StationEvent} {ms : List Announcement}

/-- The announcer knows what the daemon knows, unless the control socket is about to tell it, and
a command that is being answered has been carried out. -/
structure Coherent (s : Station) : Prop where
  announcer : (∀ req, s.control ≠ .updating req) →
    s.daemon.announcer.poolJoined = s.daemon.poolJoined
  updating : ∀ req, s.control = .updating req → s.Obeys req
  responding : ∀ req peers, s.control = .responding req peers → s.Obeys req

structure Left (s : Station) : Prop where
  daemon : s.daemon.poolJoined = false
  announcer : s.daemon.announcer.poolJoined = false

theorem Fresh.coherent (h : s.Fresh) : s.Coherent := by
  obtain ⟨config, localId, hostname, hnew⟩ := h.daemon
  refine ⟨fun _ => by rw [hnew]; rfl, ?_, ?_⟩
  all_goals simp [h.control]

theorem poolJoined_stop (d : DiscoveryDaemon) :
    d.stop.announcer.poolJoined = d.announcer.poolJoined := by
  dsimp only [DiscoveryDaemon.stop, Announcer.stop]
  split_ifs <;> rfl

theorem Coherent.effect (h : s.Coherent) (henabled : s.enabled e = true) :
    (s.effect e).Coherent := by
  cases e with
  | start binds answered => exact ⟨fun _ => rfl, h.updating, h.responding⟩
  | stop =>
    exact { h with announcer := fun hnot => (poolJoined_stop s.daemon).trans (h.announcer hnot) }
  | request req now =>
    have hann := h.announcer (by simp [(of_decide_eq_true henabled).1])
    rw [Station.effect]
    obtain ⟨peers, heq, hdone⟩ | ⟨hcmd, heq⟩ | ⟨hcmd, heq⟩ := perform_cases s req now
    · rw [heq]
      refine ⟨fun _ => hann, by simp, ?_⟩
      rintro _ _ ⟨⟩
      exact hdone
    · rw [heq]
      refine ⟨fun hnot => absurd rfl (hnot req), ?_, by simp⟩
      rintro _ ⟨⟩
      exact ⟨fun _ => rfl, by simp [hcmd]⟩
    · rw [heq]
      refine ⟨fun hnot => absurd rfl (hnot req), ?_, by simp⟩
      rintro _ ⟨⟩
      exact ⟨by simp [hcmd], fun _ => rfl⟩
  | update req =>
    refine ⟨fun _ => rfl, by simp [Station.effect], ?_⟩
    rintro _ _ ⟨⟩
    exact h.updating req (of_decide_eq_true henabled)
  | respond req peers =>
    refine ⟨fun _ => h.announcer (by simp [of_decide_eq_true henabled]), ?_, ?_⟩
    all_goals simp [Station.effect]
  | _ => exact { h with }

theorem Coherent.left {req : ControlRequest} {peers : List PeerListing} (h : s.Coherent)
    (hpc : s.control = .responding req peers) (hcmd : req.command = .leavePool) : s.Left := by
  have hdaemon := (h.responding req peers hpc).2 hcmd
  exact ⟨hdaemon, (h.announcer (by simp [hpc])).trans hdaemon⟩

/-- A station that has left stays out until it is asked to join. -/
theorem Left.effect (h : s.Left)
    (hjoin : ∀ req now, e = .request req now → req.command ≠ .joinPool) : (s.effect e).Left := by
  cases e with
  | start binds answered => exact ⟨h.daemon, h.daemon⟩
  | stop => exact ⟨h.daemon, (poolJoined_stop s.daemon).trans h.announcer⟩
  | request req now =>
    rw [Station.effect]
    obtain ⟨peers, heq, -⟩ | ⟨hcmd, -⟩ | ⟨-, heq⟩ := perform_cases s req now
    · rw [heq]
      exact ⟨h.daemon, h.announcer⟩
    · exact absurd hcmd (hjoin req now rfl)
    · rw [heq]
      exact ⟨rfl, h.announcer⟩
  | update req => exact ⟨h.daemon, h.daemon⟩
  | _ => exact ⟨h.daemon, h.announcer⟩

/-- A station that has left reads no capacity. -/
theorem Left.empty_effect (h : s.Left) (hempty : s.loop.Empty) (henabled : s.enabled e = true) :
    (s.effect e).loop.Empty := by
  cases e with
  | sampleRam => simp [Station.effect, LoopPc.Empty, Announcer.announceRam, h.announcer]
  | sampleVram ram =>
    rw [of_decide_eq_true henabled] at hempty
    exact ⟨hempty, by simp [Announcer.announceVram, h.announcer]⟩
  | loadAvailable =>
    rw [Station.effect]
    split_ifs
    all_goals trivial
  | request req now =>
    rw [Station.effect]
    obtain ⟨peers, heq, -⟩ | ⟨-, heq⟩ | ⟨-, heq⟩ := perform_cases s req now
    all_goals
      rw [heq]
      exact hempty
  | startMemoryd garbage => exact hempty
  | stopMemoryd => exact hempty
  | serve ev => exact hempty
  | poll answered => exact hempty
  | store next => exact hempty
  | update req => exact hempty
  | respond req peers => exact hempty
  | _ => trivial

end Station

section Leaving

variable {stations : ℕ → Station} {before after : List DiscoveryEvent} {u v w : Lan} {i j : ℕ}

theorem coherent_run {es : List DiscoveryEvent} (hfresh : ∀ i, (stations i).Fresh)
    (hrun : discovery.run stations es = some w) (j : ℕ) : (w.nodes j).Coherent := by
  refine nodes_invariant (I := fun _ s => s.Coherent) ?_ ?_ (fun i => (hfresh i).coherent) hrun j
  · intro i s ev s' ms hs hact
    obtain ⟨henabled, rfl, -⟩ := Station.act_eq_some.1 hact
    exact hs.effect henabled
  · intro i s now ann s' hs hrec
    rw [(Station.receive_eq_some hrec).2]
    exact { hs with }

def NotAsked (j : ℕ) (e : DiscoveryEvent) : Prop :=
  ∀ req now, e = .act j (.request req now) → req.command ≠ .joinPool

/-- The station has sent this datagram after the state, and has not begun it before: it had no
announcement in hand then, or has sent that one since. -/
def BegunAfter (u : Lan) (sent : List (ℕ × Announcement)) (j k : ℕ) : Prop :=
  u.sent.length ≤ k ∧ ((u.nodes j).loop.sampled = none ∨
    ∃ k' ann, u.sent.length ≤ k' ∧ k' < k ∧ sent[k']? = some (j, ann))

section BegunAfter

variable {sent more : List (ℕ × Announcement)} {k k' : ℕ}

theorem BegunAfter.mono (h : BegunAfter u sent j k) (hle : k ≤ k') : BegunAfter u sent j k' := by
  obtain ⟨hk, hnone | ⟨k₀, ann, hk₀, hlt, hann⟩⟩ := h
  · exact ⟨hk.trans hle, Or.inl hnone⟩
  · exact ⟨hk.trans hle, Or.inr ⟨k₀, ann, hk₀, hlt.trans_le hle, hann⟩⟩

theorem BegunAfter.of_append (h : BegunAfter u (sent ++ more) j k) (hk : k ≤ sent.length) :
    BegunAfter u sent j k := by
  obtain ⟨hge, hnone | ⟨k₀, ann, hk₀, hlt, hann⟩⟩ := h
  · exact ⟨hge, Or.inl hnone⟩
  · rw [List.getElem?_append_left (by omega)] at hann
    exact ⟨hge, Or.inr ⟨k₀, ann, hk₀, hlt, hann⟩⟩

theorem getElem?_of_append {ann : Announcement} (hmore : ∀ ann, (j, ann) ∉ more)
    (h : (sent ++ more)[k]? = some (j, ann)) : k < sent.length ∧ sent[k]? = some (j, ann) := by
  by_cases hlt : k < sent.length
  · rw [List.getElem?_append_left hlt] at h
    exact ⟨hlt, h⟩
  · rw [List.getElem?_append_right (by omega)] at h
    exact absurd (List.mem_of_getElem? h) (hmore ann)

end BegunAfter

/-- Since the state the station has begun no announcement of capacity. -/
structure Withdrawn (u : Lan) (j : ℕ) (w : Lan) : Prop where
  left : (w.nodes j).Left
  length : u.sent.length ≤ w.sent.length
  loop : BegunAfter u w.sent j w.sent.length → (w.nodes j).loop.Empty
  sent : ∀ k ann, BegunAfter u w.sent j k → w.sent[k]? = some (j, ann) →
    ann.freeRamBytes = 0 ∧ ann.freeVramBytes = 0

theorem Withdrawn.refl (h : (u.nodes j).Left) : Withdrawn u j u where
  left := h
  length := Nat.le_refl _
  loop := by
    rintro ⟨-, hnone | ⟨k, ann, hle, hlt, -⟩⟩
    · exact LoopPc.empty_of_sampled hnone
    · omega
  sent := by
    intro k ann hk hann
    have hlt := (List.getElem?_eq_some_iff.1 hann).1
    have hge := hk.1
    omega

theorem Withdrawn.frame (h : Withdrawn u j v) (hleft : (w.nodes j).Left)
    (hloop : (w.nodes j).loop = (v.nodes j).loop) {more : List (ℕ × Announcement)}
    (hsent : w.sent = v.sent ++ more) (hmore : ∀ ann, (j, ann) ∉ more) : Withdrawn u j w where
  left := hleft
  length := by
    rw [hsent, List.length_append]
    exact Nat.le_add_right_of_le h.length
  loop := by
    rintro ⟨-, hbegun⟩
    rw [hloop]
    refine h.loop ⟨h.length, ?_⟩
    obtain hnone | ⟨k, ann, hk, -, hann⟩ := hbegun
    · exact Or.inl hnone
    · rw [hsent] at hann
      obtain ⟨hlt, hann⟩ := getElem?_of_append hmore hann
      exact Or.inr ⟨k, ann, hk, hlt, hann⟩
  sent := by
    intro k ann hk hann
    rw [hsent] at hk hann
    obtain ⟨hlt, hann⟩ := getElem?_of_append hmore hann
    exact h.sent k ann (hk.of_append hlt.le) hann

theorem Withdrawn.act {ev : StationEvent} {ms : List Announcement} (h : Withdrawn u j v)
    (hjoin : ∀ req now, ev = .request req now → req.command ≠ .joinPool)
    (hact : (v.nodes j).act ev = some (w.nodes j, ms))
    (hsent : w.sent = v.sent ++ ms.map (Prod.mk j)) : Withdrawn u j w := by
  obtain ⟨henabled, heffect, rfl⟩ := Station.act_eq_some.1 hact
  have hleft : (w.nodes j).Left := heffect ▸ h.left.effect hjoin
  obtain heq | ⟨ram, vram, ts, rfl, heq⟩ := (v.nodes j).sends_cases ev
  · rw [heq, List.map_nil, List.append_nil] at hsent
    refine ⟨hleft, hsent ▸ h.length, fun hbegun => ?_, hsent ▸ h.sent⟩
    rw [← heffect]
    exact h.left.empty_effect (h.loop (hsent ▸ hbegun)) henabled
  · -- what is sent has been read before
    have hpc : (v.nodes j).loop = .announcing ram vram := of_decide_eq_true henabled
    rw [heq, List.map_singleton] at hsent
    refine ⟨hleft, ?_, fun _ => ?_, fun k ann hk hann => ?_⟩
    · rw [hsent, List.length_append]
      exact Nat.le_add_right_of_le h.length
    · rw [← heffect]
      trivial
    · rw [hsent] at hk hann
      obtain hlt | rfl | hgt := Nat.lt_trichotomy k v.sent.length
      · rw [List.getElem?_append_left hlt] at hann
        exact h.sent k ann (hk.of_append hlt.le) hann
      · have hempty := h.loop (hk.of_append (Nat.le_refl _))
        rw [hpc] at hempty
        rw [List.getElem?_concat_length] at hann
        cases hann
        exact hempty
      · rw [List.getElem?_eq_none (by simpa using hgt)] at hann
        cases hann

theorem withdrawn_run (hnot : ∀ e ∈ after, NotAsked j e) (hleft : (u.nodes j).Left)
    (hrun : after.foldlM discovery.step u = some w) : Withdrawn u j w := by
  refine foldlM_invariant_of_mem (P := NotAsked j) (I := Withdrawn u j) ?_ hnot (.refl hleft) hrun
  intro v e w he h hstep
  obtain ⟨more, hsent, horigin⟩ := sent_step_eq hstep
  obtain ⟨ev, ms, rfl, hact⟩ | ⟨now, ann, harrival, hrec⟩ | ⟨hsame, -, hother⟩ :=
    node_cases hstep j
  · obtain ⟨s, ms', hact', rfl⟩ := step_act_eq_some.1 hstep
    obtain rfl : ms' = ms := (Prod.mk.inj (Option.some.inj (hact'.symm.trans hact))).2
    exact h.act (fun req now heq => he req now (by rw [heq])) hact rfl
  · have hnode := (Station.receive_eq_some hrec).2
    refine h.frame ?_ (by rw [hnode]) hsent fun ann' hmem => ?_
    · rw [hnode]
      exact ⟨h.left.daemon, h.left.announcer⟩
    · obtain ⟨ev, -, -, rfl, -⟩ := horigin j ann' hmem
      cases harrival
  · refine h.frame (hsame ▸ h.left) (by rw [hsame]) hsent fun ann' hmem => ?_
    obtain ⟨ev, -, -, he, -⟩ := horigin j ann' hmem
    exact hother ev he

def placeFrom (sent : List (ℕ × Announcement)) (i j : ℕ) : DiscoveryEvent → Option ℕ
  | .deliver i' k _ => if i' = i ∧ sent[k]?.map Prod.fst = some j then some k else none
  | _ => none

/-- The station gets the datagrams of the other one in the order in which they were sent. Some may
be lost, and some may come twice in a row. -/
def InOrder (sent : List (ℕ × Announcement)) (i j : ℕ) (es : List DiscoveryEvent) : Prop :=
  (es.filterMap (placeFrom sent i j)).Pairwise (· ≤ ·)

theorem placeFrom_deliver {sent : List (ℕ × Announcement)} {k : ℕ} {now : ℤ} {ann : Announcement}
    (h : sent[k]? = some (j, ann)) : placeFrom sent i j (.deliver i k now) = some k := by
  simp [placeFrom, h]

variable {req : ControlRequest} {peers : List PeerListing} (hfresh : ∀ i, (stations i).Fresh)
  (hbefore : discovery.run stations before = some u) (hcmd : req.command = .leavePool)
  (hnot : ∀ e ∈ after, NotAsked j e)
  (hrun : discovery.run stations (before ++ .act j (.respond req peers) :: after) = some w)

include hfresh hbefore hcmd hnot hrun

theorem sent_after_leave (k : ℕ) (ann : Announcement) (hk : BegunAfter u w.sent j k)
    (hann : w.sent[k]? = some (j, ann)) : ann.freeRamBytes = 0 ∧ ann.freeVramBytes = 0 := by
  rw [Broadcast.run, foldlM_append_of_some hbefore] at hrun
  have hleft : (u.nodes j).Left := by
    obtain ⟨v, hv, -⟩ := Option.bind_eq_some_iff.1 hrun
    obtain ⟨s, ms, hact, -⟩ := step_act_eq_some.1 hv
    have henabled := (Station.act_eq_some.1 hact).1
    exact (coherent_run hfresh hbefore j).left (of_decide_eq_true henabled) hcmd
  have hall : ∀ e ∈ Event.act j (.respond req peers) :: after, NotAsked j e := by
    rintro e (_ | ⟨_, he⟩) req now heq
    · cases heq
    · exact hnot e he req now heq
  exact (withdrawn_run hall hleft hrun).sent k ann hk hann

/-- After LEAVE_POOL has been answered, and as long as JOIN_POOL is not asked for, a station begins
no announcement with capacity; at most the one that was in hand can still carry some. A station
that gets its datagrams in order shows none for it once one of those begun later has arrived. -/
theorem left_pool_without_capacity
    (hids : ∀ i, (stations i).daemon.localId = (stations j).daemon.localId → i = j) :
    (∀ k ann, BegunAfter u w.sent j k → w.sent[k]? = some (j, ann) →
        ann.freeRamBytes = 0 ∧ ann.freeVramBytes = 0) ∧
      ∀ i, InOrder w.sent i j (before ++ .act j (.respond req peers) :: after) →
        Unforged i (stations j).daemon.localId
          (before ++ .act j (.respond req peers) :: after) →
        (∃ k now ann, .deliver i k now ∈ after ∧ BegunAfter u w.sent j k ∧
          w.sent[k]? = some (j, ann)) →
        ∀ peer, (w.nodes i).daemon.peerTable.getPeer (stations j).daemon.localId = .ok peer →
          peer.freeRamBytes = 0 ∧ peer.freeVramBytes = 0 := by
  have hzero := sent_after_leave hfresh hbefore hcmd hnot hrun
  refine ⟨hzero, fun i horder hforged ⟨k, now, ann, hmem, hk, hann⟩ peer hpeer => ?_⟩
  obtain ⟨bef, e, aft, info, hes, hheard⟩ :=
    lastHeard_run hfresh hrun (PeerTable.getPeer_eq_ok.1 hpeer)
  -- the entry was made of a datagram of the station that has left
  obtain ⟨k', j', ann', rfl, hk', hinfo, hid⟩ :=
    hheard.delivered hfresh hrun (by simp [hes]) hforged
  obtain rfl : j' = j := hids j' hid
  -- and of one that was not sent before the one that has arrived
  have hle : k ≤ k' := by
    have hin : Event.deliver i k now ∈ bef ++ Event.deliver i k' peer.lastSeen :: aft := by
      rw [← hes]
      simp [hmem]
    unfold InOrder at horder
    rw [hes, List.filterMap_append, List.pairwise_append] at horder
    obtain hin | hin := List.mem_append.1 hin
    · refine horder.2.2 k ?_ k' ?_
      · exact List.mem_filterMap.2 ⟨_, hin, placeFrom_deliver hann⟩
      · exact List.mem_filterMap.2 ⟨_, List.mem_cons_self, placeFrom_deliver hk'⟩
    · obtain heq | hin := List.mem_cons.1 hin
      · cases heq
        exact Nat.le_refl _
      · exact absurd (hears_deliver hfresh hrun hann) (hheard.last _ hin)
  obtain ⟨hram, hvram⟩ := hzero k' ann' (hk.mono hle) hk'
  obtain ⟨hram', hvram'⟩ := Listener.capacity_peerInfo hinfo
  rw [hheard.entry]
  exact ⟨hram'.trans hram, hvram'.trans hvram⟩

end Leaving

def leave : ControlRequest := ⟨.leavePool, 3⟩

/-- The first station announces sixty-four bytes, is heard, and is told to leave when it has read
the figure for the next announcement. -/
def farewell : List DiscoveryEvent :=
  greeting ++ [.act 0 (.tick (.id _) 6), .act 0 .loadAvailable, .act 0 (.measure (some 64)),
    .act 0 (.publish 64), .act 0 .sampleRam, .act 0 (.sampleVram 64), .act 0 (.announce 64 0 8),
    .deliver 1 1 7, .act 0 .sampleRam, .act 0 (.request leave 8), .act 0 (.update leave)]

/-- It sends the figure after the answer, and then an announcement without capacity. -/
def afterwards : List DiscoveryEvent :=
  [.act 0 (.sampleVram 64), .act 0 (.announce 64 0 9), .deliver 1 2 9, .act 0 .sampleRam,
    .act 0 (.sampleVram 0), .act 0 (.announce 0 0 10), .deliver 1 3 11]

def departed : List DiscoveryEvent := farewell ++ .act 0 (.respond leave []) :: afterwards

theorem left_pool_without_capacity_farewell :
    ∃ u w peer, discovery.run numbered farewell = some u ∧
      (∃ known, (u.nodes 1).daemon.peerTable.getPeer (numbered 0).daemon.localId = .ok known ∧
        known.freeRamBytes = 64) ∧
      discovery.run numbered departed = some w ∧
      (∃ late, u.sent.length ≤ 2 ∧ w.sent[2]? = some (0, late) ∧ late.freeRamBytes = 64) ∧
      (w.nodes 1).daemon.peerTable.getPeer (numbered 0).daemon.localId = .ok peer ∧
      peer.freeRamBytes = 0 ∧ peer.freeVramBytes = 0 := by
  have hfirst : (discovery.run numbered farewell).any (fun u => u.sent.length = 2 ∧
      ((u.nodes 1).daemon.peerTable.peers.lookup (numbered 0).daemon.localId).any
        (fun p => p.freeRamBytes = 64)) = true := by
    decide +kernel
  have hsecond : (discovery.run numbered departed).any (fun w =>
      (departed.filterMap (placeFrom w.sent 1 0)).Pairwise (· ≤ ·) ∧
      w.sent[2]?.any (fun p => p.1 = 0 ∧ p.2.freeRamBytes = 64) = true ∧
      w.sent[3]?.map Prod.fst = some 0 ∧
      ((w.nodes 1).daemon.peerTable.peers.lookup (numbered 0).daemon.localId).isSome) = true := by
    decide +kernel
  obtain ⟨u, hu, hfirst⟩ := (Option.any_eq_true _ _).1 hfirst
  obtain ⟨hlen, hknown⟩ := of_decide_eq_true hfirst
  obtain ⟨w, hw, hsecond⟩ := (Option.any_eq_true _ _).1 hsecond
  obtain ⟨horder, hlate, hfrom, hheard⟩ := of_decide_eq_true hsecond
  obtain ⟨⟨j', late⟩, hlate, hstale⟩ := (Option.any_eq_true _ _).1 hlate
  obtain ⟨rfl, hstale⟩ := of_decide_eq_true hstale
  have hids (i : ℕ) (h : (numbered i).daemon.localId = (numbered 0).daemon.localId) : i = 0 := by
    by_contra hi
    simp only [numbered, DiscoveryDaemon.new, if_neg hi] at h
    exact absurd h (by decide)
  have hnot : ∀ e ∈ afterwards, NotAsked 0 e := by
    simp [afterwards, NotAsked]
  have hforged : Unforged 1 (numbered 0).daemon.localId departed := by
    simp [Unforged, departed, farewell, greeting, afterwards]
  obtain ⟨⟨j, ann⟩, hann, rfl⟩ := Option.map_eq_some_iff.1 hfrom
  obtain ⟨known, hok, hram⟩ := (Option.any_eq_true _ _).1 hknown
  obtain ⟨peer, hpeer⟩ := Option.isSome_iff_exists.1 hheard
  have hpeer := PeerTable.getPeer_eq_ok.2 hpeer
  have hbegun : BegunAfter u w.sent 0 3 := ⟨by omega, Or.inr ⟨2, late, by omega, by omega, hlate⟩⟩
  have hcapacity := (left_pool_without_capacity fresh_numbered hu rfl hnot hw hids).2 1 horder
    hforged ⟨3, 11, ann, by simp [afterwards], hbegun, hann⟩ peer hpeer
  exact ⟨u, w, peer, hu, ⟨known, PeerTable.getPeer_eq_ok.2 hok, of_decide_eq_true hram⟩, hw,
    ⟨late, hlen.le, hlate, hstale⟩, hpeer, hcapacity⟩

end MemInfo
