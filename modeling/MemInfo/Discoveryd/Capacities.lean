import MemInfo.Discoveryd.Cluster

/-! # The capacity that is announced

The free memory in an announcement has come a long way: memoryd counts its free pages, the probe
stores the count next to a flag, the tick reads the flag and then the count, and the announcer
sends what the last tick left. The threads are not synchronised. Still every figure that is
announced was exact once: it is what memoryd could allocate at an earlier moment, or what the
operating system reported to a tick that found the probe without an answer.
-/

namespace MemInfo

open Lib Broadcast MemoryProtocol

variable {stations : ℕ → Station} {es before : List DiscoveryEvent} {i : ℕ} {v : UInt64}

/-- memoryd has had this many bytes left at some moment of the run. -/
def Reported (stations : ℕ → Station) (es : List DiscoveryEvent) (i : ℕ) (v : UInt64) : Prop :=
  ∃ before u t r, before <+: es ∧ discovery.run stations before = some u ∧
    (u.nodes i).memoryd = some t ∧ t.memoryStats 0 = some r ∧ v = .ofNat r.poolFreeBytes

def Unanswered (stations : ℕ → Station) (es : List DiscoveryEvent) (i : ℕ) : Prop :=
  ∃ before u, before ++ [.act i .loadAvailable] <+: es ∧
    discovery.run stations before = some u ∧ (u.nodes i).daemon.poolProbe.available = false

/-- After that the operating system has reported this many bytes. -/
def Measured (stations : ℕ → Station) (es : List DiscoveryEvent) (i : ℕ) (v : UInt64) : Prop :=
  ∃ before, before ++ [.act i (.measure (some v))] <+: es ∧ Unanswered stations before i

def Figure (stations : ℕ → Station) (es : List DiscoveryEvent) (i : ℕ) (v : UInt64) : Prop :=
  v = 0 ∨ Reported stations es i v ∨ Measured stations es i v

/-- What the probe has not yet stored: nothing, that there is no answer, or the rest of an
answer. -/
inductive Pending (stations : ℕ → Station) (es : List DiscoveryEvent) (i : ℕ) (p : PoolProbe) :
    List ProbeStore → Prop where
  | none : Pending stations es i p []
  | unanswered : Pending stations es i p [.available false]
  | answered {n m : UInt64} (hn : Reported stations es i n) :
      Pending stations es i p [.freeBytes n, .totalBytes m, .available true]
  | total {m : UInt64} (hfree : Reported stations es i p.freeBytes) :
      Pending stations es i p [.totalBytes m, .available true]
  | flag (hfree : Reported stations es i p.freeBytes) : Pending stations es i p [.available true]

structure Sourced (stations : ℕ → Station) (es before : List DiscoveryEvent) (i : ℕ) (s : Station) :
    Prop where
  starting : s.loop = .starting → s.stores = [] ∧ s.daemon.poolProbe.running = false
  probe : s.daemon.poolProbe.available = true →
    Reported stations es i s.daemon.poolProbe.freeBytes
  stores : Pending stations es i s.daemon.poolProbe s.stores
  loading : s.loop = .loading → Reported stations es i s.daemon.poolProbe.freeBytes
  measuring : s.loop = .measuring → Unanswered stations before i
  publishing : ∀ v, s.loop = .publishing v → Figure stations es i v
  announcer : Figure stations es i s.daemon.announcer.freeRam

theorem Sourced.longer {s : Station} (hs : Sourced stations es before i s) (e : DiscoveryEvent) :
    Sourced stations es (before ++ [e]) i s := by
  refine { hs with measuring := fun hm => ?_ }
  obtain ⟨bef, u, hpre, hrest⟩ := hs.measuring hm
  exact ⟨bef, u, hpre.trans (List.prefix_append _ _), hrest⟩

theorem Sourced.moved {s s' : Station} (hs : Sourced stations es before i s)
    (hprobe : s'.daemon.poolProbe = s.daemon.poolProbe) (hstores : s'.stores = s.stores)
    (hloop : s'.loop ≠ .starting ∧ s'.loop ≠ .loading ∧ s'.loop ≠ .measuring ∧
      ∀ v, s'.loop ≠ .publishing v)
    (hram : Figure stations es i s'.daemon.announcer.freeRam) :
    Sourced stations es before i s' where
  starting hl := absurd hl hloop.1
  probe := hprobe ▸ hs.probe
  stores := hprobe ▸ hstores ▸ hs.stores
  loading hl := absurd hl hloop.2.1
  measuring hl := absurd hl hloop.2.2.1
  publishing v hl := absurd hl (hloop.2.2.2 v)
  announcer := hram

section Probe

variable {p : PoolProbe} {next : ProbeStore} {l : List ProbeStore}

theorem Pending.store (h : Pending stations es i p (next :: l)) :
    Pending stations es i (p.store next) l := by
  cases h with
  | unanswered => exact .none
  | answered hn => exact .total hn
  | total hfree => exact .flag hfree
  | flag hfree => exact .none

theorem Pending.reported_store (h : Pending stations es i p (next :: l))
    (havailable : (p.store next).available = true) :
    Reported stations es i (p.store next).freeBytes := by
  cases h with
  | unanswered => cases havailable
  | answered hn => exact hn
  | total hfree => exact hfree
  | flag hfree => exact hfree

theorem Pending.freeBytes_store (h : Pending stations es i p (next :: l))
    (hp : Reported stations es i p.freeBytes) :
    Reported stations es i (p.store next).freeBytes := by
  cases h with
  | answered hn => exact hn
  | _ => exact hp

theorem Pending.foldl_store (h : Pending stations es i p l)
    (hp : p.available = true → Reported stations es i p.freeBytes) :
    (l.foldl PoolProbe.store p).available = true →
      Reported stations es i (l.foldl PoolProbe.store p).freeBytes := by
  induction l generalizing p with
  | nil => exact hp
  | cons next l ih => exact ih h.store h.reported_store

theorem pending_pollOnce {u : Lan} (hu : discovery.run stations before = some u)
    (hpre : before <+: es) (p : PoolProbe) (answered : Bool) :
    Pending stations es i p (p.pollOnce ((u.nodes i).stats answered)).2 := by
  unfold PoolProbe.pollOnce
  split_ifs
  · exact .none
  · cases hstats : (u.nodes i).stats answered with
    | none => exact .unanswered
    | some r =>
      dsimp only
      split_ifs
      · exact .unanswered
      · unfold Station.stats at hstats
        split_ifs at hstats
        obtain ⟨t, ht, hr⟩ := Option.bind_eq_some_iff.1 hstats
        exact .answered ⟨before, u, t, r, hpre, hu, ht, hr, rfl⟩

end Probe

theorem Station.Fresh.sourced {s : Station} (h : s.Fresh) : Sourced stations es [] i s := by
  obtain ⟨config, localId, hostname, hnew⟩ := h.daemon
  constructor
  · simp [h.stores, hnew, DiscoveryDaemon.new]
  · simp [hnew, DiscoveryDaemon.new]
  · rw [h.stores]
    exact .none
  all_goals simp [h.loop, hnew, DiscoveryDaemon.new, Figure]

/-- No thread of a station makes up a figure. -/
theorem Sourced.effect {u : Lan} {ev : StationEvent} (hu : discovery.run stations before = some u)
    (hpre : before ++ [.act i ev] <+: es) (h : Sourced stations es before i (u.nodes i))
    (henabled : (u.nodes i).enabled ev = true) :
    Sourced stations es (before ++ [.act i ev]) i ((u.nodes i).effect ev) := by
  have hs := h.longer (.act i ev)
  have hbefore : before <+: es := (List.prefix_append _ _).trans hpre
  cases ev with
  | start binds answered =>
    have hpc : (u.nodes i).loop = .starting := of_decide_eq_true henabled
    have hprobe := (pending_pollOnce hu hbefore _ answered).foldl_store hs.probe
    obtain ⟨hannouncer, -, hfree, havailable⟩ :=
      figures_start (u.nodes i).daemon binds ((u.nodes i).stats answered)
    constructor
    all_goals dsimp only [Station.effect]
    · simp
    · rw [havailable, hfree]
      exact hprobe
    · rw [(hs.starting hpc).1]
      exact .none
    · simp
    · simp
    · simp
    · rw [hannouncer]
      exact hs.announcer
  | poll answered =>
    have hrunning := (of_decide_eq_true henabled).1
    refine { hs with
      starting := fun hl => ?_
      stores := pending_pollOnce hu hbefore _ _ }
    rw [(hs.starting hl).2] at hrunning
    cases hrunning
  | store next =>
    have hstores : (u.nodes i).stores = next :: (u.nodes i).stores.tail :=
      List.eq_cons_of_mem_head? (of_decide_eq_true henabled)
    have hpending := hs.stores
    rw [hstores] at hpending
    refine { hs with
      starting := fun hl => ?_
      probe := hpending.reported_store
      stores := hpending.store
      loading := fun hl => hpending.freeBytes_store (hs.loading hl) }
    rw [(hs.starting hl).1] at hstores
    cases hstores
  | tick ord now => exact hs.moved rfl rfl (by simp [Station.effect]) hs.announcer
  | loadAvailable =>
    rw [Station.effect]
    cases havailable : (u.nodes i).daemon.poolProbe.available with
    | true =>
      exact { hs with
        starting := by simp
        loading := fun _ => hs.probe havailable
        measuring := by simp
        publishing := by simp }
    | false =>
      exact { hs with
        starting := by simp
        loading := by simp
        measuring := fun _ => ⟨before, u, List.prefix_rfl, hu, havailable⟩
        publishing := by simp }
  | loadFree =>
    refine { hs with
      starting := by simp [Station.effect]
      loading := by simp [Station.effect]
      measuring := by simp [Station.effect]
      publishing := ?_ }
    rintro _ ⟨⟩
    exact Or.inr (Or.inl (hs.loading (of_decide_eq_true henabled)))
  | measure free =>
    refine { hs with
      starting := by simp [Station.effect]
      loading := by simp [Station.effect]
      measuring := by simp [Station.effect]
      publishing := ?_ }
    rintro _ ⟨⟩
    cases free with
    | none => exact Or.inl rfl
    | some v =>
      have hmeasuring := h.measuring (of_decide_eq_true henabled)
      exact Or.inr (Or.inr ⟨before, hpre, hmeasuring⟩)
  | publish freeRam =>
    have hfigure := hs.publishing freeRam (of_decide_eq_true henabled)
    exact hs.moved rfl rfl (by simp [Station.effect]) hfigure
  | stop =>
    refine hs.moved rfl rfl (by simp [Station.effect]) ?_
    rw [Station.effect, (figures_stop _).1]
    exact hs.announcer
  | sampleRam => exact hs.moved rfl rfl (by simp [Station.effect]) hs.announcer
  | sampleVram ram => exact hs.moved rfl rfl (by simp [Station.effect]) hs.announcer
  | announce ram vram ts => exact hs.moved rfl rfl (by simp [Station.effect]) hs.announcer
  | request req now =>
    rw [Station.effect]
    obtain ⟨peers, heq, -⟩ | ⟨-, heq⟩ | ⟨-, heq⟩ := Station.perform_cases (u.nodes i) req now
    all_goals
      rw [heq]
      exact { hs with }
  | _ => exact { hs with }

theorem sourced_run {w : Lan} (hfresh : ∀ i, (stations i).Fresh)
    (hrun : discovery.run stations before = some w) (hpre : before <+: es) (i : ℕ) :
    Sourced stations es before i (w.nodes i) := by
  refine foldlM_history (I := fun before w => before <+: es →
    ∀ i, Sourced stations es before i (w.nodes i)) ?_ ?_ hrun hpre i
  · exact fun _ i => (hfresh i).sourced
  · intro before u e v hu ih hstep hpre i
    have hs := ih ((List.prefix_append _ _).trans hpre) i
    obtain ⟨ev, ms, rfl, hact⟩ | ⟨now, ann, -, hrec⟩ | ⟨hsame, -⟩ := node_cases hstep i
    · obtain ⟨henabled, heq, -⟩ := Station.act_eq_some.1 hact
      rw [← heq]
      exact hs.effect hu hpre henabled
    · rw [(Station.receive_eq_some hrec).2]
      exact { hs.longer e with }
    · rw [hsame]
      exact hs.longer e

/-- In this state memoryd grants exactly the sizes up to the figure. -/
def ExactCapacity (t : PageTracker) (v : UInt64) : Prop :=
  ∀ session req, req.protocolVersion = protocolVersion → req.op = .alloc → 1 ≤ req.size →
    ((processRequest t session req).1.status = .ok ↔ req.size ≤ v.toNat)

structure Sane (t : PageTracker) : Prop where
  reached : ∃ n, PageTracker.Reached n t
  fits : t.allocator.totalPages * t.allocator.pageSize ≤ ptrdiffMax
  pages : 0 < t.allocator.totalPages

theorem Sane.exactCapacity {t : PageTracker} (h : Sane t) {r : ControlResponse}
    (hr : t.memoryStats 0 = some r) : ExactCapacity t (.ofNat r.poolFreeBytes) := by
  obtain ⟨n, hi, -⟩ := h.reached
  obtain ⟨r', hr', hfree⟩ := hi.memoryStats_free 0
  cases hr.symm.trans hr'
  have hle := Nat.mul_le_mul_right t.allocator.pageSize hi.freeList_length_le
  have hlt : r.poolFreeBytes < 2 ^ 64 := by
    have := h.fits
    unfold ptrdiffMax at this
    omega
  intro session req hv hop hsize
  rw [hi.processRequest_alloc h.fits h.pages session hv hop hsize, UInt64.toNat_ofNat',
    Nat.mod_eq_of_lt hlt, hfree]
  split_ifs with hfit
  · exact iff_of_true rfl hfit
  · exact iff_of_false nofun hfit

theorem sane_run {w : Lan} {t : PageTracker} (hfresh : ∀ i, (stations i).Fresh)
    (hrun : discovery.run stations es = some w) (ht : (w.nodes i).memoryd = some t) : Sane t := by
  refine nodes_invariant (I := fun _ s => ∀ t, s.memoryd = some t → Sane t) ?_ ?_ ?_ hrun i t ht
  · intro i s ev s' ms hs hact
    obtain ⟨-, rfl, -⟩ := Station.act_eq_some.1 hact
    cases ev with
    | startMemoryd garbage =>
      intro t ht
      obtain ⟨slab, hslab, rfl⟩ := Option.map_eq_some_iff.1 ht
      have hnew : s.newSlab garbage = .ok slab := by
        cases h : s.newSlab garbage <;> simp_all [Except.toOption]
      obtain ⟨hbuffer, hnew⟩ := SlabAllocator.create_eq hnew
      refine ⟨⟨_, .new hnew⟩, ?_, (SlabAllocator.pool_of_new hnew).2⟩
      exact (Option.ite_none_right_eq_some.1 hbuffer).1
    | stopMemoryd => nofun
    | serve ev =>
      intro t' ht
      obtain ⟨t, hup, rfl⟩ := Option.map_eq_some_iff.1 ht
      obtain ⟨⟨n, hn⟩, hfits, hpages⟩ := hs t hup
      have hpool := hn.1.samePool_serve ev
      refine ⟨⟨_, (PageTracker.serve_sound hn ev).reached⟩, ?_, ?_⟩
      · rw [hpool.totalPages, hpool.pageSize]
        exact hfits
      · rw [hpool.totalPages]
        exact hpages
    | request req now =>
      rw [Station.effect]
      obtain ⟨peers, heq, -⟩ | ⟨-, heq⟩ | ⟨-, heq⟩ := Station.perform_cases s req now
      all_goals
        rw [heq]
        exact hs
    | _ => exact hs
  · intro i s now ann s' hs hrec
    rw [(Station.receive_eq_some hrec).2]
    exact hs
  · intro i t ht
    rw [(hfresh i).memoryd] at ht
    cases ht

theorem Announced.figure {info : PeerInfo} (hfresh : ∀ i, (stations i).Fresh)
    (h : Announced stations es i info) :
    Figure stations es i info.freeRamBytes ∧ info.freeVramBytes = 0 := by
  obtain ⟨before, between, u, ram, vram, ts, hpre, -, hu, rfl⟩ := h
  rw [List.append_assoc] at hpre
  have hs := sourced_run hfresh hu ((List.prefix_append before _).trans hpre) i
  refine ⟨?_, (noVram_run hfresh hu i).announceVram⟩
  dsimp only [Announcer.self, Announcer.announceRam]
  split_ifs
  · exact hs.announcer
  · exact Or.inl rfl

/-- Every capacity in a table was exact once: it is zero, or memoryd of the station with that id
could at an earlier moment allocate so much and no more, or the operating system of that station
reported it to a tick that had found the probe without an answer. Video memory is never
announced. -/
theorem capacities_were_exact {w : Lan} {id : NodeId} {peer : PeerInfo}
    (hfresh : ∀ i, (stations i).Fresh) (hrun : discovery.run stations es = some w)
    (hforged : Unforged i id es) (h : (w.nodes i).daemon.peerTable.getPeer id = .ok peer) :
    ∃ j, (stations j).daemon.localId = id ∧ peer.freeVramBytes = 0 ∧
      (peer.freeRamBytes = 0 ∨ Measured stations es j peer.freeRamBytes ∨
        ∃ before u t, before <+: es ∧ discovery.run stations before = some u ∧
          (u.nodes j).memoryd = some t ∧ ExactCapacity t peer.freeRamBytes) := by
  obtain ⟨before, e, after, info, rfl, hheard⟩ :=
    lastHeard_run hfresh hrun (PeerTable.getPeer_eq_ok.1 h)
  obtain ⟨k, -, -, rfl, -⟩ := hheard.delivered hfresh hrun (by simp) hforged
  obtain ⟨j, hid, hann⟩ := hheard.announced hfresh hrun
  obtain ⟨hfigure, hvram⟩ := (hann.mono (List.prefix_append _ _)).figure hfresh
  rw [hheard.entry]
  refine ⟨j, hid, hvram, ?_⟩
  obtain hzero | hr | hm := hfigure
  · exact Or.inl hzero
  · obtain ⟨bef, u, t, r, hpre, hu, ht, hr, hv⟩ := hr
    refine Or.inr (Or.inr ⟨bef, u, t, hpre, hu, ht, ?_⟩)
    rw [hv]
    exact (sane_run hfresh hu ht).exactCapacity hr
  · exact Or.inr (Or.inl hm)

def smallPools (i : ℕ) : Station :=
  { totalReservedBytes := 8, pageSizeBytes := 2
    daemon := .new { memoryControlSocket := "memoryd" }
      (Vector.replicate 16 (if i = 0 then 0 else 1)) "node" }

theorem fresh_smallPools (i : ℕ) : (smallPools i).Fresh := ⟨rfl, ⟨_, _, _, rfl⟩, rfl, rfl, rfl, rfl⟩

/-- Three bytes are allocated after the poll, and the announcement does not know of it. -/
def announcing : List DiscoveryEvent :=
  [.act 0 (.startMemoryd fun _ => 9), .act 0 (.start true true), .act 1 (.start true false),
    .act 0 (.serve (.request 1 { protocolVersion := protocolVersion, op := .alloc, size := 3 })),
    .act 0 (.tick (.id _) 1), .act 0 .loadAvailable, .act 0 .loadFree, .act 0 (.publish 8),
    .act 0 .sampleRam, .act 0 (.sampleVram 8), .act 0 (.announce 8 0 5), .deliver 1 0 2]

theorem capacities_were_exact_announcing :
    ∃ w peer, discovery.run smallPools announcing = some w ∧
      (w.nodes 1).daemon.peerTable.getPeer (smallPools 0).daemon.localId = .ok peer ∧
      peer.freeRamBytes = 8 ∧ ∃ j, peer.freeVramBytes = 0 ∧
        (peer.freeRamBytes = 0 ∨ Measured smallPools announcing j peer.freeRamBytes ∨
          ∃ before u t, before <+: announcing ∧ discovery.run smallPools before = some u ∧
            (u.nodes j).memoryd = some t ∧ ExactCapacity t peer.freeRamBytes) := by
  have hany : (discovery.run smallPools announcing).any (fun w =>
      ((w.nodes 1).daemon.peerTable.peers.lookup (smallPools 0).daemon.localId).any
        (fun p => p.freeRamBytes = 8)) = true := by
    decide +kernel
  obtain ⟨w, hrun, hany⟩ := (Option.any_eq_true _ _).1 hany
  obtain ⟨peer, hl, hram⟩ := (Option.any_eq_true _ _).1 hany
  have hpeer := PeerTable.getPeer_eq_ok.2 hl
  have hforged : Unforged 1 (smallPools 0).daemon.localId announcing := by
    simp [Unforged, announcing]
  obtain ⟨j, -, hexact⟩ := capacities_were_exact fresh_smallPools hrun hforged hpeer
  exact ⟨w, peer, hrun, hpeer, of_decide_eq_true hram, j, hexact⟩

end MemInfo
