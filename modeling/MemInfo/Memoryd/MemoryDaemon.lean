import MemInfo.Memoryd.Isolation

/-! # Connections of memoryd

The daemon numbers the connections it accepts and sweeps the allocations of a session
when the session is destroyed. As long as the 64-bit session counter has not wrapped
around nothing stays behind.
-/

namespace MemInfo

open Lib MemoryProtocol

/-- The daemon with the sessions that have not been destroyed. -/
structure MemoryDaemon where
  pageTracker : PageTracker
  nextSessionId : ℕ
  sessions : List ℕ

/-- What the event loop reports: a connection with its status, or an event of a session. -/
inductive DaemonEvent where
  | connection (status : ℤ)
  | session (ev : Event)

def DaemonEvent.accepted : DaemonEvent → Bool
  | .connection status => 0 ≤ status
  | .session _ => false

namespace PageTracker

variable {t : PageTracker} {o s k : ℕ} {a a' : Allocation}

def pagesOf (t : PageTracker) (ownerId : ℕ) : List ℕ :=
  (t.allocations.entries.filter fun e => e.2.ownerId = ownerId).flatMap fun e => e.2.pages

theorem pagesOf_eq_nil (h : ∀ k a, t.allocations.lookup k = some a → a.ownerId ≠ o) :
    t.pagesOf o = [] := by
  have hnone : t.allocations.entries.filter (fun e => e.2.ownerId = o) = [] := by
    rw [List.filter_eq_nil_iff]
    rintro ⟨k, a⟩ he
    simpa using h k a (Dict.mem_entries_iff.mp he)
  rw [pagesOf, hnone, List.flatMap_nil]

theorem Inv.freePagesCount_sweep (hi : Inv t) (o h : ℕ) :
    (t.sweep o h).allocator.freePagesCount + ((t.sweep o h).pagesOf o).length =
      t.allocator.freePagesCount + (t.pagesOf o).length := by
  unfold PageTracker.sweep
  cases hl : t.allocations.lookup h with
  | none => rfl
  | some a =>
    simp only
    split_ifs with ho
    · have hperm := ((Dict.entries_perm_erase hl).filter fun e => e.2.ownerId = o).flatMap_right
        fun e => e.2.pages
      have hlen := hperm.length_eq
      rw [List.filter_cons_of_pos (by simpa using ho), List.flatMap_cons,
        List.length_append] at hlen
      dsimp only at hlen
      simp only [hi.release_eq hl, pagesOf, SlabAllocator.freePagesCount,
        SlabAllocator.returned_freeList, List.length_append, List.length_reverse]
      omega
    · rfl

theorem Inv.freePagesCount_foldl_sweep (hi : Inv t) (o : ℕ) (l : List ℕ) :
    (l.foldl (PageTracker.sweep o) t).allocator.freePagesCount +
        ((l.foldl (PageTracker.sweep o) t).pagesOf o).length =
      t.allocator.freePagesCount + (t.pagesOf o).length := by
  induction l generalizing t with
  | nil => rfl
  | cons h l ih => exact (ih (hi.sweep o h)).trans (hi.freePagesCount_sweep o h)

theorem Inv.lookup_freeAllForOwner (hi : Inv t) (hs : s ≠ 0) (ord : IterOrder ℕ) :
    (t.freeAllForOwner ord s).allocations.lookup k = some a ↔
      t.allocations.lookup k = some a ∧ a.ownerId ≠ s := by
  have hkept {b : Allocation} (hl : t.allocations.lookup k = some b) (ho : b.ownerId ≠ s) :
      (t.freeAllForOwner ord s).allocations.lookup k = some b := by
    rw [PageTracker.freeAllForOwner, if_neg hs]
    exact lookup_foldl_sweep ho _ hl
  constructor
  · intro hl
    have hv := congrFun (hi.freeAllForOwner ord s).2 k
    rw [view_of_lookup hl, if_neg hs] at hv
    obtain ⟨hb, ho⟩ := Option.filter_eq_some_iff.mp hv.symm
    obtain ⟨b, hlb, he⟩ := lookup_of_view hb
    have hne : b.ownerId ≠ s := by
      rw [he] at ho
      simpa using ho
    obtain rfl := Option.some.inj ((hkept hlb hne).symm.trans hl)
    exact ⟨hlb, hne⟩
  · rintro ⟨hl, ho⟩
    exact hkept hl ho

theorem Inv.contents_freeAllForOwner (hi : Inv t) (hs : s ≠ 0) (ord : IterOrder ℕ)
    (hl : t.allocations.lookup k = some a) (ho : a.ownerId ≠ s) :
    (t.freeAllForOwner ord s).contents a = t.contents a := by
  have hv := congrFun (hi.freeAllForOwner ord s).2 k
  rw [view_of_lookup ((hi.lookup_freeAllForOwner hs ord).mpr ⟨hl, ho⟩), if_neg hs,
    view_of_lookup hl, Option.filter_some, if_pos (by simpa using ho)] at hv
  exact congrArg Block.bytes (Option.some.inj hv)

theorem Inv.freePagesCount_freeAllForOwner (hi : Inv t) (hs : s ≠ 0) (ord : IterOrder ℕ) :
    (t.freeAllForOwner ord s).allocator.freePagesCount =
      t.allocator.freePagesCount + (t.pagesOf s).length := by
  have hnone : (t.freeAllForOwner ord s).pagesOf s = [] :=
    pagesOf_eq_nil fun k a hl => ((hi.lookup_freeAllForOwner hs ord).mp hl).2
  have hsum := hi.freePagesCount_foldl_sweep s (ord.order t.allocations.keys)
  rw [PageTracker.freeAllForOwner, if_neg hs] at hnone ⊢
  rwa [hnone, List.length_nil, Nat.add_zero] at hsum

structure Cleaned (s : ℕ) (t t' : PageTracker) : Prop where
  none_owned : ∀ h a, t'.allocations.lookup h = some a → a.ownerId ≠ s
  freePagesCount : t'.allocator.freePagesCount = t.allocator.freePagesCount + (t.pagesOf s).length
  others : ∀ h a, a.ownerId ≠ s →
    (t'.allocations.lookup h = some a ↔ t.allocations.lookup h = some a)
  bytes : ∀ h a, t'.allocations.lookup h = some a → t'.contents a = t.contents a

theorem Inv.cleaned (hi : Inv t) (hs : s ≠ 0) (ord : IterOrder ℕ) :
    Cleaned s t (t.freeAllForOwner ord s) := by
  have hiff (h : ℕ) (a : Allocation) := hi.lookup_freeAllForOwner (k := h) (a := a) hs ord
  constructor
  · intro h a hl
    exact ((hiff h a).mp hl).2
  · exact hi.freePagesCount_freeAllForOwner hs ord
  · intro h a ho
    rw [hiff, and_iff_left ho]
  · intro h a hl
    obtain ⟨hl, ho⟩ := (hiff h a).mp hl
    exact hi.contents_freeAllForOwner hs ord hl ho

theorem Inv.lookup_request (hi : Inv t) (s : ℕ) (req : MemoryRequest)
    (hl : (processRequest t s req).2.allocations.lookup k = some a) :
    t.allocations.lookup k = some a ∨ a.ownerId = s := by
  have hassign {t' : PageTracker} {h : ℕ} (hother : ∀ k, k ≠ h →
      t'.allocations.lookup k = t.allocations.lookup k)
      (hl : (t'.assignOwner h s).allocations.lookup k = some a) :
      t.allocations.lookup k = some a ∨ a.ownerId = s := by
    rw [lookup_assignOwner] at hl
    split_ifs at hl with hk
    · obtain ⟨b, -, rfl⟩ := Option.map_eq_some_iff.mp hl
      exact .inr rfl
    · exact .inl (hother k hk ▸ hl)
  by_cases hv : req.protocolVersion = protocolVersion
  swap
  · exact .inl (by simpa only [processRequest, hv, ne_eq, not_false_eq_true, if_true] using hl)
  simp only [processRequest, hv, ne_eq, not_true_eq_false, if_false, dispatch] at hl
  cases hop : req.op with
  | alloc =>
    simp only [hop, hi.allocate_eq] at hl
    split_ifs at hl
    · exact hassign (fun _ _ => rfl) hl
    · exact .inl hl
    · exact hassign (fun _ hk => AList.lookup_insert_ne hk) hl
  | free =>
    simp only [hop] at hl
    obtain ⟨e, hf, -⟩ | ⟨b, -, hf, -⟩ := free_cases t req.handle s
    · exact .inl (by simpa only [hf] using hl)
    · simp only [hf, PageTracker.release, Dict.lookup_erase_iff] at hl
      split_ifs at hl
      exact .inl hl
  | write =>
    simp only [hop] at hl
    cases hd : req.data with
    | none => exact .inl (by simpa only [hd] using hl)
    | some data =>
      simp only [hd] at hl
      split_ifs at hl
      · obtain ⟨-, hw⟩ | ⟨-, e, hw, -⟩ | ⟨-, -, b, hw, -⟩ :=
          hi.write_cases req.handle req.offset data s <;> exact .inl (by simpa only [hw] using hl)
      · exact .inl hl
  | read =>
    simp only [hop] at hl
    split_ifs at hl
    · exact .inl hl
    · cases hread : t.read req.handle req.offset req.size s with
      | error e => exact .inl (by simpa only [hread] using hl)
      | ok bytes => exact .inl (by simpa only [hread] using hl)
  | ping => exact .inl (by simpa only [hop] using hl)
  | other code => exact .inl (by simpa only [hop] using hl)

end PageTracker

namespace MemoryDaemon

variable {d : MemoryDaemon} {n s : ℕ}

def new (allocator : SlabAllocator) : MemoryDaemon := ⟨.new allocator, 1, []⟩

def onConnection (d : MemoryDaemon) (status : ℤ) : MemoryDaemon :=
  if status < 0 then d
  else
    { d with
      nextSessionId := wrap (d.nextSessionId + 1)
      sessions := d.nextSessionId :: d.sessions }

/-- One round of the event loop; a session that was destroyed has no more events. -/
def step (d : MemoryDaemon) : DaemonEvent → Option MemoryResponse × MemoryDaemon
  | .connection status => (none, d.onConnection status)
  | .session ev =>
    if ev.session ∈ d.sessions then
      let r := d.pageTracker.serve ev
      match ev with
      | .request _ _ => (r.1, { d with pageTracker := r.2 })
      | .disconnect s _ => (r.1, { d with pageTracker := r.2, sessions := d.sessions.erase s })
    else (none, d)

theorem step_disconnect (hs : s ∈ d.sessions) (ord : IterOrder ℕ) :
    (d.step (.session (.disconnect s ord))).2 =
      { d with
        pageTracker := d.pageTracker.freeAllForOwner ord s
        sessions := d.sessions.erase s } := by
  rw [step, if_pos (show (Event.disconnect s ord).session ∈ d.sessions from hs)]
  rfl

/-- A daemon that has accepted `n` connections, before the session counter wraps around. -/
structure Orderly (n : ℕ) (d : MemoryDaemon) : Prop where
  reached : ∃ m, PageTracker.Reached m d.pageTracker
  next : d.nextSessionId = wrap (n + 1)
  nodup : d.sessions.Nodup
  numbered : ∀ s ∈ d.sessions, 1 ≤ s ∧ s ≤ n
  owned : ∀ {k a}, d.pageTracker.allocations.lookup k = some a → a.ownerId ∈ d.sessions

theorem Orderly.new {totalSize pageSize : ℕ} {garbage : ℕ → Byte} {slab : SlabAllocator}
    (h : SlabAllocator.new totalSize pageSize garbage = .ok slab) : Orderly 0 (new slab) where
  reached := ⟨0, .new h⟩
  next := rfl
  nodup := List.nodup_nil
  numbered := by simp [MemoryDaemon.new]
  owned hl := by simp [MemoryDaemon.new, PageTracker.new] at hl

theorem Orderly.ne_zero (ho : Orderly n d) (hs : s ∈ d.sessions) : s ≠ 0 :=
  Nat.one_le_iff_ne_zero.mp (ho.numbered s hs).1

theorem Orderly.connected (ho : Orderly n d) (hn : n + 1 < 2 ^ 64) {status : ℤ}
    (hs : 0 ≤ status) : Orderly (n + 1) (d.onConnection status) := by
  have hnext : d.nextSessionId = n + 1 := ho.next.trans (wrap_of_lt hn)
  rw [onConnection, if_neg (by omega)]
  constructor
  · exact ho.reached
  · rw [hnext]
  · refine List.nodup_cons.mpr ⟨fun hm => ?_, ho.nodup⟩
    have := ho.numbered _ hm
    omega
  · rintro s hs
    obtain rfl | hm := List.mem_cons.mp hs
    · omega
    · have := ho.numbered s hm
      omega
  · intro k a hl
    exact List.mem_cons_of_mem _ (ho.owned hl)

theorem Orderly.requested (ho : Orderly n d) (hs : s ∈ d.sessions) (req : MemoryRequest) :
    Orderly n { d with pageTracker := (processRequest d.pageTracker s req).2 } := by
  obtain ⟨m, hr⟩ := ho.reached
  refine ⟨⟨_, (PageTracker.request_sound hr s req).reached⟩, ho.next, ho.nodup, ho.numbered, ?_⟩
  intro k a hl
  obtain hl | rfl := hr.1.lookup_request s req hl
  · exact ho.owned hl
  · exact hs

theorem Orderly.destroyed (ho : Orderly n d) (hs : s ∈ d.sessions) (ord : IterOrder ℕ) :
    Orderly n { d with
      pageTracker := d.pageTracker.freeAllForOwner ord s
      sessions := d.sessions.erase s } := by
  have hs₀ := ho.ne_zero hs
  obtain ⟨m, hr⟩ := ho.reached
  constructor
  · exact ⟨_, (PageTracker.serve_sound hr (.disconnect s ord)).reached⟩
  · exact ho.next
  · exact ho.nodup.erase s
  · intro s' hs'
    exact ho.numbered s' (List.mem_of_mem_erase hs')
  · intro k a hl
    obtain ⟨hl, hne⟩ := (hr.1.lookup_freeAllForOwner hs₀ ord).mp hl
    exact (List.mem_erase_of_ne hne).mpr (ho.owned hl)

theorem Orderly.step (ho : Orderly n d) (ev : DaemonEvent)
    (hn : n + (if ev.accepted then 1 else 0) < 2 ^ 64) :
    Orderly (n + if ev.accepted then 1 else 0) (d.step ev).2 := by
  cases ev with
  | connection status =>
    by_cases hs : 0 ≤ status
    · simp only [DaemonEvent.accepted, hs, decide_true, if_true] at hn ⊢
      exact ho.connected hn hs
    · simp only [DaemonEvent.accepted, hs, decide_false, MemoryDaemon.step, onConnection,
        not_le.mp hs, if_true]
      exact ho
  | session ev =>
    by_cases hs : ev.session ∈ d.sessions
    · rw [MemoryDaemon.step, if_pos hs]
      cases ev with
      | request s req => exact ho.requested hs req
      | disconnect s ord => exact ho.destroyed hs ord
    · rw [MemoryDaemon.step, if_neg hs]
      exact ho

/-- The daemon after a run that accepts fewer than `2 ^ 64` connections. -/
theorem Orderly.run (ho : Orderly n d) (evs : List DaemonEvent)
    (hn : n + evs.countP DaemonEvent.accepted < 2 ^ 64) :
    Orderly (n + evs.countP DaemonEvent.accepted) (Lib.run MemoryDaemon.step d evs).2 := by
  induction evs generalizing n d with
  | nil => exact ho
  | cons ev evs ih =>
    rw [List.countP_cons, Nat.add_comm (List.countP _ _), ← Nat.add_assoc] at hn ⊢
    exact ih (ho.step ev (by omega)) hn

theorem mem_sessions_step (ev : DaemonEvent) (hs : s ∈ (d.step ev).2.sessions) :
    s ∈ d.sessions ∨ ev.accepted ∧ s = d.nextSessionId := by
  cases ev with
  | connection status =>
    simp only [step, onConnection] at hs
    split_ifs at hs with hneg
    · exact .inl hs
    · rcases List.mem_cons.mp hs with rfl | hs
      · exact .inr ⟨by simpa [DaemonEvent.accepted] using hneg, rfl⟩
      · exact .inl hs
  | session ev =>
    simp only [step] at hs
    split_ifs at hs
    · cases ev with
      | request s' req => exact .inl hs
      | disconnect s' ord => exact .inl (List.mem_of_mem_erase hs)
    · exact .inl hs

theorem Orderly.run_not_mem (ho : Orderly n d) (evs : List DaemonEvent)
    (hn : n + evs.countP DaemonEvent.accepted < 2 ^ 64) (hle : s ≤ n) (hs : s ∉ d.sessions) :
    s ∉ (Lib.run MemoryDaemon.step d evs).2.sessions := by
  induction evs generalizing n d with
  | nil => exact hs
  | cons ev evs ih =>
    rw [List.countP_cons, Nat.add_comm (List.countP _ _), ← Nat.add_assoc] at hn
    apply ih (ho.step ev (by omega)) hn (by omega)
    intro hmem
    rcases mem_sessions_step ev hmem with hm | ⟨hacc, rfl⟩
    · exact hs hm
    · rw [if_pos hacc] at hn
      have := ho.next.trans (wrap_of_lt (by omega))
      omega

/-- In every run with fewer than `2 ^ 64` accepted connections the end of a session frees
all of its pages and leaves the allocations of the other sessions as they are, and the
session never owns an allocation again. -/
theorem disconnect_cleanup {totalSize pageSize : ℕ} {garbage : ℕ → Byte} {slab : SlabAllocator}
    (hnew : SlabAllocator.new totalSize pageSize garbage = .ok slab) (pre post : List DaemonEvent)
    (hconnections : (pre ++ post).countP DaemonEvent.accepted < 2 ^ 64) (s : ℕ)
    (ord : IterOrder ℕ) (hs : s ∈ (run step (new slab) pre).2.sessions) :
    let d := (run step (new slab) pre).2
    let d' := (d.step (.session (.disconnect s ord))).2
    PageTracker.Cleaned s d.pageTracker d'.pageTracker ∧
    ∀ h a, (run step d' post).2.pageTracker.allocations.lookup h = some a → a.ownerId ≠ s := by
  intro d d'
  rw [List.countP_append] at hconnections
  have ho : Orderly _ d := (Orderly.new hnew).run pre (by omega)
  have hd' : d' = _ := step_disconnect hs ord
  have ho' : Orderly _ d' := hd' ▸ ho.destroyed hs ord
  obtain ⟨m, hr⟩ := ho.reached
  constructor
  · rw [hd']
    exact hr.1.cleaned (ho.ne_zero hs) ord
  · rintro h a hl rfl
    have howned := (ho'.run post (by omega)).owned hl
    refine ho'.run_not_mem post (by omega) (ho.numbered _ hs).2 ?_ howned
    rw [hd']
    exact ho.nodup.not_mem_erase

/-- Session 1 leaves two pages behind, and what session 3 then gets has another owner. -/
theorem disconnect_cleanup_two_sessions :
    ∃ slab d d', SlabAllocator.new 8 2 (fun _ => 9) = .ok slab ∧
      d = (run step (new slab) [.connection 0, .connection 0,
        .session (.request 1 (PageTracker.allocRequest 3)),
        .session (.request 2 (PageTracker.allocRequest 1))]).2 ∧
      d' = (d.step (.session (.disconnect 1 (.id ℕ)))).2 ∧
      d.pageTracker.pagesOf 1 = [0, 1] ∧
      PageTracker.Cleaned 1 d.pageTracker d'.pageTracker ∧
      ∀ h a, (run step d' [.connection 0,
        .session (.request 3 (PageTracker.allocRequest 1))]).2.pageTracker.allocations.lookup h =
          some a → a.ownerId ≠ 1 := by
  have hnew : SlabAllocator.new 8 2 (fun _ => 9) = .ok _ := rfl
  exact ⟨_, _, _, hnew, rfl, rfl, rfl,
    disconnect_cleanup hnew _ _ (by decide) 1 (.id ℕ) (by decide)⟩

section WrapAround

/-- A client connects, gets session `k + 1` and leaves. -/
def visit (k : ℕ) : List DaemonEvent :=
  [.connection 0, .session (.disconnect (wrap (k + 1)) (.id ℕ))]

theorem run_visit (slab : SlabAllocator) (k : ℕ) :
    (run step ⟨.new slab, wrap (k + 1), []⟩ (visit k)).2 = ⟨.new slab, wrap (k + 2), []⟩ := by
  have hnext : wrap (wrap (k + 1) + 1) = wrap (k + 2) := by
    unfold wrap
    omega
  simp [visit, step, onConnection, Event.session, PageTracker.serve, PageTracker.freeAllForOwner,
    PageTracker.new, IterOrder.id, hnext]

theorem run_visits (slab : SlabAllocator) (n : ℕ) :
    (run step (new slab) ((List.range n).flatMap visit)).2 = ⟨.new slab, wrap (n + 1), []⟩ := by
  apply run_rounds (fun k d => d = (⟨.new slab, wrap (k + 1), []⟩ : MemoryDaemon)) visit
  · rintro k d - rfl
    exact run_visit slab k
  · rfl

/-- After `2 ^ 64 - 1` connections the next session has number 0, which the sweep takes for
"no owner": what it allocated is still there after its end, and still its own. -/
theorem session_zero_left_behind :
    ∃ slab pre a, SlabAllocator.new 2 1 (fun _ => 0) = .ok slab ∧
      let d := (run step (new slab) pre).2
      0 ∈ d.sessions ∧
      (d.step (.session (.disconnect 0 (.id ℕ)))).2.pageTracker.allocations.lookup 1 = some a ∧
      a.ownerId = 0 := by
  have hnew : SlabAllocator.new 2 1 (fun _ => 0) = .ok _ := rfl
  -- the number of visits stays a variable, so that nothing unfolds the list of events
  obtain ⟨n, hn⟩ : ∃ n, n = 2 ^ 64 - 1 := ⟨_, rfl⟩
  have hzero : wrap (n + 1) = 0 := by
    rw [hn]
    rfl
  refine ⟨_, (List.range n).flatMap visit ++
    [.connection 0, .session (.request 0 (PageTracker.allocRequest 1))], ⟨1, [0], 0⟩, hnew, ?_⟩
  rw [run_append_snd, run_visits, hzero]
  exact ⟨by decide, rfl, rfl⟩

end WrapAround

end MemoryDaemon

end MemInfo
