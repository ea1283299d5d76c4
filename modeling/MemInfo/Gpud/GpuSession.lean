import MemInfo.Gpud.GpuClient
import MemInfo.Lib.Run

/-! # The connection of the GPU client

The callers of `GpuClient` and its network thread. A caller takes a request id, registers a promise
under it, puts the message on the outbound queue and waits for the promise, with no limit of time.
The network thread connects, drains the queue and reads. Nothing happens to the promises when the
connection cannot be made or ends, so that a call is left waiting whenever it is pending at that
time or made later.
-/

namespace MemInfo

open Lib

inductive GpuLink where
  | connecting
  | up
  -- the connection could not be made
  | failed
  -- the stream has ended, or reading from it has failed
  | ended
  deriving DecidableEq, Repr

structure GpuSession where
  client : GpuClient := {}
  nextRequestId : ℕ := 1
  /-- The ids of callers that have not registered yet. -/
  begun : List ℕ := []
  /-- The ids of callers that have registered and not yet put their message on the queue. -/
  registered : List ℕ := []
  /-- The messages of `outbound_queue_`, by their request ids. -/
  outboundQueue : List ℕ := []
  /-- The messages handed to `uv_write`. -/
  sent : List ℕ := []
  /-- `peer_->connected`, which is never taken back. -/
  connected : Bool := false
  link : GpuLink := .connecting

inductive GpuSessionEvent where
  -- the three sections of a call, by the caller's thread
  | begin
  | register (requestId : ℕ)
  | push (requestId : ℕ)
  -- the callbacks of the network thread
  | connect (success : Bool)
  | wakeup
  | read (result : ReadResult)
  deriving DecidableEq, Repr

def GpuSessionEvent.registers : GpuSessionEvent → Option ℕ
  | .register id => some id
  | _ => none

def GpuSessionEvent.Ends (e : GpuSessionEvent) : Prop :=
  e = .connect false ∨ e = .read .eof ∨ e = .read .error

namespace GpuSession

variable (requestId : List Byte → ℕ)

/-- One section of a caller or one callback; `none` if it is not due, or if the receive loop has
no defined behaviour. After the end of the stream, or an error, libuv reads no more. -/
def step (s : GpuSession) : GpuSessionEvent → Option GpuSession
  | .begin =>
    some { s with
      begun := s.begun ++ [s.nextRequestId]
      nextRequestId := wrap (s.nextRequestId + 1) }
  | .register id =>
    if id ∈ s.begun then
      some { s with
        begun := s.begun.erase id
        registered := s.registered ++ [id]
        client := s.client.syncRemoteCall id }
    else none
  | .push id =>
    if id ∈ s.registered then
      some { s with
        registered := s.registered.erase id
        outboundQueue := s.outboundQueue ++ [id] }
    else none
  | .connect success =>
    if s.link = .connecting then
      if success then some { s with connected := true, link := .up }
      else some { s with link := .failed }
    else none
  | .wakeup =>
    -- what is not sent is dropped
    some { s with
      outboundQueue := []
      sent := if s.connected then s.sent ++ s.outboundQueue else s.sent }
  | .read result =>
    if s.link = .up then
      (s.client.onPeerRead requestId result).map fun client =>
        { s with
          client
          link := match result with
            | .data _ => .up
            | .eof => .ended
            | .error => .ended }
    else none

def run (s : GpuSession) (events : List GpuSessionEvent) : Option GpuSession :=
  events.foldlM (step requestId) s

def Dead (s : GpuSession) : Prop := s.link = .failed ∨ s.link = .ended

/-- A pending request that is given no value, whatever happens from now on. -/
def Stranded (s : GpuSession) (id : ℕ) : Prop :=
  ∃ context, s.client.pendingRequests.lookup id = some context ∧
    ∀ events t, run requestId s events = some t → t.client.promises[context]? = some none

end GpuSession

namespace GpuClient

def Quiet (c : GpuClient) : Prop := ∀ id, c.pendingRequests.lookup id = none

structure Waiting (c : GpuClient) : Prop where
  unanswered : ∀ {id context}, c.pendingRequests.lookup id = some context →
    c.promises[context]? = some none
  injective : ∀ {id id' context}, c.pendingRequests.lookup id = some context →
    c.pendingRequests.lookup id' = some context → id = id'

variable {requestId : List Byte → ℕ} {c c' : GpuClient}

theorem waiting_empty : Waiting {} where
  unanswered := by simp
  injective := by simp

theorem Waiting.lt_length (h : c.Waiting) {id context : ℕ}
    (hid : c.pendingRequests.lookup id = some context) : context < c.promises.length :=
  (List.getElem?_eq_some_iff.1 (h.unanswered hid)).1

theorem Waiting.syncRemoteCall (h : c.Waiting) (id : ℕ) : (c.syncRemoteCall id).Waiting := by
  -- an entry of the new table is the new context or one from before
  have hcases {id' context : ℕ} (hid : (c.syncRemoteCall id).pendingRequests.lookup id' =
      some context) :
      id' = id ∧ context = c.promises.length ∨
        id' ≠ id ∧ c.pendingRequests.lookup id' = some context := by
    rw [GpuClient.syncRemoteCall, Dict.lookup_insert_iff] at hid
    split_ifs at hid with heq
    · exact Or.inl ⟨heq, (Option.some.inj hid).symm⟩
    · exact Or.inr ⟨heq, hid⟩
  constructor
  · intro id' context hid
    rcases hcases hid with ⟨-, rfl⟩ | ⟨-, hold⟩
    · simp [GpuClient.syncRemoteCall]
    · rw [GpuClient.syncRemoteCall, List.getElem?_append_left (h.lt_length hold)]
      exact h.unanswered hold
  · intro id₁ id₂ context h₁ h₂
    rcases hcases h₁ with ⟨rfl, rfl⟩ | ⟨-, hold₁⟩
    · rcases hcases h₂ with ⟨rfl, -⟩ | ⟨-, hold₂⟩
      · rfl
      · exact absurd (h.lt_length hold₂) (Nat.lt_irrefl _)
    · rcases hcases h₂ with ⟨rfl, rfl⟩ | ⟨-, hold₂⟩
      · exact absurd (h.lt_length hold₁) (Nat.lt_irrefl _)
      · exact h.injective hold₁ hold₂

theorem Waiting.dispatch (h : c.Waiting) (msgSize : ℕ) :
    (c.dispatch requestId msgSize).Waiting := by
  unfold GpuClient.dispatch
  cases hfound : c.pendingRequests.lookup (requestId c.readBuffer) with
  | none => exact h
  | some answered =>
    -- what is left is what was there, without the request that is answered
    have hold {id context : ℕ} (hid : (c.pendingRequests.erase (requestId c.readBuffer)).lookup id =
        some context) :
        id ≠ requestId c.readBuffer ∧ c.pendingRequests.lookup id = some context := by
      rw [Dict.lookup_erase_iff] at hid
      split_ifs at hid with heq
      exact ⟨heq, hid⟩
    constructor
    · intro id context hid
      obtain ⟨hne, hid⟩ := hold hid
      have hother : answered ≠ context := by
        rintro rfl
        exact hne (h.injective hid hfound)
      dsimp only
      rw [List.getElem?_set_ne hother]
      exact h.unanswered hid
    · intro id₁ id₂ context h₁ h₂
      exact h.injective (hold h₁).2 (hold h₂).2

theorem Waiting.withBuffer (h : c.Waiting) (readBuffer : List Byte) :
    Waiting { c with readBuffer } :=
  ⟨h.unanswered, h.injective⟩

theorem Waiting.readFrames (h : c.Waiting) {rounds : ℕ}
    (hread : readFrames requestId rounds c = some c') : c'.Waiting := by
  induction rounds generalizing c with
  | zero => cases hread
  | succ rounds ih =>
    rw [GpuClient.readFrames] at hread
    cases hturn : c.turn requestId with
    | stop =>
      rw [hturn] at hread
      cases hread
      exact h
    | dispatch msgSize result =>
      rw [hturn] at hread
      cases result with
      | none => cases hread
      | some d =>
        apply ih _ hread
        unfold turn at hturn
        dsimp only at hturn
        split_ifs at hturn
        · cases hturn
          exact (h.dispatch _).withBuffer _
        · cases hturn

theorem Waiting.onPeerRead (h : c.Waiting) {result : ReadResult}
    (hread : c.onPeerRead requestId result = some c') : c'.Waiting := by
  cases result with
  | data bytes =>
    rw [GpuClient.onPeerRead] at hread
    split_ifs at hread
    · exact (h.withBuffer _).readFrames hread
    · cases hread
      exact h
  | eof =>
    cases hread
    exact h
  | error =>
    cases hread
    exact h

end GpuClient

namespace GpuSession

variable {requestId : List Byte → ℕ} {s t : GpuSession} {e : GpuSessionEvent}
  {events : List GpuSessionEvent}

theorem run_cons : run requestId s (e :: events) =
    (step requestId s e).bind (run requestId · events) := rfl

theorem run_append (events' : List GpuSessionEvent) : run requestId s (events ++ events') =
    (run requestId s events).bind (run requestId · events') := by
  simp [run, List.foldlM_append]

theorem waiting_step (h : s.client.Waiting) (ht : step requestId s e = some t) :
    t.client.Waiting := by
  cases e with
  | begin => cases ht; exact h
  | register id =>
    simp only [step] at ht
    split_ifs at ht
    cases ht
    exact h.syncRemoteCall id
  | push id =>
    simp only [step] at ht
    split_ifs at ht
    cases ht
    exact h
  | connect success =>
    simp only [step] at ht
    split_ifs at ht
    all_goals
      cases ht
      exact h
  | wakeup => cases ht; exact h
  | read result =>
    simp only [step] at ht
    split_ifs at ht
    obtain ⟨c, hc, rfl⟩ := Option.map_eq_some_iff.1 ht
    exact h.onPeerRead hc

theorem step_of_dead (h : s.Dead) (ht : step requestId s e = some t) :
    t.Dead ∧ t.client = e.registers.elim s.client s.client.syncRemoteCall := by
  have hconnecting : s.link ≠ .connecting := by rcases h with h | h <;> simp [h]
  have hup : s.link ≠ .up := by rcases h with h | h <;> simp [h]
  cases e with
  | begin => cases ht; exact ⟨h, rfl⟩
  | register id =>
    simp only [step] at ht
    split_ifs at ht
    cases ht
    exact ⟨h, rfl⟩
  | push id =>
    simp only [step] at ht
    split_ifs at ht
    cases ht
    exact ⟨h, rfl⟩
  | connect success => simp [step, hconnecting] at ht
  | wakeup => cases ht; exact ⟨h, rfl⟩
  | read result => simp [step, hup] at ht

theorem promises_of_dead {context : ℕ} (h : s.Dead)
    (hnone : s.client.promises[context]? = some none) (hrun : run requestId s events = some t) :
    t.client.promises[context]? = some none := by
  have hinv : t.Dead ∧ t.client.promises[context]? = some none := by
    apply foldlM_invariant (I := fun u => u.Dead ∧ u.client.promises[context]? = some none) _
      ⟨h, hnone⟩ hrun
    rintro u e v ⟨hdead, hu⟩ hstep
    obtain ⟨hdead', hclient⟩ := step_of_dead hdead hstep
    refine ⟨hdead', ?_⟩
    rw [hclient]
    cases e.registers with
    | none => exact hu
    | some id =>
      have hlt := (List.getElem?_eq_some_iff.1 hu).1
      change (u.client.promises ++ [none])[context]? = some none
      rw [List.getElem?_append_left hlt, hu]
  exact hinv.2

theorem not_stranded_iff_quiet (h : s.Dead) (hw : s.client.Waiting) :
    (∀ id, ¬ Stranded requestId s id) ↔ s.client.Quiet := by
  constructor
  · intro hnone id
    cases hid : s.client.pendingRequests.lookup id with
    | none => rfl
    | some context =>
      refine absurd ?_ (hnone id)
      exact ⟨context, hid, fun _ _ hrun => promises_of_dead h (hw.unanswered hid) hrun⟩
  · rintro hquiet id ⟨context, hid, -⟩
    rw [hquiet id] at hid
    cases hid

theorem quiet_of_dead_iff (h : s.Dead) (hrun : run requestId s events = some t) :
    t.client.Quiet ↔ s.client.Quiet ∧ ∀ e ∈ events, e.registers = none := by
  induction events generalizing s with
  | nil =>
    cases hrun
    simp
  | cons e events ih =>
    rw [run_cons, Option.bind_eq_some_iff] at hrun
    obtain ⟨u, hu, hrun⟩ := hrun
    obtain ⟨hdead, hclient⟩ := step_of_dead h hu
    rw [ih hdead hrun, List.forall_mem_cons, hclient]
    cases hid : e.registers with
    | none => simp
    | some id =>
      -- the registration stays in the table
      have hbusy : ¬ (s.client.syncRemoteCall id).Quiet := by
        intro hquiet
        have hlookup := hquiet id
        simp [GpuClient.syncRemoteCall] at hlookup
      simp [hbusy]

theorem dead_of_ends (he : e.Ends) (ht : step requestId s e = some t) :
    t.Dead ∧ t.client = s.client := by
  rcases he with rfl | rfl | rfl
  · simp only [step, Bool.false_eq_true, if_false] at ht
    split_ifs at ht
    cases ht
    exact ⟨Or.inl rfl, rfl⟩
  · simp only [step] at ht
    split_ifs at ht
    cases ht
    exact ⟨Or.inr rfl, rfl⟩
  · simp only [step] at ht
    split_ifs at ht
    cases ht
    exact ⟨Or.inr rfl, rfl⟩

theorem ends_of_dead (hs : ¬ s.Dead) (ht : step requestId s e = some t) (h : t.Dead) : e.Ends := by
  cases e with
  | begin => cases ht; exact absurd h hs
  | register id =>
    simp only [step] at ht
    split_ifs at ht
    cases ht
    exact absurd h hs
  | push id =>
    simp only [step] at ht
    split_ifs at ht
    cases ht
    exact absurd h hs
  | connect success =>
    cases success with
    | false => exact Or.inl rfl
    | true =>
      simp only [step] at ht
      split_ifs at ht
      cases ht
      simp [Dead] at h
  | wakeup => cases ht; exact absurd h hs
  | read result =>
    cases result with
    | data bytes =>
      simp only [step] at ht
      split_ifs at ht
      obtain ⟨c, -, rfl⟩ := Option.map_eq_some_iff.1 ht
      simp [Dead] at h
    | eof => exact Or.inr (Or.inl rfl)
    | error => exact Or.inr (Or.inr rfl)

theorem exists_ends_of_dead (hs : ¬ s.Dead) (hrun : run requestId s events = some t) (h : t.Dead) :
    ∃ before e after u, events = before ++ e :: after ∧ e.Ends ∧
      run requestId s before = some u := by
  induction events generalizing s with
  | nil =>
    cases hrun
    exact absurd h hs
  | cons e events ih =>
    rw [run_cons, Option.bind_eq_some_iff] at hrun
    obtain ⟨u, hu, hrun⟩ := hrun
    by_cases hdead : u.Dead
    · exact ⟨[], e, events, s, rfl, ends_of_dead hs hu hdead, rfl⟩
    · obtain ⟨before, e', after, v, rfl, he, hv⟩ := ih hdead hrun
      exact ⟨e :: before, e', after, v, rfl, he, by rw [run_cons, hu]; exact hv⟩

/-- Nobody is left waiting after the end of the connection if nobody was waiting then and no call
has been made since. -/
theorem not_stranded_after_iff {before after : List GpuSessionEvent} (he : e.Ends)
    (hs : run requestId {} before = some s)
    (ht : run requestId {} (before ++ e :: after) = some t) :
    (∀ id, ¬ Stranded requestId t id) ↔
      s.client.Quiet ∧ ∀ e' ∈ after, e'.registers = none := by
  have hwaiting {events : List GpuSessionEvent} {u : GpuSession}
      (hu : run requestId {} events = some u) : u.client.Waiting :=
    foldlM_invariant (I := fun u => u.client.Waiting) (fun _ _ _ => waiting_step)
      GpuClient.waiting_empty hu
  have hw := hwaiting ht
  rw [run_append, hs, Option.bind_some, run_cons, Option.bind_eq_some_iff] at ht
  obtain ⟨u, hu, hafter⟩ := ht
  obtain ⟨hdead, hclient⟩ := dead_of_ends he hu
  have hdeadt : t.Dead :=
    foldlM_invariant (fun _ _ _ h hstep => (step_of_dead h hstep).1) hdead hafter
  rw [not_stranded_iff_quiet hdeadt hw, quiet_of_dead_iff hdead hafter, hclient]

def firstCall : List GpuSessionEvent := [.begin, .register 1, .push 1, .wakeup]

def firstAnswer : List GpuSessionEvent :=
  .connect true :: firstCall ++ [.read (.data [0, 0, 0, 0])]

end GpuSession

end MemInfo
