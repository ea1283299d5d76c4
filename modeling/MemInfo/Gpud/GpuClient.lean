import Mathlib.Data.List.Induction
import Mathlib.Logic.Relation
import MemInfo.Common.Frames
import MemInfo.Lib.Dict

/-! # The receive loop of the GPU client

`GpuClient::on_peer_read` has no limit on the length of a frame. It compares the length of the
buffer with `msg_size + 4` in 32 bits, and then removes `msg_size + 4` bytes with pointers of
64 bits.
-/

namespace MemInfo

open Lib

structure GpuClient where
  readBuffer : List Byte := []
  /-- The number of the context that waits under a request id. -/
  pendingRequests : Dict ℕ ℕ := ∅
  /-- The values of the promises, a context each. -/
  promises : List (Option (List Byte)) := []

/-- What one round of the loop does. A round that dispatches a frame reads its length first, and
has no result if it removes bytes that the buffer does not have. -/
inductive GpuClient.Turn where
  | stop
  | dispatch (msgSize : ℕ) (result : Option GpuClient)

inductive GpuClientEvent where
  | call (requestId : ℕ)
  | read (result : ReadResult)
  deriving DecidableEq, Repr

namespace GpuClient

/-- The part of `sync_remote_call` under `requests_mutex_`. -/
def syncRemoteCall (c : GpuClient) (requestId : ℕ) : GpuClient :=
  { c with
    pendingRequests := c.pendingRequests.insert requestId c.promises.length
    promises := c.promises ++ [none] }

/-- Nothing verifies a response: `requestId` is what its accessor makes of the buffer, whatever
the bytes are. -/
def dispatch (requestId : List Byte → ℕ) (c : GpuClient) (msgSize : ℕ) : GpuClient :=
  match c.pendingRequests.lookup (requestId c.readBuffer) with
  | none => c
  | some context =>
    { c with
      pendingRequests := c.pendingRequests.erase (requestId c.readBuffer)
      promises := c.promises.set context (some (c.readBuffer.take (msgSize + 4))) }

def turn (requestId : List Byte → ℕ) (c : GpuClient) : Turn :=
  if c.readBuffer.length ≥ 4 then
    let msgSize := getPrefixedSize c.readBuffer
    if c.readBuffer.length ≥ (msgSize + 4) % 2 ^ 32 then
      .dispatch msgSize <|
        if msgSize + 4 ≤ c.readBuffer.length then
          some { c.dispatch requestId msgSize with
            readBuffer := c.readBuffer.drop (msgSize + 4) }
        else none
    else .stop
  else .stop

/-- The loop of `on_peer_read`; `none` if its behaviour is undefined, or if it has not ended after
so many rounds. -/
def readFrames (requestId : List Byte → ℕ) : ℕ → GpuClient → Option GpuClient
  | 0, _ => none
  | rounds + 1, c =>
    match c.turn requestId with
    | .stop => some c
    | .dispatch _ none => none
    | .dispatch _ (some c') => readFrames requestId rounds c'

def insert (c : GpuClient) (bytes : List Byte) : GpuClient :=
  { c with readBuffer := c.readBuffer ++ bytes }

def onPeerRead (requestId : List Byte → ℕ) (c : GpuClient) : ReadResult → Option GpuClient
  | .data bytes =>
    if bytes.length > 0 then
      readFrames requestId ((c.insert bytes).readBuffer.length + 1) (c.insert bytes)
    else some c
  | .eof => some c
  | .error => some c

def step (requestId : List Byte → ℕ) (c : GpuClient) : GpuClientEvent → Option GpuClient
  | .call id => some (c.syncRemoteCall id)
  | .read result => c.onPeerRead requestId result

def run (requestId : List Byte → ℕ) (events : List GpuClientEvent) : Option GpuClient :=
  events.foldlM (step requestId) {}

def received : GpuClientEvent → List Byte
  | .read (.data bytes) => bytes
  | _ => []

def Continues (requestId : List Byte → ℕ) (c c' : GpuClient) : Prop :=
  ∃ msgSize, c.turn requestId = .dispatch msgSize (some c')

/-- Every round of the loop stops or removes a header, a frame is dispatched only when it is in
the buffer, and the loop ends. -/
structure LoopSafe (requestId : List Byte → ℕ) (c : GpuClient) : Prop where
  progress : ∀ t, Relation.ReflTransGen (Continues requestId) c t → t.turn requestId = .stop ∨
    ∃ n u, t.turn requestId = .dispatch n (some u) ∧
      u.readBuffer.length + 4 ≤ t.readBuffer.length
  whole : ∀ t, Relation.ReflTransGen (Continues requestId) c t →
    ∀ n r, t.turn requestId = .dispatch n r → n + 4 ≤ t.readBuffer.length
  ends : ∃ t, Relation.ReflTransGen (Continues requestId) c t ∧ t.turn requestId = .stop

def ReceivesSafely (requestId : List Byte → ℕ) (events : List GpuClientEvent) : Prop :=
  ∀ before bytes c, before ++ [.read (.data bytes)] <+: events → 0 < bytes.length →
    run requestId before = some c → LoopSafe requestId (c.insert bytes)

end GpuClient

theorem getPrefixedSize_lt (s : List Byte) : getPrefixedSize s < 2 ^ 32 := by
  have hb (b : Byte) : b.toNat < 256 := b.toNat_lt
  unfold getPrefixedSize
  split
  case h_1 b₀ b₁ b₂ b₃ _ =>
    have := hb b₀
    have := hb b₁
    have := hb b₂
    have := hb b₃
    omega
  case h_2 => decide

def anyLength : Framing Byte := { wire with limit := 2 ^ 32 - 1 }

@[simp] theorem header_anyLength : anyLength.header = 4 := rfl

@[simp] theorem size_anyLength : anyLength.size = getPrefixedSize := rfl

theorem next_anyLength_ne_refused (s : List Byte) : anyLength.next s ≠ .refused := by
  intro h
  have hlt : 2 ^ 32 - 1 < getPrefixedSize s := (Framing.next_eq_refused_iff.mp h).2
  have := getPrefixedSize_lt s
  omega

theorem next_rest_anyLength (s : List Byte) : anyLength.next (anyLength.rest s) = .more :=
  (anyLength.next_rest s).resolve_right (next_anyLength_ne_refused _)

namespace GpuClient

variable {requestId : List Byte → ℕ} {c c' : GpuClient}

@[simp] theorem readBuffer_insert (bytes : List Byte) :
    (c.insert bytes).readBuffer = c.readBuffer ++ bytes := rfl

theorem turn_frame (requestId : List Byte → ℕ) {f r : List Byte}
    (h : anyLength.next c.readBuffer = .frame f r) :
    ∃ c', c.turn requestId = .dispatch (getPrefixedSize c.readBuffer) (some c') ∧
      c'.readBuffer = r ∧ getPrefixedSize c.readBuffer + 4 + r.length = c.readBuffer.length := by
  obtain ⟨hb, hf⟩ := Framing.next_eq_frame_iff.mp h
  have hsize : getPrefixedSize c.readBuffer = anyLength.size f := by
    rw [hb]
    exact anyLength.size_append f r hf.header
  have hlen := hf.length
  rw [← hsize, header_anyLength, Nat.add_comm] at hlen
  have hle : getPrefixedSize c.readBuffer + 4 ≤ c.readBuffer.length := by
    conv_rhs => rw [hb]
    rw [List.length_append]
    omega
  refine ⟨{ c.dispatch requestId (getPrefixedSize c.readBuffer) with
    readBuffer := c.readBuffer.drop (getPrefixedSize c.readBuffer + 4) }, ?_, ?_, ?_⟩
  · have hmod := Nat.mod_le (getPrefixedSize c.readBuffer + 4) (2 ^ 32)
    rw [turn, if_pos (Nat.le_of_add_left_le hle)]
    dsimp only
    rw [if_pos (Nat.le_trans hmod hle), if_pos hle]
  · dsimp only
    rw [← hlen]
    conv_lhs => rw [hb]
    exact List.drop_left
  · rw [← hlen, ← List.length_append, ← hb]

/-- Without a frame in front of the buffer, the loop stops unless the sum with the length
that is announced wraps. -/
theorem turn_more (requestId : List Byte → ℕ) (h : anyLength.next c.readBuffer = .more) :
    c.turn requestId =
      if getPrefixedSize c.readBuffer < 2 ^ 32 - 4 then .stop
      else .dispatch (getPrefixedSize c.readBuffer) none := by
  have hlt := getPrefixedSize_lt c.readBuffer
  rcases Framing.next_eq_more_iff.mp h with hh | ⟨hh, -, hs⟩
  · rw [header_anyLength] at hh
    have hzero : getPrefixedSize c.readBuffer = 0 := by
      unfold getPrefixedSize
      split
      case h_1 heq =>
        rw [heq] at hh
        simp only [List.length_cons] at hh
        omega
      case h_2 => rfl
    rw [turn, if_neg (Nat.not_le.mpr hh), hzero, if_pos (by decide)]
  · rw [header_anyLength] at hh hs
    rw [size_anyLength] at hs
    rw [turn, if_pos hh]
    dsimp only
    split_ifs <;> first | rfl | omega

theorem LoopSafe.of_stop (h : c.turn requestId = .stop) : LoopSafe requestId c := by
  have hself {t} (ht : Relation.ReflTransGen (Continues requestId) c t) : t = c := by
    rcases ht.cases_head with rfl | ⟨d, ⟨n, hd⟩, -⟩
    · rfl
    · rw [h] at hd
      cases hd
  constructor
  · intro t ht
    rw [hself ht]
    exact .inl h
  · intro t ht n r hr
    rw [hself ht, h] at hr
    cases hr
  · exact ⟨c, .refl, h⟩

theorem loopSafe_iff {n : ℕ} (h : c.turn requestId = .dispatch n (some c'))
    (hlen : n + 4 + c'.readBuffer.length = c.readBuffer.length) :
    LoopSafe requestId c ↔ LoopSafe requestId c' := by
  have hstep : Continues requestId c c' := ⟨n, h⟩
  have hcases {t} (ht : Relation.ReflTransGen (Continues requestId) c t) :
      t = c ∨ Relation.ReflTransGen (Continues requestId) c' t := by
    rcases ht.cases_head with rfl | ⟨d, ⟨m, hd⟩, hdt⟩
    · exact .inl rfl
    · rw [h] at hd
      cases hd
      exact .inr hdt
  constructor
  · rintro ⟨hprogress, hwhole, t, ht, hstop⟩
    constructor
    · exact fun t ht => hprogress t (.head hstep ht)
    · exact fun t ht => hwhole t (.head hstep ht)
    · rcases hcases ht with rfl | ht
      · rw [h] at hstop
        cases hstop
      · exact ⟨t, ht, hstop⟩
  · rintro ⟨hprogress, hwhole, t, ht, hstop⟩
    constructor
    · intro t ht
      rcases hcases ht with rfl | ht
      · exact .inr ⟨n, c', h, by omega⟩
      · exact hprogress t ht
    · intro t ht
      rcases hcases ht with rfl | ht
      · intro m r hr
        rw [h] at hr
        cases hr
        omega
      · exact hwhole t ht
    · exact ⟨t, .head hstep ht, hstop⟩

theorem loopSafe_iff_rest (requestId : List Byte → ℕ) (c : GpuClient) :
    LoopSafe requestId c ↔ getPrefixedSize (anyLength.rest c.readBuffer) < 2 ^ 32 - 4 := by
  induction hb : c.readBuffer using Framing.cut_induction (F := anyLength) generalizing c with
  | stop s hstop =>
    obtain rfl := hb
    have hrest := (Framing.cut_stop hstop).2
    have hmore : anyLength.next c.readBuffer = .more := hrest ▸ next_rest_anyLength _
    have hturn := turn_more requestId hmore
    rw [hrest]
    split_ifs at hturn with hlt
    · exact iff_of_true (.of_stop hturn) hlt
    · apply iff_of_false _ hlt
      intro hsafe
      rcases hsafe.progress c .refl with h | ⟨n, u, h, -⟩
      · rw [hturn] at h
        cases h
      · rw [hturn] at h
        cases h
  | frame f r hf ih =>
    obtain ⟨c', hturn, hr, hlen⟩ := turn_frame requestId (hb ▸ hf.next r)
    rw [hf.rest_append, loopSafe_iff hturn (hr ▸ hlen), ih c' hr]

/-- A loop that is safe takes all the frames off the buffer. -/
theorem LoopSafe.readFrames {rounds : ℕ} (h : LoopSafe requestId c)
    (hrounds : c.readBuffer.length < rounds) :
    ∃ c', readFrames requestId rounds c = some c' ∧
      c'.readBuffer = anyLength.rest c.readBuffer := by
  induction rounds generalizing c with
  | zero => exact absurd hrounds (Nat.not_lt_zero _)
  | succ rounds ih =>
    cases hn : anyLength.next c.readBuffer with
    | refused => exact absurd hn (next_anyLength_ne_refused _)
    | more =>
      have hrest := (Framing.cut_more hn).2
      have hturn := turn_more requestId hn
      rw [loopSafe_iff_rest, hrest] at h
      rw [if_pos h] at hturn
      refine ⟨c, ?_, hrest.symm⟩
      rw [GpuClient.readFrames, hturn]
    | frame f r =>
      obtain ⟨c', hturn, hr, hlen⟩ := turn_frame requestId hn
      have hsafe := (loopSafe_iff hturn (hr ▸ hlen)).mp h
      obtain ⟨d, hd, hrest⟩ := ih hsafe (by rw [hr]; omega)
      refine ⟨d, ?_, ?_⟩
      · rw [GpuClient.readFrames, hturn]
        exact hd
      · rw [hrest, hr, (Framing.cut_frame hn).2]

theorem run_concat (events : List GpuClientEvent) (e : GpuClientEvent) :
    run requestId (events ++ [e]) = (run requestId events).bind (step requestId · e) := by
  simp [run, List.foldlM_append]

/-- The lengths that are announced at the end of what has been received, from event to event. -/
def ShortLengths (events : List GpuClientEvent) : Prop :=
  ∀ before, before <+: events →
    getPrefixedSize (anyLength.rest (before.flatMap received)) < 2 ^ 32 - 4

theorem shortLengths_concat {events : List GpuClientEvent} {e : GpuClientEvent} :
    ShortLengths (events ++ [e]) ↔ ShortLengths events ∧
      getPrefixedSize (anyLength.rest ((events ++ [e]).flatMap received)) < 2 ^ 32 - 4 := by
  constructor
  · intro h
    exact ⟨fun before hb => h before (hb.trans (List.prefix_append _ _)), h _ (List.prefix_refl _)⟩
  · rintro ⟨h, he⟩ before hb
    rcases List.prefix_concat_iff.mp hb with rfl | hb
    · exact he
    · exact h before hb

theorem receivesSafely_concat {events : List GpuClientEvent} {e : GpuClientEvent} :
    ReceivesSafely requestId (events ++ [e]) ↔ ReceivesSafely requestId events ∧
      ∀ bytes c, e = .read (.data bytes) → 0 < bytes.length → run requestId events = some c →
        LoopSafe requestId (c.insert bytes) := by
  constructor
  · intro h
    constructor
    · exact fun before bytes c hb => h before bytes c (hb.trans (List.prefix_append _ _))
    · rintro bytes c rfl
      exact h events bytes c (List.prefix_refl _)
  · rintro ⟨h, he⟩ before bytes c hb
    rcases List.prefix_concat_iff.mp hb with heq | hb
    · obtain ⟨rfl, hlast⟩ := List.append_inj' heq rfl
      exact he bytes c (List.cons.inj hlast).1.symm
    · exact h before bytes c hb

theorem step_quiet (requestId : List Byte → ℕ) {e : GpuClientEvent} (h : received e = [])
    (c : GpuClient) : ∃ c', c.step requestId e = some c' ∧ c'.readBuffer = c.readBuffer := by
  match e with
  | .call id => exact ⟨c.syncRemoteCall id, rfl, rfl⟩
  | .read .eof => exact ⟨c, rfl, rfl⟩
  | .read .error => exact ⟨c, rfl, rfl⟩
  | .read (.data bytes) =>
    obtain rfl : bytes = [] := h
    exact ⟨c, rfl, rfl⟩

theorem run_spec (requestId : List Byte → ℕ) (events : List GpuClientEvent) :
    (ReceivesSafely requestId events ↔ ShortLengths events) ∧
      (ShortLengths events → ∃ c, run requestId events = some c ∧
        c.readBuffer = anyLength.rest (events.flatMap received)) := by
  induction events using List.reverseRecOn with
  | nil =>
    have hshort : ShortLengths [] := by
      intro before hb
      rw [List.prefix_nil.mp hb]
      decide
    refine ⟨iff_of_true ?_ hshort, fun _ => ⟨{}, rfl, rfl⟩⟩
    intro before bytes c hb
    simp at hb
  | append_singleton events e ih =>
    obtain ⟨hiff, hrun⟩ := ih
    rw [receivesSafely_concat, shortLengths_concat, hiff, List.flatMap_append,
      List.flatMap_singleton]
    by_cases hquiet : received e = []
    · rw [hquiet, List.append_nil]
      constructor
      · refine and_congr_right fun hshort => iff_of_true ?_ (hshort _ (List.prefix_refl _))
        rintro bytes c rfl hpos
        obtain rfl : bytes = [] := hquiet
        simp at hpos
      · rintro ⟨hshort, -⟩
        obtain ⟨c, hc, hbuf⟩ := hrun hshort
        obtain ⟨c', hstep, hbuf'⟩ := step_quiet requestId hquiet c
        rw [run_concat, hc]
        exact ⟨c', hstep, hbuf'.trans hbuf⟩
    · obtain ⟨bytes, rfl⟩ : ∃ bytes, e = .read (.data bytes) := by
        match e with
        | .read (.data bytes) => exact ⟨bytes, rfl⟩
        | .call id => exact absurd rfl hquiet
        | .read .eof => exact absurd rfl hquiet
        | .read .error => exact absurd rfl hquiet
      have hpos : 0 < bytes.length := List.length_pos_iff.mpr hquiet
      -- what is left goes in front of the bytes that arrive
      have hrest {c : GpuClient}
          (hbuf : c.readBuffer = anyLength.rest (events.flatMap received)) :
          anyLength.rest (c.insert bytes).readBuffer =
            anyLength.rest (events.flatMap received ++ bytes) := by
        rw [readBuffer_insert, hbuf]
        exact (Framing.frames_append _ _).2.symm
      constructor
      · refine and_congr_right fun hshort => ?_
        obtain ⟨c, hc, hbuf⟩ := hrun hshort
        rw [received, ← hrest hbuf, ← loopSafe_iff_rest requestId]
        constructor
        · exact fun h => h bytes c rfl hpos hc
        · rintro h bytes' c' heq - hc'
          cases heq
          rw [hc] at hc'
          cases hc'
          exact h
      · rintro ⟨hshort, hlast⟩
        obtain ⟨c, hc, hbuf⟩ := hrun hshort
        rw [received, ← hrest hbuf, ← loopSafe_iff_rest requestId] at hlast
        obtain ⟨c', hread, hbuf'⟩ := hlast.readFrames (Nat.lt_succ_self _)
        refine ⟨c', ?_, ?_⟩
        · rw [run_concat, hc]
          exact (if_pos hpos).trans hread
        · rw [hbuf', hrest hbuf, received]

/-- The loop of `on_peer_read` is safe in every run in which the frame that is not complete
never announces one of the four lengths that wrap, and only then. -/
theorem receives_safely_iff (requestId : List Byte → ℕ) (events : List GpuClientEvent) :
    ReceivesSafely requestId events ↔
      ∀ before, before <+: events →
        getPrefixedSize (anyLength.rest (before.flatMap received)) < 2 ^ 32 - 4 :=
  (run_spec requestId events).1

/-- Four bytes are dispatched as a frame of 2 ^ 32 bytes. -/
theorem four_bytes_dispatched : ¬ ReceivesSafely (fun _ => 0)
    [.read (.data [0xFC, 0xFF, 0xFF, 0xFF])] := by
  intro h
  have hsafe := h [] [0xFC, 0xFF, 0xFF, 0xFF] {} (List.prefix_refl _) (by decide) rfl
  have := hsafe.whole _ .refl (2 ^ 32 - 4) none rfl
  exact absurd this (by decide)

end GpuClient

end MemInfo
