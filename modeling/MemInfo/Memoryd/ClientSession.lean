import MemInfo.Common.Frames
import MemInfo.Memoryd.Protocol

/-! # A session of memoryd

`ClientSession` collects the bytes of its connection and handles every frame that is
complete. What comes out does not depend on how the bytes arrive, up to the first frame
that is refused.
-/

namespace MemInfo

open Lib MemoryProtocol

/-- The calls that a session makes: `process_request` with a frame, and libuv. -/
inductive SessionCall where
  | processRequest (frame : List Byte)
  | uvWrite (response : MemoryResponse)
  | uvClose
  deriving DecidableEq, Repr

structure ClientSession where
  pageTracker : PageTracker
  sessionId : ℕ
  readBuffer : List Byte
  /-- The calls made so far. -/
  calls : List SessionCall

namespace ClientSession

def new (pageTracker : PageTracker) (sessionId : ℕ) : ClientSession :=
  ⟨pageTracker, sessionId, [], []⟩

def call (s : ClientSession) (c : SessionCall) : ClientSession := { s with calls := s.calls ++ [c] }

def uvIsClosing (s : ClientSession) : Bool := s.calls.contains .uvClose

def sendResponse (s : ClientSession) (response : MemoryResponse) : ClientSession :=
  if s.uvIsClosing then s else s.call (.uvWrite response)

/-- `decode` is the verifier of the FlatBuffers library with the access to the fields. -/
def handleRequest (decode : List Byte → Option MemoryRequest) (s : ClientSession)
    (frame : List Byte) : ClientSession :=
  let s := s.call (.processRequest frame)
  match decode frame with
  | none => s.call .uvClose
  | some req =>
    let r := processRequest s.pageTracker s.sessionId req
    sendResponse { s with pageTracker := r.2 } r.1

/-- The loop of `process_buffer`; `none` if it has not ended after so many rounds. -/
def processBuffer (decode : List Byte → Option MemoryRequest) :
    ℕ → ClientSession → Option ClientSession
  | 0, _ => none
  | rounds + 1, s =>
    if s.readBuffer.length ≥ 4 then
      let size := getPrefixedSize s.readBuffer
      if size > maxMessageSize then some (s.call .uvClose)
      else if s.readBuffer.length - 4 ≥ size then
        let s := s.handleRequest decode (s.readBuffer.take (size + 4))
        processBuffer decode rounds { s with readBuffer := s.readBuffer.drop (size + 4) }
      else some s
    else some s

/-- Every round but the last takes a byte at least out of the buffer. -/
def onRead (decode : List Byte → Option MemoryRequest) (s : ClientSession) :
    ReadResult → ClientSession
  | .data bytes =>
    if bytes.length > 0 then
      let s := { s with readBuffer := s.readBuffer ++ bytes }
      (s.processBuffer decode (s.readBuffer.length + 1)).getD s
    else s
  | .eof => s.call .uvClose
  | .error => s.call .uvClose

def deliver (decode : List Byte → Option MemoryRequest) (s : ClientSession) (r : ReadResult) :
    ClientSession :=
  if s.uvIsClosing then s else s.onRead decode r

/-- The frames that were passed to `handle_request`. -/
def handled (s : ClientSession) : List (List Byte) :=
  s.calls.filterMap fun
    | .processRequest frame => some frame
    | _ => none

section Framing

variable {decode : List Byte → Option MemoryRequest} {s : ClientSession} {f : List Byte}
  {fs : List (List Byte)}

theorem calls_handleRequest (decode : List Byte → Option MemoryRequest) (s : ClientSession)
    (f : List Byte) :
    ∃ cs, (s.handleRequest decode f).calls = s.calls ++ .processRequest f :: cs ∧
      (decode f = none → cs = [.uvClose]) ∧ (decode f ≠ none → ∀ c ∈ cs, ∃ r, c = .uvWrite r) := by
  unfold handleRequest
  cases hd : decode f with
  | none => exact ⟨[.uvClose], by simp [call], fun _ => rfl, fun h => absurd rfl h⟩
  | some req =>
    dsimp only [sendResponse]
    split_ifs
    · exact ⟨[], rfl, nofun, by simp⟩
    · refine ⟨[.uvWrite (processRequest s.pageTracker s.sessionId req).1], ?_, nofun, by simp⟩
      simp [call]

theorem handled_handleRequest (s : ClientSession) (f : List Byte) :
    (s.handleRequest decode f).handled = s.handled ++ [f] := by
  obtain ⟨cs, he, hnone, hsome⟩ := calls_handleRequest decode s f
  have hcs : cs.filterMap (fun | .processRequest frame => some frame | _ => none) =
      ([] : List (List Byte)) := by
    rw [List.filterMap_eq_nil_iff]
    intro c hc
    by_cases hd : decode f = none
    · rw [hnone hd, List.mem_singleton] at hc
      subst hc
      rfl
    · obtain ⟨r, rfl⟩ := hsome hd c hc
      rfl
  rw [handled, he, List.filterMap_append, List.filterMap_cons, hcs]
  rfl

theorem readBuffer_handleRequest (s : ClientSession) (f : List Byte) :
    (s.handleRequest decode f).readBuffer = s.readBuffer := by
  unfold handleRequest
  cases decode f with
  | none => rfl
  | some req =>
    dsimp only [sendResponse]
    split_ifs <;> rfl

theorem sendResponse_withBuffer (s : ClientSession) (response : MemoryResponse) (b : List Byte) :
    sendResponse { s with readBuffer := b } response =
      { s.sendResponse response with readBuffer := b } := by
  unfold sendResponse
  by_cases h : s.uvIsClosing
  · rw [if_pos h]
    exact if_pos h
  · rw [if_neg h]
    exact if_neg h

theorem handleRequest_withBuffer (s : ClientSession) (f b : List Byte) :
    handleRequest decode { s with readBuffer := b } f =
      { s.handleRequest decode f with readBuffer := b } := by
  unfold handleRequest
  cases decode f with
  | none => rfl
  | some req =>
    exact sendResponse_withBuffer { s.call (.processRequest f) with
      pageTracker := (processRequest s.pageTracker s.sessionId req).2 } _ b

theorem uvIsClosing_handleRequest (s : ClientSession) (f : List Byte) :
    (s.handleRequest decode f).uvIsClosing ↔ s.uvIsClosing ∨ decode f = none := by
  obtain ⟨cs, he, hnone, hsome⟩ := calls_handleRequest decode s f
  unfold uvIsClosing
  rw [he]
  by_cases hd : decode f = none
  · simp [hnone hd, hd]
  · have hcs : .uvClose ∉ cs := by
      intro hm
      obtain ⟨r, hr⟩ := hsome hd _ hm
      cases hr
    simp [hcs, hd]

@[simp] theorem handled_uvClose (s : ClientSession) : (s.call .uvClose).handled = s.handled := by
  simp [handled, call]

def handleAll (decode : List Byte → Option MemoryRequest) (s : ClientSession)
    (fs : List (List Byte)) : ClientSession := fs.foldl (handleRequest decode) s

theorem handled_handleAll (decode : List Byte → Option MemoryRequest) (s : ClientSession)
    (fs : List (List Byte)) :
    (s.handleAll decode fs).handled = s.handled ++ fs := by
  induction fs generalizing s with
  | nil => exact (List.append_nil _).symm
  | cons f fs ih =>
    rw [handleAll, List.foldl_cons, ← handleAll, ih, handled_handleRequest, List.append_assoc]
    rfl

theorem uvIsClosing_handleAll (s : ClientSession) (fs : List (List Byte)) :
    (s.handleAll decode fs).uvIsClosing ↔ s.uvIsClosing ∨ ∃ f ∈ fs, decode f = none := by
  induction fs generalizing s with
  | nil => simp [handleAll]
  | cons f fs ih =>
    rw [handleAll, List.foldl_cons, ← handleAll, ih, uvIsClosing_handleRequest, or_assoc]
    simp

theorem handleAll_withBuffer (s : ClientSession) (fs : List (List Byte)) (b : List Byte) :
    handleAll decode { s with readBuffer := b } fs =
      { s.handleAll decode fs with readBuffer := b } := by
  induction fs generalizing s with
  | nil => rfl
  | cons f fs ih =>
    rw [handleAll, List.foldl_cons, handleRequest_withBuffer, ← handleAll, ih]
    rfl

/-- What `process_buffer` does: the frames of the buffer are handled and the rest stays,
unless it is refused. -/
def drained (decode : List Byte → Option MemoryRequest) (s : ClientSession) : ClientSession :=
  let s' := { s.handleAll decode (wire.frames s.readBuffer) with
    readBuffer := wire.rest s.readBuffer }
  if wire.next (wire.rest s.readBuffer) = .refused then s'.call .uvClose else s'

theorem processBuffer_succ (rounds : ℕ) (s : ClientSession) :
    s.processBuffer decode (rounds + 1) =
      match wire.next s.readBuffer with
      | .more => some s
      | .refused => some (s.call .uvClose)
      | .frame f r =>
        processBuffer decode rounds { s.handleRequest decode f with readBuffer := r } := by
  rw [processBuffer, next_wire]
  by_cases h₁ : s.readBuffer.length < 4
  · rw [if_neg (Nat.not_le.mpr h₁), if_pos h₁]
  rw [if_pos (Nat.not_lt.mp h₁), if_neg h₁]
  by_cases h₂ : maxMessageSize < getPrefixedSize s.readBuffer
  · rw [if_pos h₂, if_pos h₂]
  rw [if_neg h₂, if_neg h₂]
  by_cases h₃ : 4 + getPrefixedSize s.readBuffer ≤ s.readBuffer.length
  · rw [if_pos h₃, if_pos (Nat.le_sub_of_add_le' h₃)]
    dsimp only
    rw [readBuffer_handleRequest, Nat.add_comm]
  · rw [if_neg h₃, if_neg (by omega)]

theorem processBuffer_eq (decode : List Byte → Option MemoryRequest) {rounds : ℕ}
    (h : s.readBuffer.length < rounds) :
    s.processBuffer decode rounds = some (s.drained decode) := by
  induction rounds generalizing s with
  | zero => exact absurd h (Nat.not_lt_zero _)
  | succ rounds ih =>
    rw [processBuffer_succ, drained]
    cases hn : wire.next s.readBuffer with
    | more =>
      simp [(Framing.cut_more hn).1, (Framing.cut_more hn).2, hn, handleAll]
    | refused =>
      simp [(Framing.cut_refused hn).1, (Framing.cut_refused hn).2, hn, handleAll, call]
    | frame f r =>
      obtain ⟨hb, hf⟩ := Framing.next_eq_frame_iff.mp hn
      have hpos := hf.pos
      rw [hb, List.length_append] at h
      dsimp only
      rw [ih (s := { s.handleRequest decode f with readBuffer := r }) (by dsimp only; omega),
        drained, (Framing.cut_frame hn).1, (Framing.cut_frame hn).2, handleAll_withBuffer]
      rfl

/-- The frames up to the first one that the verifier rejects. -/
def upToRejected (decode : List Byte → Option MemoryRequest) : List (List Byte) → List (List Byte)
  | [] => []
  | f :: fs => if decode f = none then [f] else f :: upToRejected decode fs

theorem upToRejected_append {fs gs : List (List Byte)} (h : ∃ f ∈ fs, decode f = none) :
    upToRejected decode (fs ++ gs) = upToRejected decode fs := by
  induction fs with
  | nil => simp at h
  | cons f fs ih =>
    rw [List.cons_append, upToRejected, upToRejected]
    split_ifs with hf
    · rfl
    · obtain ⟨g, hg, hd⟩ := h
      rcases List.mem_cons.mp hg with rfl | hg
      · exact absurd hd hf
      · rw [ih ⟨g, hg, hd⟩]

theorem upToRejected_prefix (fs : List (List Byte)) : upToRejected decode fs <+: fs := by
  induction fs with
  | nil => exact List.prefix_rfl
  | cons f fs ih =>
    rw [upToRejected]
    split_ifs
    · exact ⟨fs, rfl⟩
    · exact List.prefix_cons_inj f |>.mpr ih

theorem upToRejected_bad {accepted more : List (List Byte)} {bad : List Byte}
    (hacc : ∀ f ∈ accepted, decode f ≠ none) (hd : decode bad = none) :
    upToRejected decode (accepted ++ bad :: more) = accepted ++ [bad] := by
  induction accepted with
  | nil => exact if_pos hd
  | cons f fs ih =>
    rw [List.cons_append, upToRejected, if_neg (hacc f List.mem_cons_self),
      ih fun g hg => hacc g (List.mem_cons_of_mem _ hg)]
    rfl

theorem upToRejected_frames_append {a : List Byte} (ha : ¬ Clean decode a) (b : List Byte) :
    upToRejected decode (wire.frames (a ++ b)) = upToRejected decode (wire.frames a) := by
  rw [(Framing.frames_append a b).1]
  by_cases hbad : ∃ f ∈ wire.frames a, decode f = none
  · exact upToRejected_append hbad
  have hrest : wire.next (wire.rest a) = .refused := by
    rcases wire.next_rest a with h | h
    · refine absurd ⟨fun f hf hd => hbad ⟨f, hf, hd⟩, h⟩ ha
    · exact h
  rw [(Framing.cut_refused (Framing.next_append_refused hrest b)).1, List.append_nil]

theorem handled_drained (s : ClientSession) :
    (s.drained decode).handled = s.handled ++ wire.frames s.readBuffer := by
  rw [← handled_handleAll decode]
  unfold drained
  split_ifs
  · exact handled_uvClose _
  · rfl

theorem uvIsClosing_drained (s : ClientSession) :
    (s.drained decode).uvIsClosing ↔ s.uvIsClosing ∨ ¬ Clean decode s.readBuffer := by
  rw [not_clean_iff, ← or_assoc, ← uvIsClosing_handleAll]
  unfold drained
  split_ifs with h
  · simp [call, uvIsClosing, h]
  · simp only [h, or_false]
    rfl

theorem readBuffer_drained (s : ClientSession) :
    (s.drained decode).readBuffer = wire.rest s.readBuffer := by
  unfold drained
  split_ifs <;> rfl

structure Received (decode : List Byte → Option MemoryRequest) (stream : List Byte)
    (s : ClientSession) : Prop where
  handled : s.handled = wire.frames stream
  readBuffer : s.readBuffer = wire.rest stream
  closing : s.uvIsClosing ↔ ¬ Clean decode stream

theorem received_new (decode : List Byte → Option MemoryRequest) (pageTracker : PageTracker)
    (sessionId : ℕ) :
    Received decode [] (new pageTracker sessionId) := by
  have hmore : wire.next ([] : List Byte) = .more := Framing.next_nil
  constructor
  · exact (Framing.cut_more hmore).1.symm
  · exact (Framing.cut_more hmore).2.symm
  · simp [uvIsClosing, new, Clean, Framing.cut_more hmore, hmore]

theorem deliver_closing {r : ReadResult} (h : s.uvIsClosing) : s.deliver decode r = s := if_pos h

theorem deliver_data (decode : List Byte → Option MemoryRequest) {bytes : List Byte}
    (hs : ¬ s.uvIsClosing) (hb : bytes ≠ []) :
    s.deliver decode (.data bytes) =
      drained decode { s with readBuffer := s.readBuffer ++ bytes } := by
  rw [deliver, if_neg hs, onRead, if_pos (List.length_pos_iff.mpr hb)]
  have heq := processBuffer_eq decode
    (s := { s with readBuffer := s.readBuffer ++ bytes }) (Nat.lt_succ_self _)
  dsimp only at heq ⊢
  rw [heq]
  rfl

theorem Received.deliver {a b : List Byte} (h : Received decode a s) (ha : Clean decode a) :
    Received decode (a ++ b) (s.deliver decode (.data b)) := by
  have hs : ¬ s.uvIsClosing := fun hc => h.closing.mp hc ha
  by_cases hb : b = []
  · subst hb
    rw [List.append_nil, ClientSession.deliver, if_neg hs]
    exact h
  obtain ⟨hframes, hrest⟩ := Framing.frames_append (F := wire) a b
  rw [deliver_data decode hs hb, h.readBuffer]
  constructor
  · rw [handled_drained, hframes, ← h.handled]
    rfl
  · rw [readBuffer_drained, hrest]
  · rw [uvIsClosing_drained, ha.append_iff]
    exact or_iff_right hs

def run (decode : List Byte → Option MemoryRequest) (s : ClientSession) (reads : List ReadResult) :
    ClientSession := reads.foldl (deliver decode) s

theorem run_closing {reads : List ReadResult} (h : s.uvIsClosing) : s.run decode reads = s := by
  induction reads with
  | nil => rfl
  | cons r reads ih => rw [run, List.foldl_cons, deliver_closing h, ← run, ih]

/-- The session looks at the stream chunk by chunk, at all of it if it is clean. -/
theorem Received.run {a : List Byte} (h : Received decode a s) (ha : Clean decode a)
    (chunks : List (List Byte)) :
    ∃ b c, a ++ chunks.flatten = b ++ c ∧ Received decode b (s.run decode (chunks.map .data)) ∧
      (Clean decode b → c = []) := by
  induction chunks generalizing s a with
  | nil => exact ⟨a, [], by simp, h, fun _ => rfl⟩
  | cons chunk chunks ih =>
    have h' := h.deliver ha (b := chunk)
    rw [List.map_cons, ClientSession.run, List.foldl_cons, ← ClientSession.run,
      List.flatten_cons, ← List.append_assoc]
    by_cases hc : Clean decode (a ++ chunk)
    · exact ih h' hc
    · rw [run_closing (h'.closing.mpr hc)]
      exact ⟨a ++ chunk, chunks.flatten, rfl, h', fun hcl => absurd hcl hc⟩

/-- The frames that a session handles do not depend on how the stream is cut into chunks, and
until one is refused, what is left in the buffer is the beginning of the next. -/
theorem session_framing (decode : List Byte → Option MemoryRequest) (pageTracker : PageTracker)
    (sessionId : ℕ) (chunks : List (List Byte)) :
    let s := (new pageTracker sessionId).run decode (chunks.map .data)
    upToRejected decode s.handled = upToRejected decode (wire.frames chunks.flatten) ∧
      (Clean decode chunks.flatten →
        s.handled = wire.frames chunks.flatten ∧
        s.handled.flatten ++ s.readBuffer = chunks.flatten ∧
        (∃ more, more ≠ [] ∧ wire.IsFrame (s.readBuffer ++ more)) ∧
        ∀ more f r, wire.next (s.readBuffer ++ more) = .frame f r →
          s.readBuffer <+: f ∧ s.readBuffer ≠ f) ∧
      ∀ s₁ : ClientSession, ∃ s₂, ∀ rounds, s₁.readBuffer.length < rounds →
        s₁.processBuffer decode rounds = some s₂ := by
  intro s
  obtain ⟨b, c, heq, h, hall⟩ :=
    (received_new decode pageTracker sessionId).run clean_nil chunks
  rw [List.nil_append] at heq
  refine ⟨?_, ?_, fun s₁ => ⟨s₁.drained decode, fun rounds => processBuffer_eq decode⟩⟩
  · rw [h.handled, heq]
    by_cases hb : Clean decode b
    · rw [hall hb, List.append_nil]
    · rw [upToRejected_frames_append hb]
  · intro hclean
    obtain rfl := hall (heq ▸ hclean).of_append
    rw [List.append_nil] at heq
    rw [heq, h.handled, h.readBuffer]
    have hmore := (heq ▸ hclean).2
    refine ⟨rfl, Framing.flatten_frames_append_rest b, exists_isFrame_append hmore, ?_⟩
    exact fun more f r => Framing.prefix_of_next_append hmore

/-- After a frame that is refused nothing is processed, and the socket is closed only once. -/
structure FailStop (decode : List Byte → Option MemoryRequest) (s : ClientSession) : Prop where
  rejected : ∀ pre f post, s.handled = pre ++ f :: post → decode f = none → post = []
  closed : ∀ pre post, s.calls = pre ++ .uvClose :: post → ∀ f, .processRequest f ∉ post
  once : s.calls.count .uvClose ≤ 1

def chunks : List ReadResult → List (List Byte)
  | .data bytes :: reads => bytes :: chunks reads
  | _ => []

/-- When the first rejected frame is complete, neither a frame nor a header that is refused is
in the buffer behind it. -/
def NothingBehind (decode : List Byte → Option MemoryRequest) (stream : List Byte)
    (chunks : List (List Byte)) : Prop :=
  ∀ (seen : List (List Byte)) (chunk : List Byte) (later accepted : List (List Byte))
    (bad behind : List Byte), chunks = seen ++ chunk :: later →
    (∀ f ∈ accepted, wire.IsFrame f ∧ decode f ≠ none) → wire.IsFrame bad → decode bad = none →
    stream ++ seen.flatten ++ chunk = accepted.flatten ++ bad ++ behind →
    (stream ++ seen.flatten).length < (accepted.flatten ++ bad).length → wire.next behind = .more

theorem uvIsClosing_iff : s.uvIsClosing ↔ .uvClose ∈ s.calls := List.contains_iff_mem

theorem eq_nil_of_concat_eq {α : Type} {xs pre post : List α} {y z : α}
    (h : xs ++ [y] = pre ++ z :: post) (hz : z ∉ xs) : post = [] := by
  rcases List.eq_nil_or_concat post with rfl | ⟨post, w, rfl⟩
  · rfl
  · rw [List.concat_eq_append, ← List.cons_append, ← List.append_assoc] at h
    obtain ⟨rfl, -⟩ := List.append_inj' h rfl
    exact absurd (List.mem_append_right _ List.mem_cons_self) hz

theorem FailStop.congr {s' : ClientSession} (h : FailStop decode s) (hc : s'.calls = s.calls) :
    FailStop decode s' := by
  have hh : s'.handled = s.handled := by rw [handled, handled, hc]
  constructor
  · rw [hh]
    exact h.rejected
  · rw [hc]
    exact h.closed
  · rw [hc]
    exact h.once

theorem failStop_of_calls {cs : List SessionCall} (hcs : .uvClose ∉ cs)
    (h : s.calls = cs ∨ s.calls = cs ++ [.uvClose])
    (hrej : ∀ pre f post, s.handled = pre ++ f :: post → decode f = none → post = []) :
    FailStop decode s := by
  have hcount : cs.count .uvClose = 0 := List.count_eq_zero.mpr hcs
  rcases h with h | h
  · constructor
    · exact hrej
    · intro pre post he
      rw [h] at he
      exact absurd (he ▸ List.mem_append_right _ List.mem_cons_self) hcs
    · rw [h, hcount]
      exact Nat.zero_le 1
  · constructor
    · exact hrej
    · intro pre post he f hf
      rw [eq_nil_of_concat_eq (h.symm.trans he) hcs] at hf
      cases hf
    · rw [h, List.count_append, hcount]
      exact Nat.le_refl 1

theorem failStop_of_accepted (hs : ¬ s.uvIsClosing) (hall : ∀ f ∈ s.handled, decode f ≠ none) :
    FailStop decode s ∧ FailStop decode (s.call .uvClose) := by
  rw [uvIsClosing_iff] at hs
  have hrej : ∀ pre f post, s.handled = pre ++ f :: post → decode f = none → post = [] := by
    intro pre f post he hd
    exact absurd hd (hall f (he ▸ List.mem_append_right _ List.mem_cons_self))
  constructor
  · exact failStop_of_calls hs (.inl rfl) hrej
  · apply failStop_of_calls hs (.inr rfl)
    rwa [handled_uvClose]

theorem Received.failStop {a : List Byte} (h : Received decode a s) (ha : Clean decode a) :
    FailStop decode s ∧ FailStop decode (s.call .uvClose) := by
  apply failStop_of_accepted
  · exact fun hc => h.closing.mp hc ha
  · rw [h.handled]
    exact ha.1

theorem failStop_handleRequest (hcs : ¬ s.uvIsClosing) (hall : ∀ g ∈ s.handled, decode g ≠ none)
    (hd : decode f = none) : FailStop decode (s.handleRequest decode f) := by
  obtain ⟨cs, he, hnone, -⟩ := calls_handleRequest decode s f
  obtain rfl := hnone hd
  rw [uvIsClosing_iff] at hcs
  have hcs' : .uvClose ∉ s.calls ++ [.processRequest f] := by simp [hcs]
  apply failStop_of_calls hcs'
  · simp [he]
  · intro pre g post hg hgd
    rw [handled_handleRequest] at hg
    exact eq_nil_of_concat_eq hg fun hm => hall g hm hgd

theorem count_uvClose_handleAll (s : ClientSession) (fs : List (List Byte)) :
    (s.handleAll decode fs).calls.count .uvClose =
      s.calls.count .uvClose + fs.countP (decode · = none) := by
  induction fs generalizing s with
  | nil => rfl
  | cons f fs ih =>
    obtain ⟨cs, he, hnone, hsome⟩ := calls_handleRequest decode s f
    rw [handleAll, List.foldl_cons, ← handleAll, ih, he, List.count_append, List.countP_cons]
    by_cases hd : decode f = none
    · rw [hnone hd]
      simp [hd]
      omega
    · have hcs : cs.count .uvClose = 0 := List.count_eq_zero.mpr fun hm => by
        obtain ⟨r, hr⟩ := hsome hd _ hm
        cases hr
      simp [hd, hcs]

theorem count_uvClose_drained (decode : List Byte → Option MemoryRequest) (s : ClientSession) :
    (s.drained decode).calls.count .uvClose = s.calls.count .uvClose +
      (wire.frames s.readBuffer).countP (decode · = none) +
        if wire.next (wire.rest s.readBuffer) = .refused then 1 else 0 := by
  rw [← count_uvClose_handleAll]
  unfold drained
  split_ifs
  · simp [call]
  · rfl

theorem frames_bad {accepted : List (List Byte)} {bad : List Byte}
    (hacc : ∀ f ∈ accepted, wire.IsFrame f ∧ decode f ≠ none) (hbad : wire.IsFrame bad)
    (behind : List Byte) :
    wire.frames (accepted.flatten ++ bad ++ behind) = accepted ++ bad :: wire.frames behind ∧
      wire.rest (accepted.flatten ++ bad ++ behind) = wire.rest behind := by
  rw [List.append_assoc, ← hbad.frames_append, ← hbad.rest_append behind]
  exact Framing.frames_flatten_append (fun f hf => (hacc f hf).1) (bad ++ behind)

theorem length_lt_of_clean {a b : List Byte} {accepted : List (List Byte)} {bad behind : List Byte}
    (ha : Clean decode a) (hacc : ∀ f ∈ accepted, wire.IsFrame f ∧ decode f ≠ none)
    (hbad : wire.IsFrame bad) (hd : decode bad = none)
    (h : a ++ b = accepted.flatten ++ bad ++ behind) :
    a.length < (accepted.flatten ++ bad).length := by
  by_contra hlen
  obtain ⟨r, hr⟩ := List.prefix_of_prefix_length_le ⟨behind, h.symm⟩ (List.prefix_append a b)
    (Nat.not_lt.mp hlen)
  have hmem : bad ∈ wire.frames a := by
    rw [← hr, (frames_bad hacc hbad r).1]
    exact List.mem_append_right _ List.mem_cons_self
  exact ha.1 bad hmem hd

theorem exists_bad {fs : List (List Byte)} (hfs : ∀ f ∈ fs, wire.IsFrame f)
    (h : ∃ f ∈ fs, decode f = none) : ∃ accepted bad more, fs = accepted ++ bad :: more ∧
      (∀ f ∈ accepted, wire.IsFrame f ∧ decode f ≠ none) ∧
        wire.IsFrame bad ∧ decode bad = none := by
  induction fs with
  | nil => simp at h
  | cons f fs ih =>
    by_cases hd : decode f = none
    · exact ⟨[], f, fs, rfl, by simp, hfs f List.mem_cons_self, hd⟩
    · obtain ⟨acc, bad, more, rfl, hacc, hbad⟩ := ih
        (fun g hg => hfs g (List.mem_cons_of_mem _ hg)) (by
          obtain ⟨g, hg, hgd⟩ := h
          rcases List.mem_cons.mp hg with rfl | hg
          · exact absurd hgd hd
          · exact ⟨g, hg, hgd⟩)
      refine ⟨f :: acc, bad, more, rfl, ?_, hbad⟩
      rintro g (_ | ⟨_, hg⟩)
      · exact ⟨hfs f List.mem_cons_self, hd⟩
      · exact hacc g hg

theorem Received.failStop_deliver_iff {a b : List Byte} (h : Received decode a s)
    (ha : Clean decode a) (hab : ¬ Clean decode (a ++ b)) :
    FailStop decode (s.deliver decode (.data b)) ↔
      ∀ (accepted : List (List Byte)) (bad behind : List Byte),
        (∀ f ∈ accepted, wire.IsFrame f ∧ decode f ≠ none) → wire.IsFrame bad →
        decode bad = none → a ++ b = accepted.flatten ++ bad ++ behind →
        a.length < (accepted.flatten ++ bad).length → wire.next behind = .more := by
  have hs : ¬ s.uvIsClosing := fun hc => h.closing.mp hc ha
  have hb : b ≠ [] := by
    rintro rfl
    rw [List.append_nil] at hab
    exact hab ha
  have h' := h.deliver ha (b := b)
  have hd' := deliver_data decode hs hb
  constructor
  · intro hstop accepted bad behind hacc hbad hd heq hlen
    obtain ⟨hframes, hrest⟩ := frames_bad hacc hbad behind
    rw [← heq] at hframes hrest
    rw [Framing.next_eq_more_iff_frames]
    have hnil := hstop.rejected accepted bad _ (h'.handled.trans hframes) hd
    refine ⟨hnil, (wire.next_rest behind).resolve_right fun hr => ?_⟩
    -- the rejected frame and the refused header close the socket once each
    have hcount := count_uvClose_drained decode
      { s with readBuffer := s.readBuffer ++ b }
    dsimp only at hcount
    rw [← hd', h.readBuffer, ← (Framing.frames_append a b).2, hrest, if_pos hr] at hcount
    have hpos : 0 < (wire.frames (wire.rest a ++ b)).countP (decode · = none) := by
      rw [List.countP_pos_iff]
      refine ⟨bad, ?_, by simpa using hd⟩
      have hmem : bad ∈ wire.frames a ++ wire.frames (wire.rest a ++ b) := by
        rw [← (Framing.frames_append a b).1, hframes]
        exact List.mem_append_right _ List.mem_cons_self
      exact (List.mem_append.mp hmem).resolve_left fun hm => ha.1 bad hm hd
    have := hstop.once
    omega
  · intro hmore
    have hall (fs : List (List Byte)) (hfs : ∀ f ∈ fs, decode f ≠ none) :
        ∀ f ∈ (s.handleAll decode fs).handled, decode f ≠ none := by
      intro f hf
      rw [handled_handleAll, h.handled] at hf
      rcases List.mem_append.mp hf with hf | hf
      · exact ha.1 f hf
      · exact hfs f hf
    have hopen (fs : List (List Byte)) (hfs : ∀ f ∈ fs, decode f ≠ none) :
        ¬ (s.handleAll decode fs).uvIsClosing := by
      rw [uvIsClosing_handleAll]
      rintro (hc | ⟨f, hf, hd⟩)
      · exact hs hc
      · exact hfs f hf hd
    rw [hd', drained, handleAll_withBuffer, h.readBuffer]
    dsimp only
    by_cases hbad : ∃ f ∈ wire.frames (wire.rest a ++ b), decode f = none
    · obtain ⟨acc, bad, more, hsplit, hacc, hframe, hd⟩ :=
        exists_bad (fun f hf => Framing.isFrame_of_mem_frames hf) hbad
      have heq : a ++ b = (wire.frames a ++ acc).flatten ++ bad ++
          (more.flatten ++ wire.rest (wire.rest a ++ b)) := by
        conv_lhs => rw [← Framing.flatten_frames_append_rest (F := wire) (a ++ b),
          (Framing.frames_append a b).1, (Framing.frames_append a b).2, hsplit]
        simp
      have hacc' : ∀ f ∈ wire.frames a ++ acc, wire.IsFrame f ∧ decode f ≠ none := by
        intro f hf
        rcases List.mem_append.mp hf with hf | hf
        · exact ⟨Framing.isFrame_of_mem_frames hf, ha.1 f hf⟩
        · exact hacc f hf
      have hnext := hmore _ bad _ hacc' hframe hd heq (length_lt_of_clean ha hacc' hframe hd heq)
      have hnil : more = [] := by
        have hmem : ∀ f ∈ more, wire.IsFrame f := fun f hf =>
          Framing.isFrame_of_mem_frames (F := wire) (s := wire.rest a ++ b) (by simp [hsplit, hf])
        have := (Framing.next_eq_more_iff_frames.mp hnext).1
        rw [(Framing.frames_flatten_append hmem _).1] at this
        exact (List.append_eq_nil_iff.mp this).1
      subst hnil
      rw [List.flatten_nil, List.nil_append] at hnext
      rw [if_neg (by simp [hnext]), hsplit, handleAll, List.foldl_append, ← handleAll]
      have haccepted : ∀ f ∈ acc, decode f ≠ none := fun f hf => (hacc f hf).2
      exact (failStop_handleRequest (hopen acc haccepted) (hall acc haccepted) hd).congr rfl
    · have haccepted : ∀ f ∈ wire.frames (wire.rest a ++ b), decode f ≠ none :=
        fun f hf hd => hbad ⟨f, hf, hd⟩
      have hstop := failStop_of_accepted (hopen _ haccepted) (hall _ haccepted)
      split_ifs
      · exact hstop.2.congr rfl
      · exact hstop.1.congr rfl

theorem nothingBehind_nil (a : List Byte) : NothingBehind decode a [] := by
  intro seen chunk later accepted bad behind h
  simp at h

theorem nothingBehind_cons {a b : List Byte} {cs : List (List Byte)} :
    NothingBehind decode a (b :: cs) ↔
      (∀ (accepted : List (List Byte)) (bad behind : List Byte),
        (∀ f ∈ accepted, wire.IsFrame f ∧ decode f ≠ none) → wire.IsFrame bad →
        decode bad = none → a ++ b = accepted.flatten ++ bad ++ behind →
        a.length < (accepted.flatten ++ bad).length → wire.next behind = .more) ∧
      NothingBehind decode (a ++ b) cs := by
  constructor
  · intro h
    constructor
    · intro accepted bad behind hacc hbad hd heq hlen
      exact h [] b cs accepted bad behind rfl hacc hbad hd (by simpa using heq)
        (by simpa using hlen)
    · intro seen chunk later accepted bad behind hcs hacc hbad hd heq hlen
      refine h (b :: seen) chunk later accepted bad behind (by rw [hcs]; rfl) hacc hbad hd ?_ ?_
      · simpa using heq
      · simpa using hlen
  · rintro ⟨hhead, htail⟩ seen chunk later accepted bad behind hcs hacc hbad hd heq hlen
    cases seen with
    | nil =>
      obtain ⟨rfl, rfl⟩ := List.cons.inj hcs
      exact hhead accepted bad behind hacc hbad hd (by simpa using heq) (by simpa using hlen)
    | cons c seen =>
      obtain ⟨rfl, rfl⟩ := List.cons.inj hcs
      refine htail seen chunk later accepted bad behind rfl hacc hbad hd ?_ ?_
      · simpa using heq
      · simpa using hlen

theorem nothingBehind_of_not_clean {a : List Byte} {cs : List (List Byte)}
    (ha : ¬ Clean decode a) : NothingBehind decode a cs := by
  intro seen chunk later accepted bad behind _ hacc hbad hd heq hlen
  obtain ⟨hframes, -⟩ := frames_bad hacc hbad behind
  rw [← heq, List.append_assoc] at hframes
  -- the first rejected frame is within the stream that has been seen
  have hup : accepted ++ [bad] <+: wire.frames a := by
    rw [← upToRejected_bad (fun f hf => (hacc f hf).2) hd, ← hframes, upToRejected_frames_append ha]
    exact upToRejected_prefix _
  obtain ⟨more, hmore⟩ := hup
  have ha' := congrArg List.length (Framing.flatten_frames_append_rest (F := wire) a)
  rw [← hmore] at ha'
  simp only [List.flatten_append, List.flatten_cons, List.flatten_nil, List.length_append,
    List.append_nil] at ha' hlen
  omega

theorem Received.failStop_run_iff {a : List Byte} (h : Received decode a s) (ha : Clean decode a)
    (reads : List ReadResult) :
    FailStop decode (s.run decode reads) ↔ NothingBehind decode a (chunks reads) := by
  induction reads generalizing s a with
  | nil => exact iff_of_true (h.failStop ha).1 (nothingBehind_nil a)
  | cons r reads ih =>
    rw [ClientSession.run, List.foldl_cons, ← ClientSession.run]
    have hend (hr : s.deliver decode r = s.call .uvClose) :
        FailStop decode ((s.deliver decode r).run decode reads) := by
      have hclosing : (s.call .uvClose).uvIsClosing := by simp [uvIsClosing_iff, call]
      rw [hr, run_closing hclosing]
      exact (h.failStop ha).2
    have hs : ¬ s.uvIsClosing := fun hc => h.closing.mp hc ha
    cases r with
    | eof => exact iff_of_true (hend (if_neg hs)) (nothingBehind_nil a)
    | error => exact iff_of_true (hend (if_neg hs)) (nothingBehind_nil a)
    | data b =>
      rw [chunks, nothingBehind_cons]
      have h' := h.deliver ha (b := b)
      by_cases hab : Clean decode (a ++ b)
      · rw [ih h' hab]
        refine (and_iff_right ?_).symm
        intro accepted bad behind hacc hbad hd heq hlen
        have hlen' := length_lt_of_clean (b := []) hab hacc hbad hd (by simpa using heq)
        have hle := congrArg List.length heq
        simp only [List.length_append] at hle hlen'
        omega
      · rw [run_closing (h'.closing.mpr hab), h.failStop_deliver_iff ha hab]
        exact (and_iff_left (nothingBehind_of_not_clean hab)).symm

/-- A session stops at the first bad frame exactly if nothing is buffered behind it. -/
theorem failStop_iff_nothingBehind (decode : List Byte → Option MemoryRequest)
    (pageTracker : PageTracker) (sessionId : ℕ) (reads : List ReadResult) :
    FailStop decode ((new pageTracker sessionId).run decode reads) ↔
      NothingBehind decode [] (chunks reads) :=
  (received_new decode pageTracker sessionId).failStop_run_iff clean_nil reads

/-- An ALLOC is processed for a session that is closing, and a second rejected frame closes the
socket again. -/
theorem processed_after_close : ∃ allocator, SlabAllocator.new 4 2 (fun _ => 9) = .ok allocator ∧
    let decode (frame : List Byte) : Option MemoryRequest :=
      if frame.length = 5 then some { protocolVersion, op := .alloc, size := 1 } else none
    let s := (new (PageTracker.new allocator) 1).run decode
      [.data ([0, 0, 0, 0] ++ [1, 0, 0, 0, 7] ++ [0, 0, 0, 0])]
    s.calls = [.processRequest [0, 0, 0, 0], .uvClose, .processRequest [1, 0, 0, 0, 7],
      .processRequest [0, 0, 0, 0], .uvClose] ∧
      (s.pageTracker.allocations.lookup 1).isSome ∧ ¬ FailStop decode s := by
  refine ⟨_, rfl, rfl, rfl, fun h => ?_⟩
  exact absurd h.once (by decide)

end Framing

end ClientSession

end MemInfo
