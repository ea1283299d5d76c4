import MemInfo.Memclient.Network

/-! # Connections one after the other

The buffer of a `RemotePeer` outlives its connection. The frames of the next connection are
cut right exactly if the bytes of each one before ended with a frame.
-/

namespace MemInfo

open Lib

namespace PeerConnection

variable {decode : List Byte → Option MemoryResponse} {a b : List Byte}

theorem verified_append (ha : Clean decode a) :
    verified decode (a ++ b) = wire.frames a ++ verified decode (wire.rest a ++ b) := by
  rw [verified, (Framing.frames_append a b).1, List.takeWhile_append_of_pos]
  · rfl
  · exact fun f hf => Option.isSome_iff_ne_none.mpr (ha.1 f hf)

theorem verified_append_of_not_clean (ha : ¬ Clean decode a) :
    verified decode (a ++ b) = verified decode a := by
  rw [verified, verified, (Framing.frames_append a b).1, List.takeWhile_append]
  split_ifs with hall
  · have hrest : wire.next (wire.rest a) = .refused := by
      apply (not_clean_iff.mp ha).resolve_left
      rintro ⟨f, hf, hd⟩
      have hall' := List.takeWhile_eq_self_iff.mp
        ((List.takeWhile_prefix _).eq_of_length hall) f hf
      simp [hd] at hall'
    rw [(Framing.cut_refused (Framing.next_append_refused hrest b)).1, List.takeWhile_nil,
      List.append_nil, (List.takeWhile_prefix _).eq_of_length hall]
  · rfl

variable {c c₁ c₂ : PeerConnection}

theorem Drained.append (h : Drained decode { c with readBuffer := a } c₁) (ha : Clean decode a)
    (h' : Drained decode { c₁ with readBuffer := c₁.readBuffer ++ b } c₂) :
    Drained decode { c with readBuffer := a ++ b } c₂ := by
  rw [h.readBuffer ha] at h'
  have hclean : Clean decode (a ++ b) → Clean decode (wire.rest a ++ b) := ha.append_iff.mp
  constructor
  · exact h'.connected.trans h.connected
  · dsimp only
    rw [h'.dispatched, h.dispatched, verified_append ha, verified_of_clean ha, List.append_assoc]
  · exact fun hab => (h'.socket (hclean hab)).trans (h.socket ha)
  · exact fun hab => (h'.readBuffer (hclean hab)).trans (Framing.frames_append a b).2.symm
  · exact fun hab => h'.closing fun hcl => hab (ha.append_iff.mpr hcl)

theorem Drained.append_of_not_clean (h : Drained decode { c with readBuffer := a } c₁)
    (ha : ¬ Clean decode a) : Drained decode { c with readBuffer := a ++ b } c₁ := by
  have hab : ¬ Clean decode (a ++ b) := fun hcl => ha hcl.of_append
  constructor
  · exact h.connected
  · dsimp only
    rw [h.dispatched, verified_append_of_not_clean ha]
  · exact fun hcl => absurd hcl hab
  · exact fun hcl => absurd hcl hab
  · exact fun _ => h.closing ha

end PeerConnection

/-- A connection: the chunks that are read, and whether it ends with an error. -/
structure PeerSession where
  chunks : List (List Byte)
  failed : Bool

namespace PeerSession

def bytes (s : PeerSession) : List Byte := s.chunks.flatten

def events (p : ℕ) (s : PeerSession) : List NetworkEvent :=
  [.start p .inFlight, .connect p true] ++ s.chunks.map (fun chunk => .read p (.data chunk)) ++
    [.read p (if s.failed then .error else .eof)]

end PeerSession

namespace Network

open PeerConnection

variable {decode : List Byte → Option MemoryResponse} {n : Network} {p : ℕ}

def after (decode : List Byte → Option MemoryResponse) (n : Network) (p : ℕ)
    (sessions : List PeerSession) : PeerConnection :=
  (n.run decode (sessions.flatMap (PeerSession.events p))).connections p

/-- The frames that are dispatched during a connection are those of its own bytes. -/
def FreshFraming (decode : List Byte → Option MemoryResponse) (n : Network) (p : ℕ)
    (sessions : List PeerSession) : Prop :=
  ∀ before s later, sessions = before ++ s :: later →
    (n.after decode p (before ++ [s])).dispatched =
      (n.after decode p before).dispatched ++ verified decode s.bytes

theorem run_events_closing (hs : (n.connections p).socket = some .closing)
    {es : List NetworkEvent} (hes : ∀ e ∈ es,
      (∃ outcome, e = .start p outcome) ∨ (∃ ok, e = .connect p ok) ∨
        ∃ result, e = .read p result) :
    (n.run decode es).connections p = n.connections p := by
  induction es generalizing n with
  | nil => rfl
  | cons e es ih =>
    have hstep : (n.step decode e).connections p = n.connections p := by
      rcases hes e List.mem_cons_self with ⟨outcome, rfl⟩ | ⟨ok, rfl⟩ | ⟨result, rfl⟩
      · rw [connections_start]
        exact if_pos (by rw [hs]; rfl)
      · rw [connections_connect, onConnect, if_neg (by simp [hs])]
      · rw [connections_read, read_of_ne (by simp [hs])]
    rw [run_cons, ih (hstep ▸ hs) fun e' he' => hes e' (List.mem_cons_of_mem _ he'), hstep]

theorem run_chunks (decode : List Byte → Option MemoryResponse) {c : PeerConnection}
    (hc : n.connections p = c) (hs : c.socket = some .reading)
    (hb : wire.next c.readBuffer = .more) (chunks : List (List Byte)) :
    Drained decode { c with readBuffer := c.readBuffer ++ chunks.flatten }
      ((n.run decode (chunks.map fun chunk => .read p (.data chunk))).connections p) := by
  have hclean : Clean decode c.readBuffer := by
    simp [Clean, Framing.cut_more hb, hb]
  induction chunks generalizing n c with
  | nil =>
    subst hc
    rw [List.flatten_nil, List.append_nil]
    refine ⟨rfl, ?_, fun _ => rfl, fun _ => (Framing.cut_more hb).2.symm, fun h => absurd hclean h⟩
    simp [verified_of_clean hclean, (Framing.cut_more hb).1]
  | cons chunk chunks ih =>
    subst hc
    rw [List.map_cons, run_cons, List.flatten_cons, ← List.append_assoc]
    have hstep := connections_read decode n p (.data chunk)
    by_cases hnil : chunk = []
    · subst hnil
      rw [read_nil] at hstep
      rw [List.append_nil]
      exact ih hstep hs hb hclean
    obtain ⟨c₁, hc₁, hd⟩ := read_data decode p n.requests hs hnil
    rw [hc₁] at hstep
    by_cases hcl : Clean decode ((n.connections p).readBuffer ++ chunk)
    · have hb₁ : wire.next c₁.readBuffer = .more := by
        rw [hd.readBuffer hcl]
        exact hcl.2
      have hclean₁ : Clean decode c₁.readBuffer := by
        simp [Clean, Framing.cut_more hb₁, hb₁]
      exact hd.append hcl (ih hstep ((hd.socket hcl).trans hs) hb₁ hclean₁)
    · rw [run_events_closing, hstep]
      · exact hd.append_of_not_clean hcl
      · rw [hstep]
        exact hd.closing hcl
      · intro e he
        obtain ⟨b, -, rfl⟩ := List.mem_map.mp he
        exact .inr (.inr ⟨_, rfl⟩)

structure Ended (decode : List Byte → Option MemoryResponse) (c c' : PeerConnection)
    (bytes : List Byte) : Prop where
  dispatched : c'.dispatched = c.dispatched ++ verified decode (c.readBuffer ++ bytes)
  socket : Clean decode (c.readBuffer ++ bytes) → c'.socket = none
  readBuffer : Clean decode (c.readBuffer ++ bytes) →
    c'.readBuffer = wire.rest (c.readBuffer ++ bytes)
  closing : ¬ Clean decode (c.readBuffer ++ bytes) → c'.socket = some .closing

theorem run_session (hs : (n.connections p).socket = none)
    (hb : wire.next (n.connections p).readBuffer = .more) (s : PeerSession) :
    Ended decode (n.connections p) ((n.run decode (s.events p)).connections p) s.bytes := by
  have hconn : ((n.step decode (.start p .inFlight)).step decode (.connect p true)).connections p =
      { n.connections p with connected := true, socket := some .reading } := by
    rw [connections_connect, connections_start, PeerConnection.startConnect, if_neg (by simp [hs])]
    rfl
  have hd := run_chunks decode hconn rfl hb s.chunks
  rw [PeerSession.events, run_append, run_append, run_cons, run_cons, run_nil, run_cons, run_nil,
    connections_read]
  by_cases hcl : Clean decode ((n.connections p).readBuffer ++ s.bytes)
  · have hread : ∀ result, result = .error ∨ result = .eof → ∀ r c, c.socket = some .reading →
        (PeerConnection.read decode p (c, r) result).1 =
          { c with connected := false, socket := none } := by
      rintro result (rfl | rfl) r c hc
      · rw [PeerConnection.read, if_pos hc, PeerConnection.onPeerRead]
      · rw [PeerConnection.read, if_pos hc, PeerConnection.onPeerRead]
    rw [hread _ (by split_ifs <;> simp) _ _ (hd.socket hcl)]
    exact ⟨hd.dispatched, fun _ => rfl, fun _ => hd.readBuffer hcl, fun hnot => absurd hcl hnot⟩
  · rw [read_of_ne (by simp [hd.closing hcl])]
    exact ⟨hd.dispatched, fun h => absurd h hcl, fun h => absurd h hcl, fun _ => hd.closing hcl⟩

theorem after_append (ss : List PeerSession) (s : PeerSession) :
    n.after decode p (ss ++ [s]) =
      ((n.run decode (ss.flatMap (PeerSession.events p))).run decode
        (s.events p)).connections p := by
  rw [after, List.flatMap_append, run_append, List.flatMap_singleton]

structure Idle (c : PeerConnection) : Prop where
  socket : c.socket = none
  buffer : wire.next c.readBuffer = .more

theorem Idle.ended {ss : List PeerSession} (h : Idle (n.after decode p ss)) (s : PeerSession) :
    Ended decode (n.after decode p ss) (n.after decode p (ss ++ [s])) s.bytes := by
  rw [after_append]
  exact run_session h.socket h.buffer s

theorem after_closing {ss : List PeerSession}
    (h : (n.after decode p ss).socket = some .closing) (s : PeerSession) :
    n.after decode p (ss ++ [s]) = n.after decode p ss := by
  rw [after_append]
  refine run_events_closing h fun e he => ?_
  rw [PeerSession.events, List.mem_append, List.mem_append] at he
  rcases he with (he | he) | he
  · rcases List.mem_pair.mp he with rfl | rfl
    · exact .inl ⟨_, rfl⟩
    · exact .inr (.inl ⟨_, rfl⟩)
  · obtain ⟨chunk, -, rfl⟩ := List.mem_map.mp he
    exact .inr (.inr ⟨_, rfl⟩)
  · obtain rfl := List.mem_singleton.mp he
    exact .inr (.inr ⟨_, rfl⟩)

theorem idle_or_closing (hnew : n.connections p = {}) (ss : List PeerSession) :
    Idle (n.after decode p ss) ∨ (n.after decode p ss).socket = some .closing := by
  induction ss using List.reverseRecOn with
  | nil =>
    left
    rw [after, List.flatMap_nil, run_nil, hnew]
    exact ⟨rfl, Framing.next_nil⟩
  | append_singleton ss s ih =>
    rcases ih with ih | ih
    · have he := ih.ended s
      by_cases hcl : Clean decode ((n.after decode p ss).readBuffer ++ s.bytes)
      · left
        constructor
        · exact he.socket hcl
        · rw [he.readBuffer hcl]
          exact hcl.2
      · exact .inr (he.closing hcl)
    · right
      rw [after_closing ih]
      exact ih

theorem FreshFraming.of_append {ss ts : List PeerSession}
    (h : FreshFraming decode n p (ss ++ ts)) : FreshFraming decode n p ss := by
  rintro before s later rfl
  exact h before s (later ++ ts) (by simp)

theorem FreshFraming.last {ss : List PeerSession} {s : PeerSession}
    (h : FreshFraming decode n p (ss ++ [s])) :
    (n.after decode p (ss ++ [s])).dispatched =
      (n.after decode p ss).dispatched ++ verified decode s.bytes := h ss s [] rfl

theorem freshFraming_concat {ss : List PeerSession} {s : PeerSession}
    (h : FreshFraming decode n p ss) (hs : (n.after decode p (ss ++ [s])).dispatched =
      (n.after decode p ss).dispatched ++ verified decode s.bytes) :
    FreshFraming decode n p (ss ++ [s]) := by
  intro before s' later heq
  rcases List.eq_nil_or_concat later with rfl | ⟨later, x, rfl⟩
  · obtain ⟨rfl, he⟩ := List.append_inj' heq rfl
    obtain rfl := (List.cons.inj he).1
    exact hs
  · rw [List.concat_eq_append, ← List.cons_append, ← List.append_assoc] at heq
    obtain ⟨rfl, -⟩ := List.append_inj' heq rfl
    exact h before s' later rfl

theorem length_readBuffer (hnew : n.connections p = {}) {ss : List PeerSession}
    (hclean : ∀ s ∈ ss, Clean decode s.bytes) (hfresh : FreshFraming decode n p ss)
    (hidle : Idle (n.after decode p ss)) :
    (n.after decode p ss).readBuffer.length = (ss.map fun s => (wire.rest s.bytes).length).sum := by
  induction ss using List.reverseRecOn with
  | nil => rw [after, List.flatMap_nil, run_nil, hnew]; rfl
  | append_singleton ss s ih =>
    have hprev : Idle (n.after decode p ss) := by
      refine (idle_or_closing hnew ss).resolve_right fun hcl => ?_
      have := hidle.socket
      rw [after_closing hcl, hcl] at this
      cases this
    have he := hprev.ended s
    have hcl : Clean decode ((n.after decode p ss).readBuffer ++ s.bytes) := by
      by_contra hnot
      have := he.closing hnot
      rw [hidle.socket] at this
      cases this
    have hframes : wire.frames ((n.after decode p ss).readBuffer ++ s.bytes) =
        wire.frames s.bytes := by
      have heq := he.dispatched.symm.trans hfresh.last
      rw [verified_of_clean hcl, verified_of_clean (hclean s (by simp))] at heq
      exact List.append_cancel_left heq
    -- both are cut into the same frames
    have hall := congrArg List.length (Framing.flatten_frames_append_rest (F := wire)
      ((n.after decode p ss).readBuffer ++ s.bytes))
    have hown := congrArg List.length (Framing.flatten_frames_append_rest (F := wire) s.bytes)
    rw [hframes] at hall
    have ih' := ih (fun s' hs' => hclean s' (List.mem_append_left _ hs')) hfresh.of_append hprev
    rw [he.readBuffer hcl, List.map_append, List.sum_append, List.map_singleton,
      List.sum_singleton, ← ih']
    simp only [List.length_append] at hall hown
    omega

theorem verified_isFrame {f : List Byte} (hf : wire.IsFrame f) (hd : decode f ≠ none) :
    verified decode f = [f] := by
  have hcut := Framing.cut_frame (F := wire) (s := f) (f := f) (r := [])
    (Framing.next_eq_frame_iff.mpr ⟨(List.append_nil f).symm, hf⟩)
  have hsome : (decode f).isSome := Option.isSome_iff_ne_none.mpr hd
  rw [verified, hcut.1, (Framing.cut_more Framing.next_nil).1, List.takeWhile_cons, if_pos hsome,
    List.takeWhile_nil]

theorem exists_not_fresh {f : List Byte} (hf : wire.IsFrame f) (hd : decode f ≠ none)
    {ss : List PeerSession} (h : Idle (n.after decode p ss))
    (hleft : (n.after decode p ss).readBuffer ≠ []) :
    ∃ next, ¬ FreshFraming decode n p (ss ++ [next]) := by
  obtain ⟨left, hl⟩ : ∃ left, left = (n.after decode p ss).readBuffer := ⟨_, rfl⟩
  have hmore := h.buffer
  rw [← hl] at hmore hleft
  by_cases hpre : left <+: f
  · -- the rest of the frame completes it, but is not a frame itself
    obtain ⟨v, hv⟩ := hpre
    refine ⟨⟨[v], false⟩, fun hfresh => ?_⟩
    have heq := (h.ended ⟨[v], false⟩).dispatched.symm.trans hfresh.last
    rw [← hl, PeerSession.bytes, List.flatten_singleton, hv, verified_isFrame hf hd] at heq
    have hframes : f ∈ wire.frames v := by
      have : f ∈ verified decode v := List.append_cancel_left heq ▸ List.mem_cons_self
      exact (List.takeWhile_prefix _).subset this
    have hlen := congrArg List.length (Framing.flatten_frames_append_rest (F := wire) v)
    have hle := (List.sublist_flatten_of_mem hframes).length_le
    have hpos := List.length_pos_iff.mpr hleft
    have hfl := congrArg List.length hv
    rw [List.length_append] at hlen hfl
    omega
  · refine ⟨⟨[f], false⟩, fun hfresh => ?_⟩
    have heq := (h.ended ⟨[f], false⟩).dispatched.symm.trans hfresh.last
    rw [← hl, PeerSession.bytes, List.flatten_singleton, verified_isFrame hf hd] at heq
    have hv := List.append_cancel_left heq
    cases hn : wire.next (left ++ f) with
    | more => simp [verified, (Framing.cut_more hn).1] at hv
    | refused => simp [verified, (Framing.cut_refused hn).1] at hv
    | frame g r =>
      rw [verified, (Framing.cut_frame hn).1, List.takeWhile_cons] at hv
      split_ifs at hv
      obtain rfl := (List.cons.inj hv).1
      exact hpre (Framing.prefix_of_next_append hmore hn).1

/-- Every connection is cut into its own frames exactly if those before it ended with one. -/
theorem fresh_framing_iff {f : List Byte} (hf : wire.IsFrame f) (hd : decode f ≠ none)
    (hnew : n.connections p = {}) {sessions : List PeerSession}
    (hclean : ∀ s ∈ sessions, Clean decode s.bytes) :
    (∀ next, FreshFraming decode n p (sessions ++ [next])) ↔
      ∀ s ∈ sessions, wire.rest s.bytes = [] := by
  constructor
  · intro h s hs
    have hidle : Idle (n.after decode p sessions) := by
      refine (idle_or_closing hnew sessions).resolve_right fun hcl => ?_
      have heq := (h ⟨[f], false⟩).last
      rw [after_closing hcl, PeerSession.bytes, List.flatten_singleton,
        verified_isFrame hf hd] at heq
      simp at heq
    have hnil : (n.after decode p sessions).readBuffer = [] := by
      by_contra hleft
      obtain ⟨next, hnext⟩ := exists_not_fresh hf hd hidle hleft
      exact hnext (h next)
    have hsum := length_readBuffer hnew hclean (h ⟨[], false⟩).of_append hidle
    rw [hnil, List.length_nil, eq_comm, List.sum_eq_zero_iff_forall_eq_nat] at hsum
    exact List.length_eq_zero_iff.mp (hsum _ (List.mem_map_of_mem hs))
  · intro h
    -- between the connections the buffer is empty
    have hall (ss : List PeerSession) (hcl : ∀ s ∈ ss, Clean decode s.bytes)
        (hrest : ∀ s ∈ ss, wire.rest s.bytes = []) :
        FreshFraming decode n p ss ∧ Idle (n.after decode p ss) ∧
          (n.after decode p ss).readBuffer = [] := by
      induction ss using List.reverseRecOn with
      | nil =>
        rw [after, List.flatMap_nil, run_nil, hnew]
        refine ⟨?_, ⟨rfl, Framing.next_nil⟩, rfl⟩
        intro before s later heq
        simp at heq
      | append_singleton ss s ih =>
        obtain ⟨ih₁, ih₂, ih₃⟩ := ih (fun s' hs' => hcl s' (List.mem_append_left _ hs'))
          fun s' hs' => hrest s' (List.mem_append_left _ hs')
        have he := ih₂.ended s
        obtain ⟨hdisp, hsock, hbuf, -⟩ := he
        rw [ih₃, List.nil_append] at hdisp hsock hbuf
        have hs := hcl s (by simp)
        have hnil : (n.after decode p (ss ++ [s])).readBuffer = [] := by
          rw [hbuf hs]
          exact hrest s (by simp)
        refine ⟨freshFraming_concat ih₁ hdisp, ⟨hsock hs, ?_⟩, hnil⟩
        rw [hnil]
        exact Framing.next_nil
    intro next
    obtain ⟨hfresh, hidle, hnil⟩ := hall sessions hclean h
    have hdisp := (hidle.ended next).dispatched
    rw [hnil, List.nil_append] at hdisp
    exact freshFraming_concat hfresh hdisp

def acceptSeven (bytes : List Byte) : Option MemoryResponse :=
  if bytes = [1, 0, 0, 0, 7] then some { requestId := 7 } else none

theorem fresh_framing_whole_frame :
    FreshFraming acceptSeven {} 0
      [⟨[[1, 0, 0], [0, 7]], false⟩, ⟨[[1, 0], [0, 0, 7, 1]], true⟩] := by
  have hclean : ∀ s ∈ [(⟨[[1, 0, 0], [0, 7]], false⟩ : PeerSession)],
      Clean acceptSeven s.bytes := by
    simp only [List.mem_singleton, forall_eq]
    exact ⟨by decide, by decide⟩
  have hframe : wire.IsFrame [1, 0, 0, 0, 7] := ⟨by decide, by decide, by decide⟩
  exact (fresh_framing_iff hframe (by decide) rfl hclean).mpr (by decide) _

/-- Three bytes of a frame are left over, and the frame of the next connection is lost. -/
theorem frame_lost_after_reconnect :
    ¬ FreshFraming acceptSeven {} 0 [⟨[[1, 0, 0]], false⟩, ⟨[[1, 0, 0, 0, 7]], false⟩] := by
  intro h
  have heq := h [⟨[[1, 0, 0]], false⟩] ⟨[[1, 0, 0, 0, 7]], false⟩ [] rfl
  revert heq
  decide

end Network

end MemInfo
