import Mathlib.Data.List.Induction
import Mathlib.Data.List.TakeWhile
import MemInfo.Common.Frames
import MemInfo.Memclient.Requests

/-! # The network thread

A `RemotePeer` keeps the socket of its connection and the bytes that are not yet a frame. The
discovery thread queues the peers that are not connected; all the rest is done by the
callbacks of libuv.
-/

namespace MemInfo

open Lib

/-- The state of the handle that `peer->socket` points to. -/
inductive Socket where
  | connecting
  | reading
  | closing
  deriving DecidableEq, Repr

/-- What the network thread keeps of a `RemotePeer`. -/
structure PeerConnection where
  socket : Option Socket := none
  connected : Bool := false
  readBuffer : List Byte := []
  /-- The frames that were looked up in the table of requests. -/
  dispatched : List (List Byte) := []
  deriving DecidableEq, Repr

/-- How far an attempt to connect gets before the loop takes over. -/
inductive ConnectStart where
  | initFails
  | unusableAddress
  | connectFails
  | inFlight
  deriving DecidableEq, Repr

namespace PeerConnection

def startConnect (c : PeerConnection) (outcome : ConnectStart) : PeerConnection :=
  if c.socket.isSome then c
  else
    match outcome with
    | .initFails => c
    | .unusableAddress => { c with socket := none }
    | .connectFails => { c with socket := none }
    | .inFlight => { c with socket := some .connecting }

/-- The callback of `uv_tcp_connect`, which runs once for an attempt. -/
def onConnect (c : PeerConnection) (success : Bool) : PeerConnection :=
  if c.socket = some .connecting then
    if success then { c with connected := true, socket := some .reading }
    else { c with socket := none }
  else c

/-- The loop of `on_peer_read`; `none` if it has not ended after so many rounds. -/
def readFrames (decode : List Byte → Option MemoryResponse) (peer : ℕ) :
    ℕ → PeerConnection × Requests → Option (PeerConnection × Requests)
  | 0, _ => none
  | rounds + 1, (c, r) =>
    if c.readBuffer.length ≥ 4 then
      let msgSize := getPrefixedSize c.readBuffer
      if msgSize > 64 * 1024 * 1024 then some ({ c with socket := some .closing }, r)
      else if c.readBuffer.length - 4 ≥ msgSize then
        let frame := c.readBuffer.take (msgSize + 4)
        match decode frame with
        | none => some ({ c with socket := some .closing }, r)
        | some _ =>
          readFrames decode peer rounds
            ({ c with
                readBuffer := c.readBuffer.drop (msgSize + 4)
                dispatched := c.dispatched ++ [frame] },
              r.dispatch decode peer frame)
      else some (c, r)
    else some (c, r)

def onPeerRead (decode : List Byte → Option MemoryResponse) (peer : ℕ)
    (s : PeerConnection × Requests) : ReadResult → PeerConnection × Requests
  | .data bytes =>
    if bytes.length > 0 then
      let c := { s.1 with readBuffer := s.1.readBuffer ++ bytes }
      (readFrames decode peer (c.readBuffer.length + 1) (c, s.2)).getD (c, s.2)
    else s
  | .eof => ({ s.1 with connected := false, socket := none }, s.2.failPendingRequests peer)
  | .error => ({ s.1 with connected := false, socket := none }, s.2.failPendingRequests peer)

/-- libuv reads only from a stream that is connected and not closing. -/
def read (decode : List Byte → Option MemoryResponse) (peer : ℕ) (s : PeerConnection × Requests)
    (result : ReadResult) : PeerConnection × Requests :=
  if s.1.socket = some .reading then onPeerRead decode peer s result else s

end PeerConnection

structure Network where
  connections : ℕ → PeerConnection := fun _ => {}
  pendingConnects : List ℕ := []
  requests : Requests := {}

inductive NetworkEvent where
  | discover (peers : List ℕ)
  | drain (outcome : ℕ → ConnectStart)
  | start (peer : ℕ) (outcome : ConnectStart)
  | connect (peer : ℕ) (success : Bool)
  | read (peer : ℕ) (result : ReadResult)
  | draw
  | call (peer requestId : ℕ)
  | wake (context : ℕ)

namespace Network

def setConnection (n : Network) (peer : ℕ) (c : PeerConnection) : Network :=
  { n with connections := Function.update n.connections peer c }

/-- The endpoints that discoveryd lists are queued if they are not connected. -/
def connectToPeers (n : Network) (peers : List ℕ) : Network :=
  { n with pendingConnects :=
      n.pendingConnects ++ peers.filter fun p => !(n.connections p).connected }

def startConnect (n : Network) (peer : ℕ) (outcome : ConnectStart) : Network :=
  n.setConnection peer ((n.connections peer).startConnect outcome)

def drainPendingConnects (n : Network) (outcome : ℕ → ConnectStart) : Network :=
  n.pendingConnects.zipIdx.foldl (fun n (peer, i) => n.startConnect peer (outcome i))
    { n with pendingConnects := [] }

def onPeerRead (decode : List Byte → Option MemoryResponse) (n : Network) (peer : ℕ)
    (result : ReadResult) : Network :=
  let s := PeerConnection.read decode peer (n.connections peer, n.requests) result
  { n.setConnection peer s.1 with requests := s.2 }

def step (decode : List Byte → Option MemoryResponse) (n : Network) : NetworkEvent → Network
  | .discover peers => n.connectToPeers peers
  | .drain outcome => n.drainPendingConnects outcome
  | .start peer outcome => n.startConnect peer outcome
  | .connect peer success => n.setConnection peer ((n.connections peer).onConnect success)
  | .read peer result => n.onPeerRead decode peer result
  | .draw => { n with requests := n.requests.step decode .draw }
  | .call peer requestId => { n with requests := n.requests.step decode (.call peer requestId) }
  | .wake i => { n with requests := n.requests.step decode (.wake i) }

def run (decode : List Byte → Option MemoryResponse) (n : Network) (events : List NetworkEvent) :
    Network := events.foldl (step decode) n

end Network

namespace PeerConnection

variable {decode : List Byte → Option MemoryResponse} {peer : ℕ} {c : PeerConnection}
  {r : Requests}

/-- The frames of a stream up to the first one that the verifier rejects. -/
def verified (decode : List Byte → Option MemoryResponse) (stream : List Byte) :
    List (List Byte) := (wire.frames stream).takeWhile fun f => (decode f).isSome

theorem verified_of_clean {stream : List Byte} (h : Clean decode stream) :
    verified decode stream = wire.frames stream :=
  List.takeWhile_eq_self_iff.mpr fun f hf => Option.isSome_iff_ne_none.mpr (h.1 f hf)

theorem readFrames_succ (rounds : ℕ) : readFrames decode peer (rounds + 1) (c, r) =
    match wire.next c.readBuffer with
    | .more => some (c, r)
    | .refused => some ({ c with socket := some .closing }, r)
    | .frame f rest =>
      match decode f with
      | none => some ({ c with socket := some .closing }, r)
      | some _ => readFrames decode peer rounds
          ({ c with readBuffer := rest, dispatched := c.dispatched ++ [f] },
            r.dispatch decode peer f) := by
  rw [readFrames, next_wire]
  by_cases h₁ : c.readBuffer.length < 4
  · rw [if_neg (Nat.not_le.mpr h₁), if_pos h₁]
  rw [if_pos (Nat.not_lt.mp h₁), if_neg h₁]
  by_cases h₂ : maxMessageSize < getPrefixedSize c.readBuffer
  · rw [if_pos h₂]
    exact if_pos h₂
  rw [if_neg h₂]
  apply (if_neg h₂).trans
  by_cases h₃ : 4 + getPrefixedSize c.readBuffer ≤ c.readBuffer.length
  · rw [if_pos h₃, if_pos (Nat.le_sub_of_add_le' h₃), Nat.add_comm]
  · rw [if_neg h₃, if_neg (by omega)]

structure Drained (decode : List Byte → Option MemoryResponse) (c c' : PeerConnection) : Prop where
  connected : c'.connected = c.connected
  dispatched : c'.dispatched = c.dispatched ++ verified decode c.readBuffer
  socket : Clean decode c.readBuffer → c'.socket = c.socket
  readBuffer : Clean decode c.readBuffer → c'.readBuffer = wire.rest c.readBuffer
  closing : ¬ Clean decode c.readBuffer → c'.socket = some .closing

theorem readFrames_spec (decode : List Byte → Option MemoryResponse) (peer : ℕ) (r : Requests)
    {rounds : ℕ} (h : c.readBuffer.length < rounds) :
    ∃ c', readFrames decode peer rounds (c, r) = some (c',
      (verified decode c.readBuffer).foldl (fun r f => r.dispatch decode peer f) r) ∧
      Drained decode c c' := by
  induction rounds generalizing c r with
  | zero => exact absurd h (Nat.not_lt_zero _)
  | succ rounds ih =>
    rw [readFrames_succ]
    cases hn : wire.next c.readBuffer with
    | more =>
      obtain ⟨hf, hr⟩ := Framing.cut_more hn
      have hclean : Clean decode c.readBuffer := by simp [Clean, hf, hr, hn]
      have hv : verified decode c.readBuffer = [] := by rw [verified_of_clean hclean, hf]
      refine ⟨c, by rw [hv]; rfl, rfl, by simp [hv], fun _ => rfl, fun _ => hr.symm, ?_⟩
      exact fun hnot => absurd hclean hnot
    | refused =>
      obtain ⟨hf, hr⟩ := Framing.cut_refused hn
      have hnot : ¬ Clean decode c.readBuffer := by simp [Clean, hr, hn]
      have hv : verified decode c.readBuffer = [] := by simp [verified, hf]
      exact ⟨{ c with socket := some .closing }, by rw [hv]; rfl, rfl, by simp [hv],
        fun hc => absurd hc hnot, fun hc => absurd hc hnot, fun _ => rfl⟩
    | frame f rest =>
      obtain ⟨hb, hframe⟩ := Framing.next_eq_frame_iff.mp hn
      obtain ⟨hf, hr⟩ := Framing.cut_frame hn
      dsimp only
      cases hd : decode f with
      | none =>
        have hnot : ¬ Clean decode c.readBuffer := fun hc =>
          hc.1 f (hf ▸ List.mem_cons_self) hd
        have hv : verified decode c.readBuffer = [] := by simp [verified, hf, hd]
        exact ⟨{ c with socket := some .closing }, by rw [hv]; rfl, rfl, by simp [hv],
          fun hc => absurd hc hnot, fun hc => absurd hc hnot, fun _ => rfl⟩
      | some resp =>
        have hpos := hframe.pos
        rw [hb, List.length_append] at h
        have hv : verified decode c.readBuffer = f :: verified decode rest := by
          simp [verified, hf, hd]
        have hclean : Clean decode c.readBuffer ↔ Clean decode rest := by
          rw [Clean, Clean, hf, hr]
          simp [hd]
        obtain ⟨c', hc', hs⟩ := ih (r.dispatch decode peer f)
          (c := { c with readBuffer := rest, dispatched := c.dispatched ++ [f] })
          (by dsimp only; omega)
        refine ⟨c', by rw [hv]; exact hc', hs.connected, ?_, ?_, ?_, ?_⟩
        · rw [hs.dispatched, hv]
          simp
        · exact fun hc => hs.socket (hclean.mp hc)
        · exact fun hc => (hs.readBuffer (hclean.mp hc)).trans hr.symm
        · exact fun hc => hs.closing fun hc' => hc (hclean.mpr hc')

theorem read_data (decode : List Byte → Option MemoryResponse) (peer : ℕ) (r : Requests)
    {bytes : List Byte} (hs : c.socket = some .reading) (hb : bytes ≠ []) :
    ∃ c', read decode peer (c, r) (.data bytes) =
      (c', (verified decode (c.readBuffer ++ bytes)).foldl
        (fun r f => r.dispatch decode peer f) r) ∧
      Drained decode { c with readBuffer := c.readBuffer ++ bytes } c' := by
  obtain ⟨c', hc', hd⟩ := readFrames_spec decode peer r
    (c := { c with readBuffer := c.readBuffer ++ bytes }) (Nat.lt_succ_self _)
  refine ⟨c', ?_, hd⟩
  rw [read, if_pos hs, onPeerRead, if_pos (List.length_pos_iff.mpr hb)]
  dsimp only at hc' ⊢
  rw [hc']
  rfl

theorem read_of_ne (hs : c.socket ≠ some .reading) (result : ReadResult) :
    read decode peer (c, r) result = (c, r) := if_neg hs

theorem read_nil : read decode peer (c, r) (.data []) = (c, r) := by
  unfold read
  split_ifs <;> rfl

structure Phase (c : PeerConnection) : Prop where
  connected : c.connected = true ↔ c.socket = some .reading ∨ c.socket = some .closing
  buffer : c.socket ≠ some .closing → wire.next c.readBuffer = .more

theorem phase_new : Phase {} := by
  constructor
  · simp
  · exact fun _ => Framing.next_nil

theorem Phase.startConnect (h : Phase c) (outcome : ConnectStart) :
    Phase (c.startConnect outcome) := by
  obtain ⟨socket, connected, buffer, dispatched⟩ := c
  obtain ⟨hconn, hbuf⟩ := h
  unfold PeerConnection.startConnect
  cases socket with
  | some s => exact ⟨hconn, hbuf⟩
  | none =>
    cases outcome with
    | initFails => exact ⟨hconn, hbuf⟩
    | unusableAddress => exact ⟨hconn, hbuf⟩
    | connectFails => exact ⟨hconn, hbuf⟩
    | inFlight => exact ⟨by simpa using hconn, fun _ => hbuf (by simp)⟩

theorem Phase.onConnect (h : Phase c) (success : Bool) : Phase (c.onConnect success) := by
  unfold PeerConnection.onConnect
  split_ifs with hs hok
  · exact ⟨by simp, fun _ => h.buffer (by simp [hs])⟩
  · have hconn := h.connected
    rw [hs] at hconn
    exact ⟨by simpa using hconn, fun _ => h.buffer (by simp [hs])⟩
  · exact h

theorem Phase.read (h : Phase c) (result : ReadResult) :
    Phase (PeerConnection.read decode peer (c, r) result).1 := by
  by_cases hs : c.socket = some .reading
  swap
  · rw [read_of_ne hs]
    exact h
  have hend : Phase { c with connected := false, socket := none } :=
    ⟨by simp, fun _ => h.buffer (by simp [hs])⟩
  cases result with
  | eof => rwa [PeerConnection.read, if_pos hs]
  | error => rwa [PeerConnection.read, if_pos hs]
  | data bytes =>
    by_cases hb : bytes = []
    · subst hb
      rwa [read_nil]
    obtain ⟨c', hc', hd⟩ := read_data decode peer r hs hb
    rw [hc']
    by_cases hclean : Clean decode (c.readBuffer ++ bytes)
    · have hs' : c'.socket = some .reading := (hd.socket hclean).trans hs
      constructor
      · rw [hd.connected, hs']
        simp [h.connected, hs]
      · rw [hd.readBuffer hclean]
        exact fun _ => hclean.2
    · constructor
      · rw [hd.connected, hd.closing hclean]
        simp [h.connected, hs]
      · exact fun hne => absurd (hd.closing hclean) hne

theorem startConnect_ne_closing {outcome : ConnectStart} (h : c.socket ≠ some .closing) :
    (c.startConnect outcome).socket ≠ some .closing := by
  unfold startConnect
  split_ifs
  · exact h
  · cases outcome <;> simp_all

theorem onConnect_ne_closing {success : Bool} (h : c.socket ≠ some .closing) :
    (c.onConnect success).socket ≠ some .closing := by
  unfold onConnect
  split_ifs <;> simp_all

theorem read_ne_closing {result : ReadResult} (h : c.socket ≠ some .closing)
    (hclean : ∀ bytes, result = .data bytes → c.socket = some .reading →
      Clean decode (c.readBuffer ++ bytes)) :
    (read decode peer (c, r) result).1.socket ≠ some .closing := by
  by_cases hs : c.socket = some .reading
  swap
  · rwa [read_of_ne hs]
  cases result with
  | eof => simp [read, hs, onPeerRead]
  | error => simp [read, hs, onPeerRead]
  | data bytes =>
    by_cases hb : bytes = []
    · subst hb
      rwa [read_nil]
    obtain ⟨c', hc', hd⟩ := read_data decode peer r hs hb
    rw [hc', hd.socket (hclean bytes rfl hs)]
    exact h

/-- The chunk completes a frame that the verifier rejects, or a prefix above the limit. -/
def Breaks (decode : List Byte → Option MemoryResponse) (c : PeerConnection) (bytes : List Byte) :
    Prop := c.socket = some .reading ∧ ¬ Clean decode (c.readBuffer ++ bytes)

/-- A peer that counts as connected has a socket that is open, and any other can be connected
again as soon as no attempt is under way. -/
structure Usable (c : PeerConnection) : Prop where
  connected : c.connected = true → ∃ s, c.socket = some s ∧ s ≠ .closing
  otherwise : c.connected = false → c.socket = none ∨ c.socket = some .connecting

theorem Phase.down (h : Phase c) (hdown : c.connected = false) :
    c.socket = none ∨ c.socket = some .connecting := by
  have hnot : ¬ (c.socket = some .reading ∨ c.socket = some .closing) := by
    rw [← h.connected, hdown]
    simp
  cases hs : c.socket with
  | none => exact .inl rfl
  | some s => cases s <;> simp_all

theorem Phase.usable_iff (h : Phase c) : Usable c ↔ c.socket ≠ some .closing := by
  constructor
  · rintro ⟨hconn, hother⟩ hs
    obtain ⟨s, hs', hne⟩ := hconn (h.connected.mpr (.inr hs))
    rw [hs] at hs'
    exact hne (Option.some.inj hs').symm
  · intro hs
    constructor
    · intro hc
      exact ⟨.reading, (h.connected.mp hc).resolve_right hs, by simp⟩
    · exact h.down

theorem Phase.startConnect_inFlight (h : Phase c) (hdown : c.connected = false) :
    (c.startConnect .inFlight).socket = some .connecting := by
  rcases h.down hdown with hs | hs
  all_goals simp [PeerConnection.startConnect, hs]

end PeerConnection

namespace Network

open PeerConnection

variable {decode : List Byte → Option MemoryResponse} {n : Network} {p : ℕ}

@[simp] theorem run_nil : n.run decode [] = n := rfl

@[simp] theorem run_cons (e : NetworkEvent) (es : List NetworkEvent) :
    n.run decode (e :: es) = (n.step decode e).run decode es := rfl

theorem run_append (es fs : List NetworkEvent) :
    n.run decode (es ++ fs) = (n.run decode es).run decode fs := List.foldl_append

theorem step_connections {I : PeerConnection → Prop} (e : NetworkEvent)
    (hstart : ∀ c outcome, I c → I (c.startConnect outcome))
    (hconnect : ∀ c success, I c → I (c.onConnect success))
    (hread : ∀ result, e = .read p result → I (n.connections p) →
      I (PeerConnection.read decode p (n.connections p, n.requests) result).1)
    (h : I (n.connections p)) : I ((n.step decode e).connections p) := by
  have hset {n : Network} {q : ℕ} {c : PeerConnection} (h : I (n.connections p))
      (hc : p = q → I c) : I ((n.setConnection q c).connections p) := by
    unfold setConnection
    by_cases hq : p = q
    · subst hq
      simpa using hc rfl
    · simpa [hq] using h
  cases e with
  | discover peers => exact h
  | drain outcome =>
    have hfold (es : List (ℕ × ℕ)) (n : Network) (h : I (n.connections p)) :
        I ((es.foldl (fun n (peer, i) => n.startConnect peer (outcome i)) n).connections p) := by
      induction es generalizing n with
      | nil => exact h
      | cons e es ih => exact ih _ (hset h fun hq => hstart _ _ (hq ▸ h))
    exact hfold _ { n with pendingConnects := [] } h
  | start q outcome => exact hset h fun hq => hstart _ _ (hq ▸ h)
  | connect q success => exact hset h fun hq => hconnect _ _ (hq ▸ h)
  | read q result =>
    refine hset h fun hq => ?_
    subst hq
    exact hread result rfl h
  | draw => exact h
  | call q id => exact h
  | wake i => exact h

theorem phase_run (decode : List Byte → Option MemoryResponse) (hn : Phase (n.connections p))
    (events : List NetworkEvent) : Phase ((n.run decode events).connections p) := by
  induction events generalizing n with
  | nil => exact hn
  | cons e es ih =>
    exact ih (step_connections e (fun _ o hc => hc.startConnect o) (fun _ b hc => hc.onConnect b)
      (fun result _ hc => hc.read result) hn)

theorem connections_read (decode : List Byte → Option MemoryResponse) (n : Network) (p : ℕ)
    (result : ReadResult) :
    (n.step decode (.read p result)).connections p =
      (PeerConnection.read decode p (n.connections p, n.requests) result).1 :=
  Function.update_self ..

theorem connections_start (decode : List Byte → Option MemoryResponse) (n : Network) (p : ℕ)
    (outcome : ConnectStart) :
    (n.step decode (.start p outcome)).connections p = (n.connections p).startConnect outcome :=
  Function.update_self ..

theorem connections_connect (decode : List Byte → Option MemoryResponse) (n : Network) (p : ℕ)
    (success : Bool) :
    (n.step decode (.connect p success)).connections p = (n.connections p).onConnect success :=
  Function.update_self ..

theorem connections_of_closing (decode : List Byte → Option MemoryResponse)
    (h : (n.connections p).socket = some .closing) (e : NetworkEvent) :
    (n.step decode e).connections p = n.connections p := by
  refine step_connections (I := fun c => c = n.connections p) e ?_ ?_ ?_ rfl
  · rintro c outcome rfl
    simp [PeerConnection.startConnect, h]
  · rintro c success rfl
    simp [PeerConnection.onConnect, h]
  · intro result _ _
    rw [read_of_ne (by simp [h])]

theorem closing_step (hphase : Phase (n.connections p)) (e : NetworkEvent) :
    ((n.step decode e).connections p).socket = some .closing ↔
      (n.connections p).socket = some .closing ∨
        ∃ bytes, e = .read p (.data bytes) ∧ Breaks decode (n.connections p) bytes := by
  constructor
  · intro h
    by_contra! hnot
    refine step_connections (I := fun c => c.socket ≠ some .closing) e
      (fun _ _ => startConnect_ne_closing) (fun _ _ => onConnect_ne_closing) ?_ hnot.1 h
    rintro result rfl hne
    refine read_ne_closing hne fun bytes hr hs => ?_
    by_contra hbad
    exact hnot.2 bytes (by rw [hr]) ⟨hs, hbad⟩
  · rintro (h | ⟨bytes, rfl, hs, hbad⟩)
    · rw [connections_of_closing decode h, h]
    · have hb : bytes ≠ [] := by
        rintro rfl
        have hmore := hphase.buffer (by simp [hs])
        rw [List.append_nil] at hbad
        exact hbad ⟨by simp [(Framing.cut_more hmore).1], by rw [(Framing.cut_more hmore).2, hmore]⟩
      obtain ⟨c', hc', hd⟩ := read_data decode p n.requests hs hb
      rw [connections_read, hc']
      exact hd.closing hbad

theorem closing_iff (decode : List Byte → Option MemoryResponse) (events : List NetworkEvent)
    (p : ℕ) : ((run decode {} events).connections p).socket = some .closing ↔
      ∃ before bytes after, events = before ++ .read p (.data bytes) :: after ∧
        Breaks decode ((run decode {} before).connections p) bytes := by
  induction events using List.reverseRecOn with
  | nil => simp
  | append_singleton es e ih =>
    rw [run_append, run_cons, run_nil, closing_step (phase_run decode phase_new es), ih]
    constructor
    · rintro (⟨before, bytes, after, rfl, hb⟩ | ⟨bytes, rfl, hb⟩)
      · exact ⟨before, bytes, after ++ [e], by simp, hb⟩
      · exact ⟨es, bytes, [], rfl, hb⟩
    · rintro ⟨before, bytes, after, heq, hb⟩
      rcases after.eq_nil_or_concat with rfl | ⟨after, e', rfl⟩
      · obtain ⟨rfl, he⟩ := List.append_inj' heq rfl
        exact Or.inr ⟨bytes, List.singleton_inj.1 he, hb⟩
      · rw [List.concat_eq_append, ← List.cons_append, ← List.append_assoc] at heq
        exact Or.inl ⟨before, bytes, after, (List.append_inj' heq rfl).1, hb⟩

/-- A peer stays usable exactly if no bytes that are read from it hold a bad frame. -/
theorem usable_iff_clean (decode : List Byte → Option MemoryResponse)
    (events : List NetworkEvent) :
    (∀ before after, events = before ++ after →
      ∀ p, Usable ((run decode {} before).connections p)) ↔
    ∀ before p bytes after, events = before ++ .read p (.data bytes) :: after →
      ((run decode {} before).connections p).socket = some .reading →
      Clean decode (((run decode {} before).connections p).readBuffer ++ bytes) := by
  have husable (es : List NetworkEvent) (p : ℕ) :=
    (phase_run decode (n := {}) (p := p) phase_new es).usable_iff
  constructor
  · rintro h before p bytes after rfl hs
    by_contra hbad
    have hopen := h (before ++ [.read p (.data bytes)]) after (by simp) p
    rw [husable] at hopen
    exact hopen ((closing_iff decode _ p).2 ⟨before, bytes, [], rfl, hs, hbad⟩)
  · rintro h before after rfl p
    rw [husable]
    intro hclosing
    obtain ⟨bef, bytes, aft, rfl, hs, hbad⟩ := (closing_iff decode _ p).1 hclosing
    exact hbad (h bef p bytes (aft ++ after) (by simp) hs)

/-- A frame of length zero is rejected. The peer stays connected with a socket that is closed,
and the next rounds of discovery leave it so. -/
theorem closed_stays_connected :
    let events : List NetworkEvent :=
      [.start 0 .inFlight, .connect 0 true, .read 0 (.data [0, 0, 0, 0]), .discover [0],
        .drain fun _ => .inFlight]
    let c := (run (fun _ => none) {} events).connections 0
    c.connected = true ∧ c.socket = some .closing ∧ ¬ Usable c := by
  refine ⟨rfl, rfl, fun h => ?_⟩
  obtain ⟨s, hs, hne⟩ := h.connected rfl
  exact hne (Option.some.inj hs).symm

theorem pendingConnects_drain (n : Network) (outcome : ℕ → ConnectStart) :
    (n.drainPendingConnects outcome).pendingConnects = [] := by
  refine List.foldlRecOn (motive := fun m : Network => m.pendingConnects = []) _ _ rfl ?_
  rintro m hm ⟨peer, i⟩ -
  exact hm

theorem count_pendingConnects_step (hconn : (n.connections p).connected = true)
    (e : NetworkEvent) :
    (n.step decode e).pendingConnects.count p ≤ n.pendingConnects.count p := by
  cases e with
  | discover peers =>
    have hnot : p ∉ peers.filter fun q => !(n.connections q).connected := by simp [hconn]
    rw [step, connectToPeers, List.count_append, List.count_eq_zero.2 hnot]
    exact Nat.le_refl _
  | drain outcome =>
    rw [step, pendingConnects_drain]
    exact Nat.zero_le _
  | _ => exact Nat.le_refl _

/-- A peer whose socket is closed while it counts as connected is lost for good. -/
theorem lost_run (hconn : (n.connections p).connected = true)
    (h : (n.connections p).socket = some .closing) (events : List NetworkEvent) :
    (n.run decode events).connections p = n.connections p ∧
      (n.run decode events).pendingConnects.count p ≤ n.pendingConnects.count p := by
  induction events generalizing n with
  | nil => exact ⟨rfl, Nat.le_refl _⟩
  | cons e es ih =>
    have hsame := connections_of_closing decode h e
    obtain ⟨hrun, hcount⟩ := ih (by rw [hsame, hconn]) (by rw [hsame, h])
    exact ⟨hrun.trans hsame, hcount.trans (count_pendingConnects_step hconn e)⟩

def draws (events : List NetworkEvent) : ℕ :=
  events.countP fun
    | .draw => true
    | _ => false

theorem requests_read (c : PeerConnection) (r : Requests) (result : ReadResult) :
    ∃ es, (PeerConnection.read decode p (c, r) result).2 = r.run decode es ∧
      Requests.draws es = 0 := by
  by_cases hs : c.socket = some .reading
  swap
  · exact ⟨[], by rw [read_of_ne hs]; rfl, rfl⟩
  cases result with
  | eof => exact ⟨[.disconnect p], by rw [PeerConnection.read, if_pos hs]; rfl, rfl⟩
  | error => exact ⟨[.disconnect p], by rw [PeerConnection.read, if_pos hs]; rfl, rfl⟩
  | data bytes =>
    by_cases hb : bytes = []
    · subst hb
      exact ⟨[], by rw [read_nil]; rfl, rfl⟩
    obtain ⟨c', hc', -⟩ := read_data decode p r hs hb
    refine ⟨(verified decode (c.readBuffer ++ bytes)).map (.frame p), ?_, ?_⟩
    · rw [hc', Requests.run, List.foldl_map]
      rfl
    · rw [Requests.draws, List.count_eq_zero]
      simp

theorem requests_step (decode : List Byte → Option MemoryResponse) (n : Network)
    (e : NetworkEvent) :
    ∃ es, (n.step decode e).requests = n.requests.run decode es ∧
      Requests.draws es = draws [e] := by
  have hfold (outcome : ℕ → ConnectStart) (es : List (ℕ × ℕ)) (n : Network) :
      (es.foldl (fun n (peer, i) => n.startConnect peer (outcome i)) n).requests =
        n.requests := by
    induction es generalizing n with
    | nil => rfl
    | cons e es ih => exact ih _
  cases e with
  | discover peers => exact ⟨[], rfl, rfl⟩
  | drain outcome => exact ⟨[], hfold outcome _ _, rfl⟩
  | start q outcome => exact ⟨[], rfl, rfl⟩
  | connect q success => exact ⟨[], rfl, rfl⟩
  | read q result => exact requests_read (n.connections q) n.requests result
  | draw => exact ⟨[.draw], rfl, rfl⟩
  | call q id => exact ⟨[.call q id], rfl, rfl⟩
  | wake i => exact ⟨[.wake i], rfl, rfl⟩

theorem requests_run (decode : List Byte → Option MemoryResponse) (n : Network)
    (events : List NetworkEvent) :
    ∃ es, (n.run decode events).requests = n.requests.run decode es ∧
      Requests.draws es = draws events := by
  induction events generalizing n with
  | nil => exact ⟨[], rfl, rfl⟩
  | cons e es ih =>
    obtain ⟨fs, hfs, hd⟩ := requests_step decode n e
    obtain ⟨gs, hgs, hd'⟩ := ih (n.step decode e)
    refine ⟨fs ++ gs, ?_, ?_⟩
    · rw [run_cons, hgs, hfs, Requests.run_append]
    · rw [Requests.draws_append, hd, hd', draws, draws, draws, ← List.countP_append]
      rfl

/-- A promise is set at most once, with an answer to its own request or with nothing, and no
two callers share a request id. -/
theorem response_routing (decode : List Byte → Option MemoryResponse)
    (events : List NetworkEvent) (hn : draws events < 2 ^ 64) :
    let r := (run decode {} events).requests
    (∀ c ∈ r.contexts, c.values.length ≤ 1 ∧
      (∀ d ∈ c.values, Requests.Answers decode c.requestId d) ∧
        ∀ d, c.caller = .returned d → d ∈ c.values) ∧
      (r.contexts.map RequestContext.requestId).Nodup := by
  obtain ⟨es, hes, hd⟩ := requests_run decode {} events
  have hinv := Requests.inv_run decode (hd ▸ hn : Requests.draws es < 2 ^ 64)
  rw [← hes] at hinv
  refine ⟨fun c hc => ⟨?_, ?_, hinv.caller c hc⟩, (List.nodup_append.mp hinv.ids).1⟩
  · rcases hinv.values c hc with hv | ⟨d, hv, -⟩ <;> simp [hv]
  · rcases hinv.values c hc with hv | ⟨d, hv, ha⟩
    · simp [hv]
    · simpa [hv] using ha

/-- The answer comes after the caller has given up, and once more. -/
theorem response_routing_late :
    let decode (bytes : List Byte) : Option MemoryResponse :=
      if bytes = [1, 0, 0, 0, 7] then some { requestId := 1 } else none
    let r := (run decode {} [.start 0 .inFlight, .connect 0 true, .draw, .call 0 1, .wake 0,
      .read 0 (.data [1, 0, 0, 0, 7, 1, 0, 0, 0, 7])]).requests
    r.contexts = [⟨1, 0, [.frame 0 [1, 0, 0, 0, 7]], .timedOut⟩] ∧
      ∀ c ∈ r.contexts, c.values.length ≤ 1 := by
  refine ⟨by decide, fun c hc => ?_⟩
  exact ((response_routing _ _ (by decide)).1 c hc).1

end Network

end MemInfo
