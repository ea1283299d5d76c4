import MemInfo.Common.Types
import MemInfo.Lib.Duplex
import MemInfo.Lib.LittleEndian

/-! # Local requests on Linux

`LocalIpcPosix`: a request and its response over a Unix domain socket, each with its length before
it. Both sides resume their transfers until they are complete, so that what comes back does not
depend on how many bytes a call moves. A stream that ends early gives the empty vector, unless the
client is still writing: nothing ignores the signal for that.
-/

namespace MemInfo.LocalIpcPosix

open Lib LittleEndian

/-- `kMaxIpcMessageBytes`. -/
def maxIpcMessageBytes : ℕ := 64 * 1024 * 1024

/-- `set_sun_path`, for a `sun_path` of 108 bytes. -/
def setSunPath (name : List Byte) : Bool := name.length ≠ 0 && name.length < 108

/-- How `socket` and `connect` turn out. -/
structure Opening where
  socket : Bool := true
  connect : Bool := true

/-- The end of `send_request`: the response after its length. -/
def receiveResponse (lengthBytes : List Byte) : Script Byte (List Byte) :=
  let respLen := decode lengthBytes
  if maxIpcMessageBytes < respLen then .done []
  else .readExact .done respLen

/-- `send_request`. Every failure ends in the empty vector. -/
def sendRequest (o : Opening) (name req : List Byte) : Script Byte (List Byte) :=
  if maxIpcMessageBytes < req.length then .done []
  else if !setSunPath name then .done []
  else if !o.socket then .done []
  else if !o.connect then .done []
  else .writeExact (.writeExact (.readExact receiveResponse 4) req) (encode 4 req.length)

/-- The end of `serve_client`: the response and its length, in 32 bits. -/
def sendResponse (resp : List Byte) : Script Byte Unit :=
  let respLen := resp.length % 2 ^ 32
  .writeExact (if 0 < respLen then .writeExact (.done ()) resp else .done ()) (encode 4 respLen)

/-- `serve_client`. Without a handler the response is empty. -/
def serveClient (handler : List Byte → List Byte) : Script Byte Unit :=
  .readExact (fun lengthBytes =>
    let len := decode lengthBytes
    if maxIpcMessageBytes < len then .done ()
    else .readExact (fun req => sendResponse (handler req)) len) 4

def exchange (o : Opening) (handler : List Byte → List Byte) (name req : List Byte) :
    Duplex Byte (List Byte) Unit where
  client := sendRequest o name req
  server := serveClient handler

def endings (clientIgnores serverIgnores : Bool) : Endings (List Byte) Unit :=
  ⟨[], (), clientIgnores, serverIgnores⟩

/-- `send_request` returns this response. -/
def Returns (e : Endings (List Byte) Unit) (schedule : ℕ → Party × Syscall)
    (s : Duplex Byte (List Byte) Unit) (resp : List Byte) : Prop :=
  ∃ t, (Duplex.run e schedule s t).client = .done resp

section Exchange

variable {o : Opening} {handler : List Byte → List Byte} {name req : List Byte}

structure Sends (o : Opening) (name req : List Byte) : Prop where
  fits : req.length ≤ maxIpcMessageBytes
  name : setSunPath name = true
  socket : o.socket = true
  connect : o.connect = true

theorem sendRequest_of_sends (h : Sends o name req) : sendRequest o name req =
    .writeExact (.writeExact (.readExact receiveResponse 4) req) (encode 4 req.length) := by
  simp [sendRequest, Nat.not_lt.2 h.fits, h.name, h.socket, h.connect]

theorem sendRequest_of_not_sends (h : ¬ Sends o name req) : sendRequest o name req = .done [] := by
  unfold sendRequest
  split_ifs with hfits hname hsocket hconnect
  all_goals try rfl
  refine absurd ⟨Nat.not_lt.1 hfits, ?_, ?_, ?_⟩ h
  all_goals simp_all

theorem ahead_exchange (h : Sends o name req) : (exchange o handler name req).ahead =
    ⟨encode 4 req.length ++ req, .readExact receiveResponse 4, []⟩ := by
  rw [Duplex.ahead, exchange, sendRequest_of_sends h, Script.eval_writeExact,
    Script.eval_writeExact]
  simp [Script.readExact]

def announced (resp : List Byte) : List Byte := encode 4 (resp.length % 2 ^ 32)

theorem decode_announced (resp : List Byte) : decode (announced resp) = resp.length % 2 ^ 32 :=
  decode_encode_of_lt (Nat.mod_lt _ (by decide))

theorem eval_sendResponse {resp : List Byte} (h : resp.length % 2 ^ 32 = 0 → resp = []) :
    (sendResponse resp).eval [] = ⟨announced resp ++ resp, .done (), []⟩ := by
  rw [sendResponse, Script.eval_writeExact]
  split_ifs with hpos
  · rw [Script.eval_writeExact]
    simp [Script.eval, announced]
  · have hnil : resp = [] := h (Nat.eq_zero_of_not_pos hpos)
    simp [Script.eval, announced, hnil]

theorem eval_serveClient (hreq : req.length ≤ maxIpcMessageBytes)
    (hresp : (handler req).length % 2 ^ 32 = 0 → handler req = []) :
    (serveClient handler).eval (encode 4 req.length ++ req) =
      ⟨announced (handler req) ++ handler req, .done (), []⟩ := by
  have hlt : req.length < 256 ^ 4 := Nat.lt_of_le_of_lt hreq (by decide)
  rw [serveClient, Script.eval_readExact _ (length_encode _ _), decode_encode_of_lt hlt]
  dsimp only
  rw [if_neg (Nat.not_lt.2 hreq)]
  have hread := Script.eval_readExact (fun req => sendResponse (handler req)) (a := req) rfl []
  rw [List.append_nil] at hread
  rw [hread, eval_sendResponse hresp]

theorem reply_exchange (h : Sends o name req)
    (hresp : (handler req).length % 2 ^ 32 = 0 → handler req = []) :
    (exchange o handler name req).reply =
      ⟨announced (handler req) ++ handler req, .done (), []⟩ := by
  rw [Duplex.reply, ahead_exchange h]
  exact eval_serveClient h.fits hresp

theorem outcome_exchange (h : Sends o name req)
    (hresp : (handler req).length % 2 ^ 32 = 0 → handler req = []) :
    (exchange o handler name req).outcome =
      (receiveResponse (announced (handler req))).eval (handler req) := by
  rw [Duplex.outcome, reply_exchange h hresp, ahead_exchange h]
  exact Script.eval_readExact receiveResponse (length_encode 4 _) (handler req)

theorem agrees_of_too_long (h : Sends o name req)
    (hlong : maxIpcMessageBytes < (handler req).length % 2 ^ 32) :
    (exchange o handler name req).Agrees [] (handler req) := by
  have hresp : (handler req).length % 2 ^ 32 = 0 → handler req = [] := by omega
  constructor
  · rw [outcome_exchange h hresp, receiveResponse, decode_announced, if_pos hlong]
    rfl
  · rw [reply_exchange h hresp]

theorem concludes_serveClient (handler : List Byte → List Byte) :
    (serveClient handler).Concludes := by
  have hresponse (resp : List Byte) : (sendResponse resp).Concludes := by
    have hdone : (Script.done () : Script Byte Unit).Writes := trivial
    unfold sendResponse
    apply Script.concludes_writeExact
    split_ifs
    · exact Script.writes_writeExact hdone resp
    · exact hdone
  apply Script.concludes_readExact
  intro lengthBytes
  dsimp only
  split_ifs
  · trivial
  · exact Script.concludes_readExact (fun req => hresponse (handler req)) _

theorem engages_exchange (h : Sends o name req)
    (hresp : (handler req).length ≤ maxIpcMessageBytes) :
    (exchange o handler name req).Engages (handler req) := by
  have hmod : (handler req).length % 2 ^ 32 = (handler req).length :=
    Nat.mod_eq_of_lt (Nat.lt_of_le_of_lt hresp (by decide))
  have hnil : (handler req).length % 2 ^ 32 = 0 → handler req = [] := by
    rw [hmod]
    exact List.length_eq_zero_iff.1
  refine ⟨⟨?_, ?_⟩, concludes_serveClient handler, fun _ => ?_⟩
  · rw [outcome_exchange h hnil, receiveResponse, decode_announced, hmod,
      if_neg (Nat.not_lt.2 hresp)]
    have hread := Script.eval_readExact Script.done (a := handler req) rfl []
    rw [List.append_nil] at hread
    rw [hread]
    rfl
  · rw [reply_exchange h hnil]
  · rw [ahead_exchange h]
    rfl

end Exchange

section Results

variable {e : Endings (List Byte) Unit} {schedule : ℕ → Party × Syscall}
  {s : Duplex Byte (List Byte) Unit} {resp resp' : List Byte}

theorem Returns.eq (h : Returns e schedule s resp) (h' : Returns e schedule s resp') :
    resp = resp' := by
  obtain ⟨t, ht⟩ := h
  obtain ⟨u, hu⟩ := h'
  have hsame : (Duplex.run e schedule s t).client = (Duplex.run e schedule s u).client :=
    Duplex.client_run_eq_of_closed e (by rw [ht]; rfl) (by rw [hu]; rfl)
  rw [ht, hu] at hsame
  cases hsame
  rfl

theorem returns_iff (h : Returns e schedule s resp) (resp' : List Byte) :
    Returns e schedule s resp' ↔ resp' = resp := by
  constructor
  · exact fun h' => h'.eq h
  · rintro rfl
    exact h

theorem not_returns_of_brokenPipe (h : Duplex.BrokenPipe e schedule s) :
    ¬ Returns e schedule s resp := by
  rintro ⟨t, ht⟩
  obtain ⟨u, hu⟩ := Duplex.killed_of_brokenPipe e h
  have hsame : (Duplex.run e schedule s t).client = (Duplex.run e schedule s u).client :=
    Duplex.client_run_eq_of_closed e (by rw [ht]; rfl) (by rw [hu]; rfl)
  rw [ht, hu] at hsame
  cases hsame

theorem returns_nil_iff (clientIgnores serverIgnores : Bool)
    (h : ∃ t, (Duplex.run (endings clientIgnores serverIgnores) schedule s t).client = .done [] ∨
      (Duplex.run (endings clientIgnores serverIgnores) schedule s t).client = .killed ∧
        Duplex.BrokenPipe (endings clientIgnores serverIgnores) schedule s) (resp : List Byte) :
    Returns (endings clientIgnores serverIgnores) schedule s resp ↔
      resp = [] ∧ ¬ Duplex.BrokenPipe (endings clientIgnores serverIgnores) schedule s := by
  by_cases hbroken : Duplex.BrokenPipe (endings clientIgnores serverIgnores) schedule s
  · exact iff_of_false (not_returns_of_brokenPipe hbroken) fun h => h.2 hbroken
  · obtain ⟨t, hdone | ⟨-, hbroken'⟩⟩ := h
    · rw [returns_iff ⟨t, hdone⟩ resp]
      simp [hbroken]
    · exact absurd hbroken' hbroken

end Results

/-- Whatever the calls move, `send_request` returns the handler's response to the request if no
call fails. If one does, if the response is announced as longer than the limit, or if nothing is
sent, it returns the empty vector, unless it is killed for writing to a closed stream. -/
theorem send_request_returns_iff (o : Opening) (handler : List Byte → List Byte)
    (name req : List Byte) (clientIgnores serverIgnores : Bool) {schedule : ℕ → Party × Syscall}
    (hfair : Duplex.Fair schedule) :
    let e := endings clientIgnores serverIgnores
    let s := exchange o handler name req
    (Sends o name req → (handler req).length ≤ maxIpcMessageBytes →
      (¬ Duplex.CutOff e schedule s → ∀ resp, Returns e schedule s resp ↔ resp = handler req) ∧
      (Duplex.CutOff e schedule s →
        ∀ resp, Returns e schedule s resp ↔ resp = [] ∧ ¬ Duplex.BrokenPipe e schedule s)) ∧
    (Sends o name req → maxIpcMessageBytes < (handler req).length % 2 ^ 32 →
      ∀ resp, Returns e schedule s resp ↔ resp = [] ∧ ¬ Duplex.BrokenPipe e schedule s) ∧
    (¬ Sends o name req → ∀ resp, Returns e schedule s resp ↔ resp = []) := by
  intro e s
  refine ⟨fun hsends hresp => ?_, fun hsends hlong => ?_, fun hnot => ?_⟩
  · have hengages := engages_exchange hsends hresp
    constructor
    · intro hcut
      exact returns_iff (Duplex.exists_result e hfair hengages.toAgrees hcut)
    · intro hcut
      exact returns_nil_iff _ _ (Duplex.exists_failure e hfair hengages hcut)
  · obtain ⟨t, hend⟩ := Duplex.exists_end e hfair (agrees_of_too_long hsends hlong)
    apply returns_nil_iff
    rcases hend with hdone | hfail
    · exact ⟨t, Or.inl hdone⟩
    · exact ⟨t, hfail⟩
  · exact returns_iff ⟨0, sendRequest_of_not_sends hnot⟩

def takingTurns (t : ℕ) : Party × Syscall :=
  (if t % 2 = 0 then .client else .server, .moves 0)

theorem fair_takingTurns (k : ℕ) : Duplex.Fair fun t => takingTurns (t + k) := by
  intro p t
  cases p with
  | client => exact ⟨2 * t + k, by omega, 0, by simp [takingTurns]; omega⟩
  | server => exact ⟨2 * t + k + 1, by omega, 0, by simp [takingTurns]; omega⟩

/-- A server that answers with what it is asked. -/
theorem echo_returns :
    Duplex.Fair takingTurns ∧
      Returns (endings false false) takingTurns (exchange {} id [47] [1, 2, 3]) [1, 2, 3] := by
  have hfair : Duplex.Fair takingTurns := fair_takingTurns 0
  refine ⟨hfair, ?_⟩
  have hresult := send_request_returns_iff {} id [47] [1, 2, 3] false false hfair
  have hcut : ¬ Duplex.CutOff (endings false false) takingTurns
      (exchange {} id [47] [1, 2, 3]) := by
    rintro ⟨t, -, hfails⟩
    simp [Duplex.Fails, takingTurns] at hfails
  exact ((hresult.1 ⟨by decide, by decide, rfl, rfl⟩ (by decide)).1 hcut _).2 rfl

def serverFails (t : ℕ) : Party × Syscall :=
  if t = 0 then (.server, .fails) else takingTurns (t + 1)

/-- The client finds the stream closed before it has written, and is killed by `SIGPIPE`. -/
theorem closed_stream_kills :
    Duplex.Fair serverFails ∧
      Duplex.CutOff (endings false false) serverFails (exchange {} id [47] [1, 2, 3]) ∧
      ¬ ∃ resp, Returns (endings false false) serverFails (exchange {} id [47] [1, 2, 3]) resp := by
  refine ⟨?_, ⟨0, rfl, Or.inr ⟨rfl, rfl⟩⟩, ?_⟩
  · intro p t
    obtain ⟨t', hle, n, hn⟩ := fair_takingTurns 1 p (t + 1)
    exact ⟨t', by omega, n, by rwa [serverFails, if_neg (by omega)]⟩
  · rintro ⟨resp, hreturns⟩
    have hkilling : Duplex.BrokenPipe (endings false false) serverFails
        (exchange {} id [47] [1, 2, 3]) :=
      ⟨1, ⟨0, rfl⟩, ⟨3, [0, 0, 0], _, rfl⟩, rfl, rfl⟩
    exact not_returns_of_brokenPipe hkilling hreturns

end MemInfo.LocalIpcPosix
