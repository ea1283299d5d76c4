import MemInfo.Lib.Dict
import MemInfo.WindowsLanSharing.GpuServer

/-! # The CUDA proxy

The library that stands in for the CUDA runtime sends each call to the GPU server and waits for
the answer on the same socket. The two sides stay in step as long as the server writes what the
proxy takes out. They part at the first copy from the device: the proxy waits for the bytes of the
copy, and the server never sends them.
-/

namespace MemInfo.WindowsLanSharing

open Lib

structure TrackerEntry where
  remotePtr : UInt64
  size : UInt64
  deriving DecidableEq, Repr

structure DevicePointerTracker where
  map : Dict UInt64 TrackerEntry := ∅
  nextSynthetic : UInt64 := 0x10000000000

namespace DevicePointerTracker

variable (t : DevicePointerTracker)

def allocate (remotePtr size : UInt64) : UInt64 × DevicePointerTracker :=
  let synthetic := (t.nextSynthetic + 4095) &&& ~~~4095
  (synthetic,
    { map := t.map.insert synthetic ⟨remotePtr, size⟩, nextSynthetic := t.nextSynthetic + 4096 })

def free (synthetic : UInt64) : Bool × DevicePointerTracker :=
  match t.map.lookup synthetic with
  | none => (false, t)
  | some _ => (true, { t with map := t.map.erase synthetic })

def getRemote (synthetic : UInt64) : Option UInt64 :=
  (t.map.lookup synthetic).map TrackerEntry.remotePtr

end DevicePointerTracker

structure Machine where
  /-- `init_winsock` and `connect_gpu_server` succeed. -/
  connects : Bool
  /-- The answer of CUDA, after the calls made so far. -/
  cuda : List (CudaCall × CudaAnswer) → CudaCall → CudaAnswer
  /-- What an opcode that is never assigned holds. -/
  stack : UInt8

structure Session where
  initialized : Bool := false
  /-- `g_gpu_socket` is valid. -/
  socket : Bool := false
  sequenceId : UInt32 := 1
  tracker : DevicePointerTracker := {}
  /-- The memory of the program that uses the proxy. -/
  host : UInt64 → Byte := fun _ => 0
  toServer : List Byte := []
  toProxy : List Byte := []
  /-- `handle_client` is still in its loop. -/
  serving : Bool := true
  cudaLog : List (CudaCall × CudaAnswer) := []
  /-- The bytes the server has written to the socket. -/
  written : ℕ := 0
  /-- The bytes the proxy has taken from the socket. -/
  consumed : ℕ := 0

/-- The memory at `addr` after the bytes have been put there. -/
def storeBytes (host : UInt64 → Byte) (addr : UInt64) (bytes : List Byte) : UInt64 → Byte :=
  fun a => bytes.getD (a - addr).toNat (host a)

def hostBytes (host : UInt64 → Byte) (addr : UInt64) (count : ℕ) : List Byte :=
  (List.range count).map fun i => host (addr + UInt64.ofNat i)

inductive CmdResult where
  | ok (resp : List Byte)
  | failed
  | blocked
  deriving DecidableEq, Repr

/-- How a call ends: it returns a code, and `cudaMalloc` a pointer with it, or it never returns. -/
inductive Outcome where
  | returned (code : ℤ) (devPtr : Option UInt64)
  | blocked
  deriving DecidableEq, Repr

inductive Call where
  | cudaMalloc (size : UInt64)
  | cudaFree (devPtr : UInt64)
  | cudaMemcpy (dst src count : UInt64) (kind : ℤ)
  | cudaDeviceSynchronize
  -- what the program does with its memory between the calls
  | store (addr : UInt64) (bytes : List Byte)

namespace Session

variable (m : Machine)

/-- `handle_client` goes on until it waits for more or leaves. -/
def serve : ℕ → Session → Session
  | 0, s => s
  | n + 1, s =>
    if s.serving then
      match GpuServer.round (m.cuda s.cudaLog) m.stack s.toServer with
      | .waits => s
      | .leaves => { s with serving := false }
      | .answers rest output call =>
        serve n { s with
          toServer := rest
          toProxy := s.toProxy ++ output
          cudaLog := s.cudaLog ++ call.toList
          written := s.written + output.length }
    else s

def took (s : Session) (r : Received) : Session :=
  { s with toProxy := r.rest, consumed := s.consumed + r.bytes.length }

/-- The second half of `send_gpu_cmd`, which takes the response from the socket. -/
def readResponse (s : Session) (respLen : ℕ) : CmdResult × Session :=
  let r := recvExact (!s.serving) s.toProxy gpuHeaderSize
  let s := s.took r
  match r.status with
  | .failed => (.failed, s)
  | .blocked => (.blocked, s)
  | .done =>
    let respHdr := GpuHeader.ofBytes r.bytes
    if respHdr.magic ≠ gpuMagic then (.failed, s)
    else if respHdr.opcode = GpuOpcode.respError.code then (.failed, s)
    else if respLen < respHdr.payloadLen.toNat then (.failed, s)
    else
      -- a payload of length zero is not read, which comes to the same
      let r := recvExact (!s.serving) s.toProxy respHdr.payloadLen.toNat
      let s := s.took r
      match r.status with
      | .failed => (.failed, s)
      | .blocked => (.blocked, s)
      | .done => (.ok r.bytes, s)

/-- `send_gpu_cmd`. A command has at least 16 bytes, so that as many rounds of the server as there
are bytes leave it waiting. -/
def sendGpuCmd (s : Session) (opcode flags : UInt8) (payload : List Byte) (respLen : ℕ) :
    CmdResult × Session :=
  if !s.socket then (.failed, s)
  else
    let hdr : GpuHeader := ⟨gpuMagic, opcode, flags, 0, s.sequenceId, .ofNat payload.length⟩
    let s := { s with sequenceId := s.sequenceId + 1 }
    if !s.serving then (.failed, s)
    else
      let s := { s with toServer := s.toServer ++ (hdr.bytes ++ payload) }
      readResponse (serve m s.toServer.length s) respLen

def initializeProxy (s : Session) : Bool × Session :=
  if s.initialized then (true, s)
  else (m.connects, { s with initialized := true, socket := m.connects })

def cudaMalloc (size : UInt64) (s : Session) : Outcome × Session :=
  let (ready, s) := initializeProxy m s
  if !ready then (.returned 1 none, s)
  else
    match sendGpuCmd m s GpuOpcode.malloc.code gpuFlagNone (GpuMallocReq.bytes { size }) 16 with
    | (.failed, s) => (.returned 1 none, s)
    | (.blocked, s) => (.blocked, s)
    | (.ok resp, s) =>
      let resp := GpuMallocResp.ofBytes resp
      if resp.errorCode ≠ 0 then (.returned ((resp.errorCode.toNat : ℤ).bmod (2 ^ 32)) none, s)
      else
        let (devPtr, tracker) := s.tracker.allocate resp.devicePtr size
        (.returned 0 (some devPtr), { s with tracker })

def cudaFree (devPtr : UInt64) (s : Session) : Outcome × Session :=
  if !s.initialized then (.returned 1 none, s)
  else
    match s.tracker.getRemote devPtr with
    | none => (.returned 1 none, s)
    | some remotePtr =>
      match sendGpuCmd m s GpuOpcode.free.code gpuFlagNone (GpuFreeReq.bytes ⟨remotePtr⟩) 16 with
      | (.failed, s) => (.returned 1 none, s)
      | (.blocked, s) => (.blocked, s)
      | (.ok _, s) => (.returned 0 none, { s with tracker := (s.tracker.free devPtr).2 })

/-- `cudaMemcpyHostToDevice` and `cudaMemcpyDeviceToHost`, as the proxy tests for them. -/
def cudaMemcpyHostToDevice : ℤ := 1

@[inherit_doc cudaMemcpyHostToDevice]
def cudaMemcpyDeviceToHost : ℤ := 2

/-- The end of a copy from the device: `recv_exact` into the program's memory. -/
def receiveCopy (dst count : UInt64) (s : Session) : Outcome × Session :=
  let r := recvExact (!s.serving) s.toProxy count.toNat
  let s := { s.took r with host := storeBytes s.host dst r.bytes }
  match r.status with
  | .failed => (.returned 1 none, s)
  | .blocked => (.blocked, s)
  | .done => (.returned 0 none, s)

def cudaMemcpy (dst src count : UInt64) (kind : ℤ) (s : Session) : Outcome × Session :=
  let (ready, s) := initializeProxy m s
  if !ready then (.returned 1 none, s)
  else if kind = cudaMemcpyHostToDevice then
    match s.tracker.getRemote dst with
    | none => (.returned 1 none, s)
    | some remoteDst =>
      let req : GpuMemcpyReq := { dstPtr := remoteDst, srcPtr := src, size := count, kind := 0 }
      match sendGpuCmd m s GpuOpcode.memcpyH2D.code gpuFlagAsync req.bytes 16 with
      | (.failed, s) => (.returned 1 none, s)
      | (.blocked, s) => (.blocked, s)
      | (.ok _, s) => (.returned 0 none, s)
  else if kind = cudaMemcpyDeviceToHost then
    match s.tracker.getRemote src with
    | none => (.returned 1 none, s)
    | some remoteSrc =>
      -- the device's pointer goes first here, too
      let req : GpuMemcpyReq := { dstPtr := remoteSrc, srcPtr := dst, size := count, kind := 1 }
      match sendGpuCmd m s GpuOpcode.memcpyD2H.code gpuFlagNone req.bytes 16 with
      | (.failed, s) => (.returned 1 none, s)
      | (.blocked, s) => (.blocked, s)
      | (.ok _, s) => receiveCopy dst count s
  else (.returned 1 none, s)

def cudaDeviceSynchronize (s : Session) : Outcome × Session :=
  if !s.initialized then (.returned 1 none, s)
  else
    match sendGpuCmd m s GpuOpcode.synchronize.code gpuFlagNone (GpuSyncReq.bytes ⟨0⟩) 16 with
    | (.failed, s) => (.returned 1 none, s)
    | (.blocked, s) => (.blocked, s)
    | (.ok _, s) => (.returned 0 none, s)

def exec : Call → Session → Outcome × Session
  | .cudaMalloc size => cudaMalloc m size
  | .cudaFree devPtr => cudaFree m devPtr
  | .cudaMemcpy dst src count kind => cudaMemcpy m dst src count kind
  | .cudaDeviceSynchronize => cudaDeviceSynchronize m
  | .store addr bytes =>
    fun s => (.returned 0 none, { s with host := storeBytes s.host addr bytes })

end Session

structure Entry where
  call : Call
  outcome : Outcome
  before : Session
  after : Session

/-- A program that makes the calls one after the other; a call that never returns is the last. -/
def trace (m : Machine) : Session → List Call → List Entry
  | _, [] => []
  | s, c :: calls =>
    let r := s.exec m c
    ⟨c, r.1, s, r.2⟩ :: if r.1 = .blocked then [] else trace m r.2 calls

namespace Session

/-! ## One command -/

/-- Nothing is on its way, and the server waits for the next command. -/
structure Idle (s : Session) : Prop where
  toServer : s.toServer = []
  toProxy : s.toProxy = []
  serving : s.serving = true

def exchanged (s : Session) (r : GpuServer.Reply) : Session :=
  { s with
    sequenceId := s.sequenceId + 1
    cudaLog := s.cudaLog ++ r.call.toList
    written := s.written + (gpuHeaderSize + r.payload.length)
    consumed := s.consumed + (gpuHeaderSize + r.payload.length) }

variable {m : Machine} {s : Session} {opcode flags : UInt8} {payload : List Byte}

theorem Idle.exchanged (h : s.Idle) (r : GpuServer.Reply) : (s.exchanged r).Idle :=
  ⟨h.toServer, h.toProxy, h.serving⟩

theorem serve_nil (h : s.toServer = []) (n : ℕ) : serve m n s = s := by
  cases n with
  | zero => rfl
  | succ n =>
    rw [serve, h, GpuServer.round_nil]
    exact ite_self s

theorem serve_command (hdr : GpuHeader) (h : s.Idle) (hmagic : hdr.magic = gpuMagic)
    (hlen : hdr.payloadLen.toNat = payload.length) (hp : payload.length ≤ GpuServer.bufferSize)
    (n : ℕ) :
    let r := GpuServer.reply (m.cuda s.cudaLog) m.stack hdr.opcode payload
    let output := (GpuHeader.mk gpuMagic r.opcode 0 0 hdr.sequenceId
      (.ofNat r.payload.length)).bytes ++ r.payload
    serve m (n + 1) { s with toServer := hdr.bytes ++ payload } =
      { s with
        toProxy := output
        cudaLog := s.cudaLog ++ r.call.toList
        written := s.written + output.length } := by
  intro r output
  have hround : GpuServer.round (m.cuda s.cudaLog) m.stack (hdr.bytes ++ payload) =
      .answers [] output r.call :=
    GpuServer.round_command _ _ hmagic hlen hp
  rw [serve, if_pos h.serving, hround]
  dsimp only
  rw [serve_nil rfl, h.toProxy, h.toServer, List.nil_append]

theorem readResponse_of_toProxy {hdr : GpuHeader} {respLen : ℕ}
    (hs : s.toProxy = hdr.bytes ++ payload) (hmagic : hdr.magic = gpuMagic)
    (hlen : hdr.payloadLen.toNat = payload.length) (hfits : payload.length ≤ respLen)
    (hresp : respLen < 2 ^ 31) (herror : hdr.opcode = GpuOpcode.respError.code → payload = []) :
    readResponse s respLen =
      (if hdr.opcode = GpuOpcode.respError.code then .failed else .ok payload,
        { s with toProxy := [], consumed := s.consumed + (gpuHeaderSize + payload.length) }) := by
  have hheader : recvExact (!s.serving) s.toProxy gpuHeaderSize = ⟨hdr.bytes, payload, .done⟩ := by
    rw [hs, ← hdr.length_bytes]
    exact recvExact_append _ _ (by rw [hdr.length_bytes]; decide)
  have hpayload : recvExact (!s.serving) payload payload.length = ⟨payload, [], .done⟩ := by
    have happend := recvExact_append (!s.serving) (a := payload) [] (Nat.lt_of_le_of_lt hfits hresp)
    rwa [List.append_nil] at happend
  by_cases herr : hdr.opcode = GpuOpcode.respError.code
  · simp [readResponse, hheader, took, hmagic, herr, herror herr]
  · simp [readResponse, hheader, took, hmagic, herr, hlen, Nat.not_lt.2 hfits, hpayload,
      Nat.add_assoc]

theorem sendGpuCmd_of_idle (h : s.Idle) (hsocket : s.socket = true)
    (hp : payload.length ≤ GpuServer.bufferSize)
    (hr : (GpuServer.reply (m.cuda s.cudaLog) m.stack opcode payload).Proper) :
    let r := GpuServer.reply (m.cuda s.cudaLog) m.stack opcode payload
    sendGpuCmd m s opcode flags payload 16 =
      (if r.opcode = GpuOpcode.respError.code then .failed else .ok r.payload, s.exchanged r) := by
  have hpayload : (UInt32.ofNat payload.length).toNat = payload.length :=
    UInt32.toNat_ofNat_of_lt' (Nat.lt_of_le_of_lt hp (by decide))
  have hresp (k : ℕ) (hk : k ≤ 16) : (UInt32.ofNat k).toNat = k :=
    UInt32.toNat_ofNat_of_lt' (Nat.lt_of_le_of_lt hk (by decide))
  have h1 : Idle { s with sequenceId := s.sequenceId + 1 } := ⟨h.toServer, h.toProxy, h.serving⟩
  let hdr : GpuHeader := ⟨gpuMagic, opcode, flags, 0, s.sequenceId, .ofNat payload.length⟩
  have hserve := serve_command (m := m) hdr h1 rfl hpayload hp (15 + payload.length)
  have hbytes : (hdr.bytes ++ payload).length = 15 + payload.length + 1 := by
    rw [List.length_append, hdr.length_bytes, gpuHeaderSize]
    omega
  unfold sendGpuCmd
  rw [if_neg (by simp [hsocket])]
  dsimp only
  rw [if_neg (by simp [h.serving]), h.toServer, List.nil_append, hbytes, hserve,
    readResponse_of_toProxy rfl rfl (hresp _ hr.length) hr.length (by decide) hr.error]
  have hopcode : hdr.opcode = opcode := rfl
  simp [exchanged, h.toProxy, h.toServer, hopcode]

structure Settled (s s' : Session) : Prop where
  idle : s'.Idle
  balanced : s'.written + s.consumed = s'.consumed + s.written

/-- The server has put one call to CUDA, and CUDA has carried it out. -/
def CarriedOut (s s' : Session) : Prop :=
  ∃ call answer, s'.cudaLog = s.cudaLog ++ [(call, answer)] ∧ answer.error = 0

theorem sendGpuCmd_spec (flags : UInt8) (h : s.Idle) (hp : payload.length ≤ GpuServer.bufferSize)
    (hr : (GpuServer.reply (m.cuda s.cudaLog) m.stack opcode payload).Proper) :
    ∃ res s', sendGpuCmd m s opcode flags payload 16 = (res, s') ∧ res ≠ .blocked ∧
      s.Settled s' ∧ ((∃ resp, res = .ok resp) ↔ s.CarriedOut s') := by
  by_cases hsocket : s.socket = true
  · refine ⟨_, _, sendGpuCmd_of_idle h hsocket hp hr, ?_, ⟨h.exchanged _, ?_⟩, ?_⟩
    · split_ifs <;> simp
    · simp only [exchanged]
      omega
    · obtain ⟨call, answer, hcall, herror⟩ := hr.asked
      by_cases he : answer.error = 0
      · have hcode := mt herror.1 (not_not.2 he)
        simp [hcode, CarriedOut, exchanged, hcall, he]
      · simp [herror.2 he, CarriedOut, exchanged, hcall, he]
  · refine ⟨.failed, s, by simp [sendGpuCmd, hsocket], by simp, ⟨h, Nat.add_comm _ _⟩, ?_⟩
    simp [CarriedOut]

/-! ## One call -/

def Awaits (c : Call) (s s' : Session) : Prop :=
  ∃ dst src count, c = .cudaMemcpy dst src count cudaMemcpyDeviceToHost ∧
    0 < asked count.toNat ∧ s.CarriedOut s'

/-- What a call does to a session in which nothing is on its way. -/
structure Steps (c : Call) (s : Session) (r : Outcome × Session) : Prop where
  blocked_iff : r.1 = .blocked ↔ Awaits c s r.2
  settled : r.1 ≠ .blocked → s.Settled r.2
  empty : ∀ dst src count, c = .cudaMemcpy dst src count cudaMemcpyDeviceToHost →
    r.1 = .returned 0 none → count = 0

variable {c : Call} {s' : Session} {o : Outcome}

theorem Settled.refl (h : s.Idle) : s.Settled s := ⟨h, Nat.add_comm _ _⟩

theorem Settled.trans {s₁ s₂ : Session} (h : s.Settled s₁) (h' : s₁.Settled s₂) :
    s.Settled s₂ := by
  have hfirst := h.balanced
  have hsecond := h'.balanced
  exact ⟨h'.idle, by omega⟩

theorem Settled.update (h : s.Settled s') (tracker : DevicePointerTracker) (host : UInt64 → Byte) :
    s.Settled { s' with tracker, host } :=
  ⟨⟨h.idle.toServer, h.idle.toProxy, h.idle.serving⟩, h.balanced⟩

theorem initializeProxy_spec (h : s.Idle) : ∃ ready s', initializeProxy m s = (ready, s') ∧
    s.Settled s' ∧ s'.cudaLog = s.cudaLog := by
  unfold initializeProxy
  split_ifs
  · exact ⟨true, s, rfl, .refl h, rfl⟩
  · exact ⟨m.connects, _, rfl, ⟨⟨h.toServer, h.toProxy, h.serving⟩, Nat.add_comm _ _⟩, rfl⟩

theorem steps_of_settled
    (hc : ∀ dst src count, c ≠ .cudaMemcpy dst src count cudaMemcpyDeviceToHost)
    (ho : o ≠ .blocked) (h : s.Settled s') : Steps c s (o, s') where
  blocked_iff := by
    constructor
    · exact fun hb => absurd hb ho
    · rintro ⟨dst, src, count, hcall, -⟩
      exact absurd hcall (hc dst src count)
  settled := fun _ => h
  empty := fun dst src count hcall => absurd hcall (hc dst src count)

theorem steps_cudaMalloc (h : s.Idle) (size : UInt64) :
    Steps (.cudaMalloc size) s (cudaMalloc m size s) := by
  obtain ⟨ready, s₁, hinit, hset, -⟩ := initializeProxy_spec (m := m) h
  obtain ⟨res, s₂, hsend, hres, hset', -⟩ := sendGpuCmd_spec gpuFlagNone hset.idle
    (by simp [GpuServer.bufferSize])
    (GpuServer.proper_malloc (m.cuda s₁.cudaLog) m.stack { size })
  simp only [cudaMalloc, hinit, hsend]
  cases ready with
  | false => exact steps_of_settled (by simp) (by simp) hset
  | true =>
    rw [if_neg (by simp)]
    cases res with
    | failed => exact steps_of_settled (by simp) (by simp) (hset.trans hset')
    | blocked => exact absurd rfl hres
    | ok resp =>
      dsimp only
      split_ifs
      · exact steps_of_settled (by simp) (by simp) (hset.trans hset')
      · exact steps_of_settled (by simp) (by simp) ((hset.trans hset').update _ _)

theorem steps_cudaFree (h : s.Idle) (devPtr : UInt64) :
    Steps (.cudaFree devPtr) s (cudaFree m devPtr s) := by
  unfold cudaFree
  split_ifs
  · exact steps_of_settled (by simp) (by simp) (.refl h)
  · cases s.tracker.getRemote devPtr with
    | none => exact steps_of_settled (by simp) (by simp) (.refl h)
    | some remotePtr =>
      obtain ⟨res, s', hsend, hres, hset, -⟩ := sendGpuCmd_spec gpuFlagNone h
        (by simp [GpuServer.bufferSize])
        (GpuServer.proper_free (m.cuda s.cudaLog) m.stack ⟨remotePtr⟩)
      simp only [hsend]
      cases res with
      | failed => exact steps_of_settled (by simp) (by simp) hset
      | blocked => exact absurd rfl hres
      | ok resp => exact steps_of_settled (by simp) (by simp) (hset.update _ _)

theorem steps_cudaDeviceSynchronize (h : s.Idle) :
    Steps .cudaDeviceSynchronize s (cudaDeviceSynchronize m s) := by
  unfold cudaDeviceSynchronize
  split_ifs
  · exact steps_of_settled (by simp) (by simp) (.refl h)
  · obtain ⟨res, s', hsend, hres, hset, -⟩ := sendGpuCmd_spec gpuFlagNone h
      (by simp [GpuServer.bufferSize])
      (GpuServer.proper_synchronize (m.cuda s.cudaLog) m.stack (GpuSyncReq.bytes ⟨0⟩))
    simp only [hsend]
    cases res with
    | failed => exact steps_of_settled (by simp) (by simp) hset
    | blocked => exact absurd rfl hres
    | ok resp => exact steps_of_settled (by simp) (by simp) hset

theorem steps_of_failed (hlog : ¬ s.CarriedOut s') (h : s.Settled s') :
    Steps c s (.returned 1 none, s') where
  blocked_iff := by
    constructor
    · intro hb
      cases hb
    · rintro ⟨_, _, _, -, -, hcarried⟩
      exact absurd hcarried hlog
  settled := fun _ => h
  empty := by simp

theorem not_carriedOut (h : s'.cudaLog = s.cudaLog) : ¬ s.CarriedOut s' := by
  simp [CarriedOut, h]

theorem steps_receiveCopy (dst src count : UInt64) (h : s.Settled s') (hcarried : s.CarriedOut s') :
    Steps (.cudaMemcpy dst src count cudaMemcpyDeviceToHost) s (receiveCopy dst count s') := by
  have hrecv : recvExact (!s'.serving) s'.toProxy count.toNat =
      if count.toNat = 0 then ⟨[], [], .done⟩
      else if asked count.toNat ≤ 0 then ⟨[], [], .failed⟩ else ⟨[], [], .blocked⟩ := by
    simp [h.idle.serving, h.idle.toProxy, recvExact]
  have hset (status : RecvStatus) :
      s.Settled { s'.took ⟨[], [], status⟩ with host := storeBytes s'.host dst [] } :=
    ⟨⟨h.idle.toServer, rfl, h.idle.serving⟩, h.balanced⟩
  -- a length that `recv` does not take is not waited for
  have hskip (hle : asked count.toNat ≤ 0) (t : Session) :
      ¬ Awaits (.cudaMemcpy dst src count cudaMemcpyDeviceToHost) s t := by
    rintro ⟨_, _, _, hcall, hpos, -⟩
    cases hcall
    omega
  unfold receiveCopy
  rw [hrecv]
  split_ifs with hzero hasked
  · have hcount : count = 0 := UInt64.toNat_inj.1 hzero
    refine ⟨?_, fun _ => hset .done, ?_⟩
    · simp [hskip (by rw [hzero]; decide)]
    · rintro _ _ _ ⟨⟩ -
      exact hcount
  · refine ⟨?_, fun _ => hset .failed, ?_⟩
    · simp [hskip hasked]
    · simp
  · refine ⟨?_, fun hb => absurd rfl hb, ?_⟩
    · simp only [true_iff]
      exact ⟨dst, src, count, rfl, by omega, hcarried⟩
    · simp

theorem steps_cudaMemcpy (h : s.Idle) (dst src count : UInt64) (kind : ℤ) :
    Steps (.cudaMemcpy dst src count kind) s (cudaMemcpy m dst src count kind s) := by
  obtain ⟨ready, s₁, hinit, hset, hlog⟩ := initializeProxy_spec (m := m) h
  simp only [cudaMemcpy, hinit]
  cases ready with
  | false => exact steps_of_failed (not_carriedOut hlog) hset
  | true =>
    rw [if_neg (by simp)]
    split_ifs with hH2D hD2H
    · have hcall (dst' src' count' : UInt64) :
          Call.cudaMemcpy dst src count kind ≠
            .cudaMemcpy dst' src' count' cudaMemcpyDeviceToHost := by
        simp [hH2D, cudaMemcpyHostToDevice, cudaMemcpyDeviceToHost]
      cases s₁.tracker.getRemote dst with
      | none => exact steps_of_settled hcall (by simp) hset
      | some remoteDst =>
        obtain ⟨res, s₂, hsend, hres, hset', -⟩ := sendGpuCmd_spec gpuFlagAsync hset.idle
          (by simp [GpuServer.bufferSize])
          (GpuServer.proper_memcpyH2D (m.cuda s₁.cudaLog) m.stack
            { dstPtr := remoteDst, srcPtr := src, size := count, kind := 0 })
        simp only [hsend]
        cases res with
        | failed => exact steps_of_settled hcall (by simp) (hset.trans hset')
        | blocked => exact absurd rfl hres
        | ok resp => exact steps_of_settled hcall (by simp) (hset.trans hset')
    · subst hD2H
      cases s₁.tracker.getRemote src with
      | none => exact steps_of_failed (not_carriedOut hlog) hset
      | some remoteSrc =>
        obtain ⟨res, s₂, hsend, hres, hset', hok⟩ := sendGpuCmd_spec gpuFlagNone hset.idle
          (by simp [GpuServer.bufferSize])
          (GpuServer.proper_memcpyD2H (m.cuda s₁.cudaLog) m.stack
            { dstPtr := remoteSrc, srcPtr := dst, size := count, kind := 1 })
        have hcarried : s.CarriedOut s₂ ↔ s₁.CarriedOut s₂ := by simp only [CarriedOut, hlog]
        simp only [hsend]
        cases res with
        | failed => exact steps_of_failed (by rw [hcarried, ← hok]; simp) (hset.trans hset')
        | blocked => exact absurd rfl hres
        | ok resp =>
          exact steps_receiveCopy dst src count (hset.trans hset') (hcarried.2 (hok.1 ⟨resp, rfl⟩))
    · exact steps_of_failed (not_carriedOut hlog) hset

theorem steps_exec (h : s.Idle) (c : Call) : Steps c s (s.exec m c) := by
  cases c with
  | cudaMalloc size => exact steps_cudaMalloc h size
  | cudaFree devPtr => exact steps_cudaFree h devPtr
  | cudaMemcpy dst src count kind => exact steps_cudaMemcpy h dst src count kind
  | cudaDeviceSynchronize => exact steps_cudaDeviceSynchronize h
  | store addr bytes =>
    exact steps_of_settled (by simp) (by simp) ((Settled.refl h).update s.tracker _)

end Session

/-! ## Whole runs -/

namespace Entry

variable (e : Entry)

/-- The call returns, and it has taken from the socket what the server has written for it. -/
def InStep : Prop :=
  e.outcome ≠ .blocked ∧
    e.after.written - e.before.written = e.after.consumed - e.before.consumed

/-- A copy of `count` bytes at `src` to the device that has returned success. -/
def Uploads (devPtr src count : UInt64) : Prop :=
  e.call = .cudaMemcpy devPtr src count Session.cudaMemcpyHostToDevice ∧
    e.outcome = .returned 0 none

/-- A copy of `count` bytes from the device to `dst` that has returned success. -/
def Downloads (dst devPtr count : UInt64) : Prop :=
  e.call = .cudaMemcpy dst devPtr count Session.cudaMemcpyDeviceToHost ∧
    e.outcome = .returned 0 none

def Touches (devPtr : UInt64) : Prop :=
  (∃ src count, e.call = .cudaMemcpy devPtr src count Session.cudaMemcpyHostToDevice) ∨
    e.call = .cudaFree devPtr

end Entry

/-- What has been copied to the device comes back from there. -/
def RoundTrips (entries : List Entry) : Prop :=
  ∀ before up between down after, entries = before ++ up :: (between ++ down :: after) →
    ∀ devPtr src dst count, up.Uploads devPtr src count → down.Downloads dst devPtr count →
      (∀ e ∈ between, ¬ e.Touches devPtr) →
      hostBytes down.after.host dst count.toNat = hostBytes up.before.host src count.toNat

theorem steps_of_mem_trace {m : Machine} {s : Session} {calls : List Call} {e : Entry}
    (h : s.Idle) (he : e ∈ trace m s calls) :
    Session.Steps e.call e.before (e.outcome, e.after) := by
  induction calls generalizing s with
  | nil => simp [trace] at he
  | cons c calls ih =>
    have hstep := Session.steps_exec (m := m) h c
    rcases List.mem_cons.1 he with rfl | htail
    · exact hstep
    · split_ifs at htail with hb
      · simp at htail
      · exact ih (hstep.settled hb).idle htail

def obliging : Machine where
  connects := true
  cuda := fun _ _ => { devPtr := 0x7000 }
  stack := 0

end MemInfo.WindowsLanSharing
