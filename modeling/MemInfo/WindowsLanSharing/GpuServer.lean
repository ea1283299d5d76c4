import Mathlib.Tactic.SplitIfs
import MemInfo.WindowsLanSharing.GpuWireProtocol

/-! # The GPU server

`handle_client` of `gpu_server.cu`: it reads a header and a payload, asks CUDA, and writes a header
and perhaps a payload. What CUDA answers is left open.
-/

namespace MemInfo.WindowsLanSharing

inductive CopyKind where
  | hostToDevice
  | deviceToHost
  deriving DecidableEq, Repr

inductive CudaCall where
  | malloc (size : UInt64)
  | memcpy (dst src size : UInt64) (kind : CopyKind)
  | deviceSynchronize
  | free (devPtr : UInt64)
  deriving DecidableEq, Repr

structure CudaAnswer where
  /-- The `cudaError_t`, zero for success. -/
  error : ℤ := 0
  devPtr : UInt64 := 0
  deriving DecidableEq, Repr

namespace GpuServer

/-- The opcode and the payload of the response, with the call that CUDA was asked for. -/
structure Reply where
  opcode : UInt8
  payload : List Byte := []
  call : Option (CudaCall × CudaAnswer) := none
  deriving DecidableEq, Repr

/-- The `switch` over the opcode. Where the payload is too short the opcode of the response is
never assigned and holds whatever was on the stack. -/
def reply (cuda : CudaCall → CudaAnswer) (stack opcode : UInt8) (payload : List Byte) : Reply :=
  if opcode = GpuOpcode.malloc.code then
    if payload.length < 16 then { opcode := stack }
    else
      let call := .malloc (GpuMallocReq.ofBytes payload).size
      let answer := cuda call
      if answer.error = 0 then
        { opcode := GpuOpcode.respMallocResult.code
          payload := GpuMallocResp.bytes ⟨answer.devPtr, 0, 0⟩
          call := some (call, answer) }
      else { opcode := GpuOpcode.respError.code, call := some (call, answer) }
  else if opcode = GpuOpcode.memcpyH2D.code then
    if payload.length < 32 then { opcode := stack }
    else
      let req := GpuMemcpyReq.ofBytes payload
      let call := .memcpy req.dstPtr req.srcPtr req.size .hostToDevice
      let answer := cuda call
      if answer.error = 0 then
        { opcode := GpuOpcode.respSuccess.code, call := some (call, answer) }
      else { opcode := GpuOpcode.respError.code, call := some (call, answer) }
  else if opcode = GpuOpcode.memcpyD2H.code then
    if payload.length < 32 then { opcode := stack }
    else
      let req := GpuMemcpyReq.ofBytes payload
      let call := .memcpy req.dstPtr req.srcPtr req.size .deviceToHost
      let answer := cuda call
      -- the bytes stay on the server: the response has no payload
      if answer.error = 0 then
        { opcode := GpuOpcode.respMemcpyD2H.code, call := some (call, answer) }
      else { opcode := GpuOpcode.respError.code, call := some (call, answer) }
  else if opcode = GpuOpcode.synchronize.code then
    let answer := cuda .deviceSynchronize
    { opcode := if answer.error = 0 then GpuOpcode.respSuccess.code else GpuOpcode.respError.code
      call := some (.deviceSynchronize, answer) }
  else if opcode = GpuOpcode.free.code then
    if payload.length < 8 then { opcode := stack }
    else
      let call := .free (GpuFreeReq.ofBytes payload).devicePtr
      let answer := cuda call
      { opcode := if answer.error = 0 then GpuOpcode.respSuccess.code else GpuOpcode.respError.code
        call := some (call, answer) }
  else { opcode := GpuOpcode.respError.code }

/-- What one round of the loop of `handle_client` comes to. -/
inductive Round where
  -- it waits for the rest of a command
  | waits
  -- it breaks, and the socket is closed
  | leaves
  | answers (rest output : List Byte) (call : Option (CudaCall × CudaAnswer))

/-- `sizeof(buffer)`. -/
def bufferSize : ℕ := 8192

def round (cuda : CudaCall → CudaAnswer) (stack : UInt8) (input : List Byte) : Round :=
  if input.length < gpuHeaderSize then .waits
  else
    let hdr := GpuHeader.ofBytes (input.take gpuHeaderSize)
    let payloadLen := hdr.payloadLen.toNat
    if hdr.magic ≠ gpuMagic then .leaves
    else if bufferSize < payloadLen then .leaves
    else if (input.drop gpuHeaderSize).length < payloadLen then .waits
    else
      let payload := (input.drop gpuHeaderSize).take payloadLen
      let r := reply cuda stack hdr.opcode payload
      let respHdr : GpuHeader :=
        ⟨gpuMagic, r.opcode, 0, 0, hdr.sequenceId, .ofNat r.payload.length⟩
      .answers (input.drop (gpuHeaderSize + payloadLen)) (respHdr.bytes ++ r.payload) r.call

section

variable (cuda : CudaCall → CudaAnswer) (stack : UInt8)

theorem round_command {hdr : GpuHeader} {payload : List Byte} (hmagic : hdr.magic = gpuMagic)
    (hlen : hdr.payloadLen.toNat = payload.length) (h : payload.length ≤ bufferSize) :
    let r := reply cuda stack hdr.opcode payload
    round cuda stack (hdr.bytes ++ payload) =
      .answers [] ((GpuHeader.mk gpuMagic r.opcode 0 0 hdr.sequenceId
        (.ofNat r.payload.length)).bytes ++ r.payload) r.call := by
  have htake : (hdr.bytes ++ payload).take gpuHeaderSize = hdr.bytes :=
    List.take_left' hdr.length_bytes
  have hdrop : (hdr.bytes ++ payload).drop gpuHeaderSize = payload :=
    List.drop_left' hdr.length_bytes
  have hrest : (hdr.bytes ++ payload).drop (gpuHeaderSize + payload.length) = [] := by
    rw [← List.drop_drop, hdrop, List.drop_length]
  simp [round, htake, hdrop, hrest, hmagic, hlen, Nat.not_lt.2 h]

theorem round_nil : round cuda stack [] = .waits := rfl

@[simp] theorem reply_malloc (req : GpuMallocReq) :
    reply cuda stack GpuOpcode.malloc.code req.bytes =
      let answer := cuda (.malloc req.size)
      if answer.error = 0 then
        ⟨GpuOpcode.respMallocResult.code, GpuMallocResp.bytes ⟨answer.devPtr, 0, 0⟩,
          some (.malloc req.size, answer)⟩
      else ⟨GpuOpcode.respError.code, [], some (.malloc req.size, answer)⟩ := by
  simp [reply]

@[simp] theorem reply_memcpyH2D (req : GpuMemcpyReq) :
    reply cuda stack GpuOpcode.memcpyH2D.code req.bytes =
      let call := .memcpy req.dstPtr req.srcPtr req.size .hostToDevice
      ⟨if (cuda call).error = 0 then GpuOpcode.respSuccess.code else GpuOpcode.respError.code, [],
        some (call, cuda call)⟩ := by
  simp [reply, GpuOpcode.code]
  split_ifs <;> rfl

@[simp] theorem reply_memcpyD2H (req : GpuMemcpyReq) :
    reply cuda stack GpuOpcode.memcpyD2H.code req.bytes =
      let call := .memcpy req.dstPtr req.srcPtr req.size .deviceToHost
      ⟨if (cuda call).error = 0 then GpuOpcode.respMemcpyD2H.code else GpuOpcode.respError.code, [],
        some (call, cuda call)⟩ := by
  simp [reply, GpuOpcode.code]
  split_ifs <;> rfl

@[simp] theorem reply_synchronize (payload : List Byte) :
    reply cuda stack GpuOpcode.synchronize.code payload =
      ⟨if (cuda .deviceSynchronize).error = 0 then GpuOpcode.respSuccess.code
        else GpuOpcode.respError.code, [], some (.deviceSynchronize, cuda .deviceSynchronize)⟩ := by
  simp [reply, GpuOpcode.code]

@[simp] theorem reply_free (req : GpuFreeReq) :
    reply cuda stack GpuOpcode.free.code req.bytes =
      let call := .free req.devicePtr
      ⟨if (cuda call).error = 0 then GpuOpcode.respSuccess.code else GpuOpcode.respError.code, [],
        some (call, cuda call)⟩ := by
  simp [reply, GpuOpcode.code]

/-- A reply that the proxy can read: an error has no payload, any other fits, and it is an error
when CUDA has given one. -/
structure Reply.Proper (r : Reply) : Prop where
  error : r.opcode = GpuOpcode.respError.code → r.payload = []
  length : r.payload.length ≤ 16
  asked : ∃ call answer, r.call = some (call, answer) ∧
    (r.opcode = GpuOpcode.respError.code ↔ answer.error ≠ 0)

theorem proper_of_code {call : CudaCall} {answer : CudaAnswer} {code : UInt8}
    (hcode : code ≠ GpuOpcode.respError.code) :
    Reply.Proper ⟨if answer.error = 0 then code else GpuOpcode.respError.code, [],
      some (call, answer)⟩ where
  error := fun _ => rfl
  length := Nat.zero_le _
  asked := ⟨call, answer, rfl, by
    by_cases h : answer.error = 0 <;> simp [h, hcode]⟩

theorem proper_malloc (req : GpuMallocReq) :
    (reply cuda stack GpuOpcode.malloc.code req.bytes).Proper := by
  rw [reply_malloc]
  by_cases h : (cuda (.malloc req.size)).error = 0
  · have hcode : GpuOpcode.respMallocResult.code ≠ GpuOpcode.respError.code := by decide
    simp only [h, if_true]
    exact ⟨fun he => absurd he hcode, by simp, _, _, rfl, by simp [h, hcode]⟩
  · simp only [h, if_false]
    exact ⟨fun _ => rfl, Nat.zero_le _, _, _, rfl, by simp [h]⟩

theorem proper_memcpyH2D (req : GpuMemcpyReq) :
    (reply cuda stack GpuOpcode.memcpyH2D.code req.bytes).Proper := by
  rw [reply_memcpyH2D]
  exact proper_of_code (by decide)

theorem proper_memcpyD2H (req : GpuMemcpyReq) :
    (reply cuda stack GpuOpcode.memcpyD2H.code req.bytes).Proper := by
  rw [reply_memcpyD2H]
  exact proper_of_code (by decide)

theorem proper_synchronize (payload : List Byte) :
    (reply cuda stack GpuOpcode.synchronize.code payload).Proper := by
  rw [reply_synchronize]
  exact proper_of_code (by decide)

theorem proper_free (req : GpuFreeReq) :
    (reply cuda stack GpuOpcode.free.code req.bytes).Proper := by
  rw [reply_free]
  exact proper_of_code (by decide)

end

end GpuServer

end MemInfo.WindowsLanSharing
