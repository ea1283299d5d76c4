import MemInfo.Common.Types
import MemInfo.Lib.LittleEndian

/-! # The GPU wire protocol

The packed structures of `GpuWireProtocol.hpp` that the proxy and the server put on the socket: a
header of 16 bytes and the payloads of the requests, and the only payload of a response. The
structures are sent as they lie in memory, least significant byte first.
-/

namespace MemInfo.WindowsLanSharing

open Lib LittleEndian

/-- `GPU_MAGIC`. -/
def gpuMagic : UInt32 := 0x47505531

inductive GpuOpcode where
  | malloc
  | memcpyH2D
  | memcpyD2H
  | synchronize
  | free
  | respSuccess
  | respError
  | respMallocResult
  | respMemcpyD2H
  deriving DecidableEq, Repr

def GpuOpcode.code : GpuOpcode → UInt8
  | .malloc => 1
  | .memcpyH2D => 2
  | .memcpyD2H => 3
  | .synchronize => 4
  | .free => 5
  | .respSuccess => 0x80
  | .respError => 0x81
  | .respMallocResult => 0x82
  | .respMemcpyD2H => 0x83

/-- `GPU_FLAG_NONE`. -/
def gpuFlagNone : UInt8 := 0

/-- `GPU_FLAG_ASYNC`. -/
def gpuFlagAsync : UInt8 := 1

/-! ## Fields -/

def u8 (x : UInt8) : List Byte := encode 1 x.toNat

def u16 (x : UInt16) : List Byte := encode 2 x.toNat

def u32 (x : UInt32) : List Byte := encode 4 x.toNat

def u64 (x : UInt64) : List Byte := encode 8 x.toNat

/-- The field of `k` bytes at the offset `i`. -/
def field (i k : ℕ) (s : List Byte) : ℕ := decode ((s.drop i).take k)

section Fields

variable (s : List Byte) (i k : ℕ)

@[simp] theorem length_u8 (x : UInt8) : (u8 x).length = 1 := length_encode _ _

@[simp] theorem length_u16 (x : UInt16) : (u16 x).length = 2 := length_encode _ _

@[simp] theorem length_u32 (x : UInt32) : (u32 x).length = 4 := length_encode _ _

@[simp] theorem length_u64 (x : UInt64) : (u64 x).length = 8 := length_encode _ _

@[simp] theorem field_u8 (x : UInt8) : field 0 1 (u8 x ++ s) = x.toNat :=
  decode_take_encode x.toNat_lt s

@[simp] theorem field_u16 (x : UInt16) : field 0 2 (u16 x ++ s) = x.toNat :=
  decode_take_encode x.toNat_lt s

@[simp] theorem field_u32 (x : UInt32) : field 0 4 (u32 x ++ s) = x.toNat :=
  decode_take_encode x.toNat_lt s

@[simp] theorem field_u64 (x : UInt64) : field 0 8 (u64 x ++ s) = x.toNat :=
  decode_take_encode x.toNat_lt s

@[simp] theorem field_u32_self (x : UInt32) : field 0 4 (u32 x) = x.toNat := by
  simpa using field_u32 [] x

@[simp] theorem field_u64_self (x : UInt64) : field 0 8 (u64 x) = x.toNat := by
  simpa using field_u64 [] x

theorem field_append {a : List Byte} (h : a.length ≤ i) :
    field i k (a ++ s) = field (i - a.length) k s := by
  obtain ⟨j, rfl⟩ := Nat.exists_eq_add_of_le h
  rw [field, field, ← List.drop_drop, List.drop_left, Nat.add_sub_cancel_left]

end Fields

/-! ## Structures -/

structure GpuHeader where
  magic : UInt32
  opcode : UInt8
  flags : UInt8
  reserved : UInt16
  sequenceId : UInt32
  payloadLen : UInt32
  deriving DecidableEq, Repr

/-- `sizeof(GpuHeader)`. -/
def gpuHeaderSize : ℕ := 16

namespace GpuHeader

def bytes (h : GpuHeader) : List Byte :=
  u32 h.magic ++ (u8 h.opcode ++ (u8 h.flags ++ (u16 h.reserved ++ (u32 h.sequenceId ++
    u32 h.payloadLen))))

def ofBytes (s : List Byte) : GpuHeader where
  magic := .ofNat (field 0 4 s)
  opcode := .ofNat (field 4 1 s)
  flags := .ofNat (field 5 1 s)
  reserved := .ofNat (field 6 2 s)
  sequenceId := .ofNat (field 8 4 s)
  payloadLen := .ofNat (field 12 4 s)

@[simp] theorem length_bytes (h : GpuHeader) : h.bytes.length = gpuHeaderSize := by
  simp [bytes, gpuHeaderSize]

@[simp] theorem ofBytes_bytes (h : GpuHeader) : ofBytes h.bytes = h := by
  simp [ofBytes, bytes, field_append]

end GpuHeader

structure GpuMallocReq where
  size : UInt64
  alignment : UInt32 := 256
  reserved : UInt32 := 0
  deriving DecidableEq, Repr

namespace GpuMallocReq

def bytes (r : GpuMallocReq) : List Byte := u64 r.size ++ (u32 r.alignment ++ u32 r.reserved)

def ofBytes (s : List Byte) : GpuMallocReq where
  size := .ofNat (field 0 8 s)
  alignment := .ofNat (field 8 4 s)
  reserved := .ofNat (field 12 4 s)

@[simp] theorem length_bytes (r : GpuMallocReq) : r.bytes.length = 16 := by simp [bytes]

@[simp] theorem ofBytes_bytes (r : GpuMallocReq) : ofBytes r.bytes = r := by
  simp [ofBytes, bytes, field_append]

end GpuMallocReq

structure GpuMallocResp where
  devicePtr : UInt64
  errorCode : UInt32
  reserved : UInt32
  deriving DecidableEq, Repr

namespace GpuMallocResp

def bytes (r : GpuMallocResp) : List Byte := u64 r.devicePtr ++ (u32 r.errorCode ++ u32 r.reserved)

def ofBytes (s : List Byte) : GpuMallocResp where
  devicePtr := .ofNat (field 0 8 s)
  errorCode := .ofNat (field 8 4 s)
  reserved := .ofNat (field 12 4 s)

@[simp] theorem length_bytes (r : GpuMallocResp) : r.bytes.length = 16 := by simp [bytes]

@[simp] theorem ofBytes_bytes (r : GpuMallocResp) : ofBytes r.bytes = r := by
  simp [ofBytes, bytes, field_append]

end GpuMallocResp

structure GpuMemcpyReq where
  dstPtr : UInt64
  srcPtr : UInt64
  size : UInt64
  kind : UInt32
  reserved : UInt32 := 0
  deriving DecidableEq, Repr

namespace GpuMemcpyReq

def bytes (r : GpuMemcpyReq) : List Byte :=
  u64 r.dstPtr ++ (u64 r.srcPtr ++ (u64 r.size ++ (u32 r.kind ++ u32 r.reserved)))

def ofBytes (s : List Byte) : GpuMemcpyReq where
  dstPtr := .ofNat (field 0 8 s)
  srcPtr := .ofNat (field 8 8 s)
  size := .ofNat (field 16 8 s)
  kind := .ofNat (field 24 4 s)
  reserved := .ofNat (field 28 4 s)

@[simp] theorem length_bytes (r : GpuMemcpyReq) : r.bytes.length = 32 := by simp [bytes]

@[simp] theorem ofBytes_bytes (r : GpuMemcpyReq) : ofBytes r.bytes = r := by
  simp [ofBytes, bytes, field_append]

end GpuMemcpyReq

structure GpuSyncReq where
  stream : UInt64
  deriving DecidableEq, Repr

def GpuSyncReq.bytes (r : GpuSyncReq) : List Byte := u64 r.stream

@[simp] theorem GpuSyncReq.length_bytes (r : GpuSyncReq) : r.bytes.length = 8 := by simp [bytes]

structure GpuFreeReq where
  devicePtr : UInt64
  deriving DecidableEq, Repr

namespace GpuFreeReq

def bytes (r : GpuFreeReq) : List Byte := u64 r.devicePtr

def ofBytes (s : List Byte) : GpuFreeReq where
  devicePtr := .ofNat (field 0 8 s)

@[simp] theorem length_bytes (r : GpuFreeReq) : r.bytes.length = 8 := by simp [bytes]

@[simp] theorem ofBytes_bytes (r : GpuFreeReq) : ofBytes r.bytes = r := by
  simp [ofBytes, bytes]

end GpuFreeReq

/-! ## Receiving -/

inductive RecvStatus where
  | done
  | failed
  -- `recv` waits for bytes that nobody has sent
  | blocked
  deriving DecidableEq, Repr

structure Received where
  bytes : List Byte
  /-- What is left in the socket. -/
  rest : List Byte
  status : RecvStatus
  deriving DecidableEq, Repr

/-- The length `recv` is asked for, `static_cast<int>(remaining)`. -/
def asked (remaining : ℕ) : ℤ := (remaining : ℤ).bmod (2 ^ 32)

/-- `recv_exact` on a socket that holds `available`, where each `recv` gives one byte. For a length
that is no positive `int`, `recv` fails or gives nothing, and both end the loop. -/
def recvExact (closed : Bool) : List Byte → ℕ → Received
  | [], remaining =>
    if remaining = 0 then ⟨[], [], .done⟩
    else if asked remaining ≤ 0 ∨ closed then ⟨[], [], .failed⟩
    else ⟨[], [], .blocked⟩
  | b :: s, remaining =>
    if remaining = 0 then ⟨[], b :: s, .done⟩
    else if asked remaining ≤ 0 then ⟨[], b :: s, .failed⟩
    else
      let r := recvExact closed s (remaining - 1)
      { r with bytes := b :: r.bytes }

theorem asked_of_lt {n : ℕ} (h : n < 2 ^ 31) : asked n = n := by
  unfold asked
  rw [Int.bmod_def]
  omega

theorem recvExact_append (closed : Bool) {a : List Byte} (s : List Byte) (h : a.length < 2 ^ 31) :
    recvExact closed (a ++ s) a.length = ⟨a, s, .done⟩ := by
  induction a with
  | nil => cases s <;> simp [recvExact]
  | cons b a ih =>
    rw [List.length_cons] at h
    have hpos : ¬ asked (a.length + 1) ≤ 0 := by
      rw [asked_of_lt h]
      omega
    simp [recvExact, hpos, ih (by omega)]

end MemInfo.WindowsLanSharing
