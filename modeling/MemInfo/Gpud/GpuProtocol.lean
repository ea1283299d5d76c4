import MemInfo.Common.Types
import MemInfo.Lib.Dict
import MemInfo.Lib.Window

/-! # The GPU protocol

`GpuProtocol::process_request` over the stub executor, which keeps device memory in blocks of
host memory. A copy has three lengths: the size field of the request, the length of its data and
the size of the allocation. The code compares none of them.
-/

namespace MemInfo

open Lib

/-- The verifier does not check that an enumeration byte is a declared value. -/
inductive GpuOpCode where
  | cudaMalloc
  | cudaFree
  | cudaMemcpy
  | cudaLaunchKernel
  | cudaGetDeviceProperties
  | cudaDeviceSynchronize
  | other (code : ℕ)
  deriving DecidableEq, Repr

inductive MemcpyKind where
  | hostToDevice
  | deviceToHost
  | deviceToDevice
  | hostToHost
  | other (code : ℕ)
  deriving DecidableEq, Repr

structure GpuRequest where
  protocolVersion : ℕ := 0
  requestId : ℕ := 0
  op : GpuOpCode := .cudaMalloc
  devicePtr : ℕ := 0
  size : ℕ := 0
  data : Option (List Byte) := none
  memcpyKind : MemcpyKind := .hostToDevice
  dstPtr : ℕ := 0
  srcPtr : ℕ := 0
  deriving DecidableEq, Repr

structure GpuResponse where
  requestId : ℕ
  errorCode : ℤ
  devicePtr : ℕ := 0
  data : List Byte := []
  message : String := ""
  deriving DecidableEq, Repr

structure GpuRuntime where
  /-- The address that `std::malloc` returns, if it does. -/
  malloc : Option ℕ
  /-- What the memory at that address holds. -/
  contents : ℕ → Byte
  /-- The buffer of the response can be resized, and the response built from it. -/
  resizes : Bool

/-- `allocations_` with the memory it names. The recorded size is the number of the bytes. -/
structure CudaExecutorStub where
  allocations : Dict ℕ (List Byte) := ∅

namespace CudaExecutorStub

variable (rt : GpuRuntime) (e : CudaExecutorStub)

/-- The error code, `*devPtr` and the executor after the call. -/
def allocate (size : ℕ) : ℤ × ℕ × CudaExecutorStub :=
  match rt.malloc with
  | none => (2, 0, e)
  | some devPtr => (0, devPtr, ⟨e.allocations.insert devPtr (window rt.contents 0 size)⟩)

def free (devPtr : ℕ) : ℤ × CudaExecutorStub :=
  match e.allocations.lookup devPtr with
  | none => (11, e)
  | some _ => (0, ⟨e.allocations.erase devPtr⟩)

/-- `memcpy` has no defined behaviour outside of the two objects. -/
def memcpyHtoD (dst : ℕ) (src : List Byte) (size : ℕ) : Except Err (ℤ × CudaExecutorStub) :=
  match e.allocations.lookup dst with
  | none => .ok (11, e)
  | some bytes =>
    if size ≤ bytes.length ∧ size ≤ src.length then
      .ok (0, ⟨e.allocations.insert dst (splice bytes 0 (src.take size))⟩)
    else .error .undefinedBehaviour

/-- The error code and the buffer, which has been filled with zeros before the call. -/
def memcpyDtoH (src size : ℕ) : Except Err (ℤ × List Byte) :=
  match e.allocations.lookup src with
  | none => .ok (11, List.replicate size 0)
  | some bytes =>
    if size ≤ bytes.length then .ok (0, bytes.take size) else .error .undefinedBehaviour

def getDeviceProperties : String × ℕ := ("Stubbed GPU (Host RAM)", 1024 * 1024 * 1024)

end CudaExecutorStub

/-- `process_request` of a buffer that the verifier has accepted. -/
def GpuProtocol.processRequest (rt : GpuRuntime) (e : CudaExecutorStub) (req : GpuRequest) :
    Except Err (GpuResponse × CudaExecutorStub) :=
  let id := req.requestId
  if req.protocolVersion ≠ protocolVersion then
    .ok (⟨id, -1, 0, [], "Protocol version mismatch"⟩, e)
  else
    match req.op with
    | .cudaMalloc =>
      let (err, devPtr, e') := e.allocate rt req.size
      .ok (⟨id, err, devPtr, [], ""⟩, e')
    | .cudaFree =>
      let (err, e') := e.free req.devicePtr
      .ok (⟨id, err, 0, [], ""⟩, e')
    | .cudaMemcpy =>
      match req.memcpyKind with
      | .hostToDevice =>
        match req.data with
        | none => .ok (⟨id, 11, 0, [], ""⟩, e)
        | some data => do
          let (err, e') ← e.memcpyHtoD req.dstPtr data req.size
          return (⟨id, err, 0, [], ""⟩, e')
      | .deviceToHost => do
        if !rt.resizes then throw .badAlloc
        let (err, data) ← e.memcpyDtoH req.srcPtr req.size
        return (⟨id, err, 0, data, ""⟩, e)
      | _ => .ok (⟨id, 11, 0, [], ""⟩, e)
    | .cudaGetDeviceProperties =>
      let (name, totalMem) := CudaExecutorStub.getDeviceProperties
      .ok (⟨id, 0, totalMem, [], name⟩, e)
    | _ => .ok (⟨id, 1, 0, [], "Unsupported operation"⟩, e)

/-! ## Copies in bounds -/

namespace GpuRequest

variable (rt : GpuRuntime) (e : CudaExecutorStub) (req : GpuRequest)

def Copies (kind : MemcpyKind) : Prop :=
  req.protocolVersion = MemInfo.protocolVersion ∧ req.op = .cudaMemcpy ∧ req.memcpyKind = kind

/-- The request names a live allocation and asks for more bytes than it has, or for more than
come with the request. -/
def Exceeds : Prop :=
  (req.Copies .hostToDevice ∧ ∃ data bytes, req.data = some data ∧
      e.allocations.lookup req.dstPtr = some bytes ∧
      (bytes.length < req.size ∨ data.length < req.size)) ∨
    (req.Copies .deviceToHost ∧ ∃ bytes, e.allocations.lookup req.srcPtr = some bytes ∧
      bytes.length < req.size)

/-- The lengths of the request agree, and the response buffer it asks for can be had. -/
def Fits : Prop := ¬ req.Exceeds e ∧ (req.Copies .deviceToHost → rt.resizes = true)

/-- The request is answered. Nothing outside of the allocation, the data and the response buffer
is touched, and a request that exceeds them fails and changes nothing. -/
def AnsweredWith (resp : GpuResponse) (e' : CudaExecutorStub) : Prop :=
  GpuProtocol.processRequest rt e req = .ok (resp, e') ∧
    (req.Exceeds e → resp.errorCode ≠ 0 ∧ e' = e)

variable {rt e req}

theorem memcpyHtoD_isOk {dst size : ℕ} {src : List Byte} :
    (∃ r, e.memcpyHtoD dst src size = .ok r) ↔
      ∀ bytes, e.allocations.lookup dst = some bytes → size ≤ bytes.length ∧ size ≤ src.length := by
  unfold CudaExecutorStub.memcpyHtoD
  cases e.allocations.lookup dst with
  | none => simp
  | some bytes =>
    by_cases h : size ≤ bytes.length ∧ size ≤ src.length <;> simp [h]

theorem memcpyDtoH_isOk {src size : ℕ} :
    (∃ r, e.memcpyDtoH src size = .ok r) ↔
      ∀ bytes, e.allocations.lookup src = some bytes → size ≤ bytes.length := by
  unfold CudaExecutorStub.memcpyDtoH
  cases e.allocations.lookup src with
  | none => simp
  | some bytes =>
    by_cases h : size ≤ bytes.length <;> simp [h]

theorem isOk_of_not_copies (hto : ¬ req.Copies .hostToDevice) (hfrom : ¬ req.Copies .deviceToHost) :
    ∃ r, GpuProtocol.processRequest rt e req = .ok r := by
  unfold GpuProtocol.processRequest
  dsimp only
  split
  · exact ⟨_, rfl⟩
  next hv =>
    have hv := not_not.mp hv
    split
    case h_3 hop =>
      split
      next hk => exact absurd ⟨hv, hop, hk⟩ hto
      next hk => exact absurd ⟨hv, hop, hk⟩ hfrom
      next => exact ⟨_, rfl⟩
    all_goals exact ⟨_, rfl⟩

theorem isOk_hostToDevice (h : req.Copies .hostToDevice) :
    (∃ r, GpuProtocol.processRequest rt e req = .ok r) ↔
      ∀ data, req.data = some data → ∃ r, e.memcpyHtoD req.dstPtr data req.size = .ok r := by
  obtain ⟨hv, hop, hk⟩ := h
  cases hdata : req.data with
  | none => simp [GpuProtocol.processRequest, hv, hop, hk, hdata]
  | some data =>
    simp only [GpuProtocol.processRequest, hv, hop, hk, hdata]
    cases hcopy : e.memcpyHtoD req.dstPtr data req.size with
    | error err => simp [hcopy, bind, Except.bind]
    | ok r =>
      refine iff_of_true ⟨_, rfl⟩ ?_
      rintro _ ⟨⟩
      exact ⟨r, hcopy⟩

theorem isOk_deviceToHost (h : req.Copies .deviceToHost) :
    (∃ r, GpuProtocol.processRequest rt e req = .ok r) ↔
      rt.resizes = true ∧ ∃ r, e.memcpyDtoH req.srcPtr req.size = .ok r := by
  obtain ⟨hv, hop, hk⟩ := h
  simp only [GpuProtocol.processRequest, hv, hop, hk]
  cases rt.resizes <;> cases e.memcpyDtoH req.srcPtr req.size <;>
    simp [bind, Except.bind, pure, Except.pure, throw, throwThe, MonadExceptOf.throw]

theorem isOk_iff_fits : (∃ r, GpuProtocol.processRequest rt e req = .ok r) ↔ req.Fits rt e := by
  by_cases hto : req.Copies .hostToDevice
  · have hfrom : ¬ req.Copies .deviceToHost := fun h => absurd (hto.2.2.symm.trans h.2.2) nofun
    simp only [isOk_hostToDevice hto, memcpyHtoD_isOk, Fits, Exceeds, hto, hfrom]
    grind
  by_cases hfrom : req.Copies .deviceToHost
  · simp only [isOk_deviceToHost hfrom, memcpyDtoH_isOk, Fits, Exceeds, hto, hfrom]
    grind
  · refine ⟨fun _ => ⟨?_, fun h => absurd h hfrom⟩, fun _ => isOk_of_not_copies hto hfrom⟩
    rintro (⟨h, -⟩ | ⟨h, -⟩)
    · exact hto h
    · exact hfrom h

theorem answered_iff_fits : (∃ resp e', req.AnsweredWith rt e resp e') ↔ req.Fits rt e := by
  rw [← isOk_iff_fits]
  constructor
  · rintro ⟨resp, e', h, -⟩
    exact ⟨_, h⟩
  · rintro ⟨⟨resp, e'⟩, h⟩
    exact ⟨resp, e', h, fun hx => absurd hx (isOk_iff_fits.mp ⟨_, h⟩).1⟩

end GpuRequest

def AllAnswered : CudaExecutorStub → List (GpuRuntime × GpuRequest) → Prop
  | _, [] => True
  | e, (rt, req) :: rest => ∃ resp e', req.AnsweredWith rt e resp e' ∧ AllAnswered e' rest

def AllFit : CudaExecutorStub → List (GpuRuntime × GpuRequest) → Prop
  | _, [] => True
  | e, (rt, req) :: rest =>
    req.Fits rt e ∧ ∀ resp e', GpuProtocol.processRequest rt e req = .ok (resp, e') → AllFit e' rest

theorem allAnswered_iff_allFit (requests : List (GpuRuntime × GpuRequest)) (e : CudaExecutorStub) :
    AllAnswered e requests ↔ AllFit e requests := by
  induction requests generalizing e with
  | nil => exact Iff.rfl
  | cons head rest ih =>
    obtain ⟨rt, req⟩ := head
    constructor
    · rintro ⟨resp, e', h, hrest⟩
      refine ⟨GpuRequest.answered_iff_fits.mp ⟨resp, e', h⟩, fun resp' e'' h' => ?_⟩
      obtain ⟨rfl, rfl⟩ := Prod.mk.inj (Except.ok.inj (h.1.symm.trans h'))
      exact (ih e').mp hrest
    · rintro ⟨hfits, hrest⟩
      obtain ⟨resp, e', h⟩ := GpuRequest.answered_iff_fits.mpr hfits
      exact ⟨resp, e', h, (ih e').mpr (hrest resp e' h.1)⟩

/-- The requests that a fresh executor is sent are all answered, with their copies in bounds,
exactly if each of them fits when its turn comes. -/
theorem gpu_requests_answered_iff (requests : List (GpuRuntime × GpuRequest)) :
    AllAnswered {} requests ↔ AllFit {} requests :=
  allAnswered_iff_allFit requests {}

/-- `malloc` returns the address 4096. -/
def smallRuntime (resizes : Bool) : GpuRuntime := ⟨some 4096, fun _ => 0, resizes⟩

def mallocRequest (size : ℕ) : GpuRequest := { protocolVersion, op := .cudaMalloc, size }

def uploadRequest (size : ℕ) (data : List Byte) : GpuRequest :=
  { protocolVersion, op := .cudaMemcpy, size, data := some data, dstPtr := 4096 }

def downloadRequest (size : ℕ) : GpuRequest :=
  { protocolVersion, op := .cudaMemcpy, memcpyKind := .deviceToHost, size, srcPtr := 4096 }

/-- Four bytes are copied into an allocation of two bytes, four bytes out of data of two bytes
or out of an allocation of two; and a response of `2 ^ 63` bytes is asked for. -/
theorem gpu_memcpy_out_of_bounds :
    ¬ AllAnswered {} [(smallRuntime true, mallocRequest 2),
      (smallRuntime true, uploadRequest 4 [1, 2, 3, 4])] ∧
    ¬ AllAnswered {} [(smallRuntime true, mallocRequest 4),
      (smallRuntime true, uploadRequest 4 [1, 2])] ∧
    ¬ AllAnswered {} [(smallRuntime true, mallocRequest 2),
      (smallRuntime true, downloadRequest 4)] ∧
    ¬ AllAnswered {} [(smallRuntime false, downloadRequest (2 ^ 63))] := by
  have hafter : ∀ n req resp e', (AllAnswered {} [(smallRuntime true, mallocRequest n),
      (smallRuntime true, req)]) →
      GpuProtocol.processRequest (smallRuntime true) {} (mallocRequest n) = .ok (resp, e') →
      ∃ r, GpuProtocol.processRequest (smallRuntime true) e' req = .ok r := by
    rintro n req resp e' ⟨_, _, ⟨h, -⟩, resp', e'', ⟨h', -⟩, -⟩ hmalloc
    obtain ⟨-, rfl⟩ := Prod.mk.inj (Except.ok.inj (h.symm.trans hmalloc))
    exact ⟨_, h'⟩
  refine ⟨fun h => ?_, fun h => ?_, fun h => ?_, ?_⟩
  · obtain ⟨r, hr⟩ := hafter _ _ _ _ h rfl
    exact absurd hr nofun
  · obtain ⟨r, hr⟩ := hafter _ _ _ _ h rfl
    exact absurd hr nofun
  · obtain ⟨r, hr⟩ := hafter _ _ _ _ h rfl
    exact absurd hr nofun
  · rintro ⟨resp, e', ⟨h, -⟩, -⟩
    exact absurd h nofun

end MemInfo
