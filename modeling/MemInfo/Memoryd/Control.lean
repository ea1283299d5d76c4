import MemInfo.Memoryd.SlabAllocator

/-! # The control socket of memoryd

The control socket reports the occupancy of the pool, in bytes, to the discovery
daemon on the same machine.
-/

namespace MemInfo

/-- The commands of `control.fbs`. The verifier does not check that the byte is one of them. -/
inductive ControlCommand where
  | listPeers
  | getLocalStatus
  | joinPool
  | leavePool
  | getMemoryStats
  | other (code : ℕ)
  deriving DecidableEq, Repr

structure ControlRequest where
  command : ControlCommand
  requestId : ℕ
  deriving DecidableEq, Repr

/-- The fields that memoryd fills in; absent numbers read as 0. -/
structure ControlResponse where
  requestId : ℕ
  success : Bool
  message : String
  poolTotalBytes : ℕ := 0
  poolFreeBytes : ℕ := 0
  poolUsedBytes : ℕ := 0
  deriving DecidableEq, Repr

/-- `MemoryControlSocket`: the pool it reports on may be missing. -/
structure MemoryControlSocket where
  allocator : Option SlabAllocator

/-- `handle_request`. The request is absent when its buffer is shorter than four bytes or
fails verification, and then nothing is answered. -/
def MemoryControlSocket.handleRequest (c : MemoryControlSocket) :
    Option ControlRequest → Option ControlResponse
  | none => none
  | some req =>
    match req.command, c.allocator with
    | .getMemoryStats, some s =>
      let totalBytes := wrap (s.totalPages * s.pageSize)
      let freeBytes := wrap (s.freePagesCount * s.pageSize)
      some
        { requestId := req.requestId, success := true, message := "OK"
          poolTotalBytes := totalBytes
          poolFreeBytes := freeBytes
          poolUsedBytes := wrapSub totalBytes freeBytes }
    | _, _ =>
      some { requestId := req.requestId, success := false, message := "Unsupported command" }

end MemInfo
