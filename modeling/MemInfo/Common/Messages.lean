import MemInfo.Common.Types

/-! # The messages of the memory protocol

The tables of `memory.fbs`. A field that is absent from a table reads as zero, and an
absent vector as `none`. The verifier does not check that an enumeration byte is a
declared value, so the enumerations have a case for the others.
-/

namespace MemInfo

inductive OpCode where
  | alloc
  | write
  | read
  | free
  | ping
  | other (code : ℕ)
  deriving DecidableEq, Repr

inductive StatusCode where
  | ok
  | errorGeneric
  | busy
  | checksumMismatch
  | invalidHandle
  | outOfMemory
  | versionMismatch
  | permissionDenied
  | other (code : ℕ)
  deriving DecidableEq, Repr

structure MemoryRequest where
  protocolVersion : ℕ := 0
  requestId : ℕ := 0
  op : OpCode := .alloc
  handle : ℕ := 0
  size : ℕ := 0
  offset : ℕ := 0
  data : Option (List Byte) := none
  checksum : UInt32 := 0
  deriving DecidableEq, Repr

structure MemoryResponse where
  requestId : ℕ := 0
  status : StatusCode := .ok
  handle : ℕ := 0
  data : Option (List Byte) := none
  checksum : UInt32 := 0
  message : String := ""
  deriving DecidableEq, Repr

end MemInfo
