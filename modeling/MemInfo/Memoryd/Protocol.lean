import MemInfo.Common.Crc32c
import MemInfo.Common.Messages
import MemInfo.Memoryd.PageTracker

/-! # Request processing of memoryd

`MemoryProtocol::process_request` over the page tracker, for requests that passed
verification, and the end of a session.
-/

namespace MemInfo

open Lib

namespace MemoryProtocol

def buildResponse (req : MemoryRequest) (status : StatusCode) (message : String)
    (handle : ℕ := 0) (data : List Byte := []) (checksum : UInt32 := 0) : MemoryResponse :=
  { requestId := req.requestId, status, message, handle
    data := if data.length > 0 then some data else none
    checksum := if data.length > 0 then checksum else 0 }

/-- The body of the `try` block: the requests that the tracker may refuse. -/
def dispatch (t : PageTracker) (sessionId : ℕ) (req : MemoryRequest) :
    Except Err MemoryResponse × PageTracker :=
  match req.op with
  | .alloc =>
    match t.allocate req.size with
    | (.error e, t) => (.error e, t)
    | (.ok handle, t) =>
      (.ok (buildResponse req .ok "OK" handle), t.assignOwner handle sessionId)
  | .free =>
    match t.free req.handle sessionId with
    | (.error e, t) => (.error e, t)
    | (.ok (), t) => (.ok (buildResponse req .ok "OK"), t)
  | .write =>
    match req.data with
    | none => (.ok (buildResponse req .errorGeneric "Missing data payload"), t)
    | some data =>
      if crc32c data ≠ req.checksum then
        (.ok (buildResponse req .checksumMismatch "CRC32C mismatch"), t)
      else
        match t.write req.handle req.offset data sessionId with
        | (.error e, t) => (.error e, t)
        | (.ok (), t) => (.ok (buildResponse req .ok "OK"), t)
  | .read =>
    if req.size > maxMessageSize then
      (.ok (buildResponse req .errorGeneric "Requested read size exceeds maximum message size"), t)
    else
      match t.read req.handle req.offset req.size sessionId with
      | .error e => (.error e, t)
      | .ok readData => (.ok (buildResponse req .ok "OK" 0 readData (crc32c readData)), t)
  | .ping => (.ok (buildResponse req .ok "PONG"), t)
  | .other _ => (.ok (buildResponse req .errorGeneric "Unsupported operation"), t)

/-- The `catch` clauses. -/
def failure (req : MemoryRequest) : Err → MemoryResponse
  | .permissionDenied => buildResponse req .permissionDenied Err.permissionDenied.what
  | .invalidArgument w => buildResponse req .invalidHandle w
  | .badAlloc => buildResponse req .outOfMemory "Not enough contiguous free pages"
  | e => buildResponse req .errorGeneric e.what

def processRequest (t : PageTracker) (sessionId : ℕ) (req : MemoryRequest) :
    MemoryResponse × PageTracker :=
  if req.protocolVersion ≠ protocolVersion then
    (buildResponse req .versionMismatch "Protocol version mismatch", t)
  else
    match dispatch t sessionId req with
    | (.ok r, t) => (r, t)
    | (.error e, t) => (failure req e, t)

end MemoryProtocol

/-- What reaches the daemon: a verified request of a session, or the end of a session. -/
inductive Event where
  | request (sessionId : ℕ) (req : MemoryRequest)
  | disconnect (sessionId : ℕ) (ord : IterOrder ℕ)

def Event.session : Event → ℕ
  | .request s _ => s
  | .disconnect s _ => s

/-- The daemon serves one event at a time; `~ClientSession` sweeps what the session owns. -/
def PageTracker.serve (t : PageTracker) : Event → Option MemoryResponse × PageTracker
  | .request s req =>
    let r := MemoryProtocol.processRequest t s req
    (some r.1, r.2)
  | .disconnect s ord => (none, t.freeAllForOwner ord s)

end MemInfo
