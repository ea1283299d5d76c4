import MemInfo.Memoryd.Control

/-! # The pool probe

`PoolProbe` asks memoryd on the same machine what is left of its pool. It does so on a thread of
its own and hands over the figures by separate stores, so that the daemon may read between them.
-/

namespace MemInfo

inductive ProbeStore where
  | freeBytes (n : UInt64)
  | totalBytes (n : UInt64)
  | available (b : Bool)
  deriving DecidableEq, Repr

structure PoolProbe where
  socketName : String := ""
  running : Bool := false
  available : Bool := false
  freeBytes : UInt64 := 0
  totalBytes : UInt64 := 0
  deriving DecidableEq, Repr

namespace PoolProbe

def start (p : PoolProbe) : PoolProbe :=
  if p.socketName = "" || p.running then p else { p with running := true }

/-- `poll_once`: what it returns, and its stores in their order. The response is absent if the
request failed, or if what came back is too short or malformed. -/
def pollOnce (p : PoolProbe) (resp : Option ControlResponse) : Bool × List ProbeStore :=
  if p.socketName = "" then (false, [])
  else
    match resp with
    | none => (false, [.available false])
    | some r =>
      if !r.success then (false, [.available false])
      else
        (true, [.freeBytes (.ofNat r.poolFreeBytes), .totalBytes (.ofNat r.poolTotalBytes),
          .available true])

def store (p : PoolProbe) : ProbeStore → PoolProbe
  | .freeBytes n => { p with freeBytes := n }
  | .totalBytes n => { p with totalBytes := n }
  | .available b => { p with available := b }

end PoolProbe

end MemInfo
