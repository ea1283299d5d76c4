import MemInfo.Lib.Run
import MemInfo.Memclient.ClientApi

/-! # Calls to a client

The four calls of the client's interface, as an application makes them one after the other.
-/

namespace MemInfo

open Lib Prog

inductive Call where
  | allocate (size : ℕ)
  | free (handle : ℕ)
  | read (handle offset size : ℕ)
  | write (handle offset : ℕ) (data : List Byte)
  deriving DecidableEq, Repr

inductive Access where
  | read (offset size : ℕ)
  | write (offset : ℕ) (data : List Byte)
  deriving DecidableEq, Repr

inductive Value where
  | handle (h : ℕ)
  | bytes (data : List Byte)
  | done
  deriving DecidableEq, Repr

def Call.exec : Call → ClientM Value
  | .allocate size => do
    let h ← MemoryClient.allocate size
    return .handle h
  | .free h => do
    MemoryClient.free h
    return .done
  | .read h offset size => do
    let data ← MemoryClient.read h offset size
    return .bytes data
  | .write h offset data => do
    MemoryClient.write h offset data
    return .done

abbrev CallRuns {σ : Type} (env : (o : Effect) → σ → o.Res → σ → Prop) :=
  Allowed fun (s : σ) (call : Call) out s' => Runs env call.exec s out s'

end MemInfo
