import MemInfo.Memclient.Placement

/-! # What a log says

The allocations that were acknowledged in a log of the client, the blocks that were freed, what
the client last read of a peer, and what became of `remote_handles_`.
-/

namespace MemInfo

open Lib Prog

namespace MemoryClient

def ack : Event Effect Effect.Res → Option (Ref × ℕ)
  | ⟨.net (.call p req), .response resp⟩ =>
    if req.op = .alloc ∧ resp.status = .ok then some ((p, resp.handle), req.size) else none
  | _ => none

def acks (log : Log) : List (Ref × ℕ) := log.filterMap ack

def freed : Event Effect Effect.Res → Option Ref
  | ⟨.net (.call p req), _⟩ => if req.op = .free then some (p, req.handle) else none
  | _ => none

def frees (log : Log) : List Ref := log.filterMap freed

def reading (p : ℕ) : Event Effect Effect.Res → Option RemotePeer
  | ⟨.net (.peer q), peer⟩ => if q = p then some peer else none
  | _ => none

def lastReading (p : ℕ) (log : Log) : Option RemotePeer := (log.filterMap (reading p)).getLast?

/-- What an effect does to `remote_handles_`. -/
def record (entries : Dict ℕ RemoteAllocation) :
    Event Effect Effect.Res → Dict ℕ RemoteAllocation
  | ⟨.mem (.remoteInsert handle alloc), _⟩ => entries.insert handle alloc
  | ⟨.mem (.remoteTake handle), _⟩ => entries.erase handle
  | _ => entries

/-- Every ALLOC is to a peer that was read before, and asks for no more than the capacity that was
read last, if that was known. -/
def WithinCapacity (log : Log) : Prop :=
  ∀ before p req r after, log = before ++ ⟨.net (.call p req), r⟩ :: after → req.op = .alloc →
    ∃ peer, lastReading p before = some peer ∧
      (peer.capacityKnown = true → req.size ≤ peer.freeRamBytes)

section Logs

variable {p : ℕ} {tr tr₁ tr₂ before after : Log} {e : Event Effect Effect.Res}

theorem acks_append : acks (tr₁ ++ tr₂) = acks tr₁ ++ acks tr₂ := List.filterMap_append

theorem frees_append : frees (tr₁ ++ tr₂) = frees tr₁ ++ frees tr₂ := List.filterMap_append

theorem lastReading_append {peer : RemotePeer} (h : lastReading p tr₂ = some peer) :
    lastReading p (tr₁ ++ tr₂) = some peer := by
  unfold lastReading at h ⊢
  rw [List.filterMap_append, List.getLast?_append, h, Option.some_or]

theorem append_eq_cons_cases (h : tr₁ ++ tr₂ = before ++ e :: after) :
    (∃ rest, tr₁ = before ++ e :: rest ∧ after = rest ++ tr₂) ∨
      ∃ rest, tr₂ = rest ++ e :: after ∧ before = tr₁ ++ rest := by
  rcases List.append_eq_append_iff.mp h with ⟨rest, hb, ht⟩ | ⟨rest, ht, hb⟩
  · exact .inr ⟨rest, ht, hb⟩
  · cases rest with
    | nil => exact .inr ⟨[], hb.symm, by simpa using ht.symm⟩
    | cons e' rest =>
      obtain ⟨rfl, rfl⟩ := List.cons.inj hb
      exact .inl ⟨rest, ht, rfl⟩

theorem WithinCapacity.append (h₁ : WithinCapacity tr₁) (h₂ : WithinCapacity tr₂) :
    WithinCapacity (tr₁ ++ tr₂) := by
  intro before p req r after he hop
  obtain ⟨rest, hr, -⟩ | ⟨rest, hr, rfl⟩ := append_eq_cons_cases he
  · exact h₁ before p req r rest hr hop
  · obtain ⟨peer, hp, hle⟩ := h₂ rest p req r after hr hop
    exact ⟨peer, lastReading_append hp, hle⟩

theorem withinCapacity_of_not_alloc
    (h : ∀ e ∈ tr, ∀ p req, e.1 = .net (.call p req) → req.op ≠ .alloc) : WithinCapacity tr := by
  rintro before p req r after rfl hop
  exact absurd hop (h ⟨.net (.call p req), r⟩ (by simp) p req rfl)

end Logs

theorem remoteHandles_eq_foldl {α ν : Type} {net : (o : NetOp) → ν → o.Res → ν → Prop}
    {p : ClientM α} {s s' : Client × ν} {log tr : Log} {out : Outcome Err α}
    (h : Runs (logged (clientEnv net)) p (s, log) out (s', log ++ tr)) :
    s'.1.remoteHandles = tr.foldl record s.1.remoteHandles := by
  induction p generalizing s log tr with
  | op o k ih =>
    obtain ⟨r, ⟨s₁, log₁⟩, ⟨he, hlog⟩, h⟩ := h
    obtain rfl : log₁ = log ++ [⟨o, r⟩] := hlog
    obtain ⟨tr', htr, -⟩ := h.emits_any
    obtain rfl : tr = ⟨o, r⟩ :: tr' := by simpa using htr
    have h₁ : Runs (logged (clientEnv net)) (k r) (s₁, log ++ [⟨o, r⟩]) out
        (s', log ++ [⟨o, r⟩] ++ tr') := by
      rwa [List.append_assoc]
    rw [ih r h₁, List.foldl_cons]
    congr 1
    cases o with
    | net o =>
      obtain ⟨hc, -⟩ := he
      rw [hc]
      rfl
    | mem o =>
      obtain ⟨hr, -⟩ := he
      have hc : s₁.1 = (s.1.perform o).2 := congrArg Prod.snd hr
      rw [hc]
      cases o <;> rfl
  | _ =>
    obtain ⟨-, hs⟩ := h
    obtain ⟨rfl, htr⟩ := Prod.mk.inj hs
    obtain rfl : tr = [] := by simpa using htr
    rfl

end MemoryClient

end MemInfo
