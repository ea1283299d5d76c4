import MemInfo.Memclient.Upkeep

/-! # Residency under faults

Whatever the peers do, a live handle is a key of exactly one of the client's two tables, as
long as the client's counters do not wrap around.
-/

namespace MemInfo

open Lib Prog MemoryClient

variable {ν : Type} {net : (o : NetOp) → ν → o.Res → ν → Prop}

/-- An OK answer to a READ carries as many bytes as were asked for. -/
def ReadsWhole (net : (o : NetOp) → ν → o.Res → ν → Prop) : Prop :=
  ∀ p req w resp w', net (.call p req) w (.response resp) w' → req.op = .read →
    resp.status = .ok → ∀ data, resp.data = some data → data.length = req.size

theorem ReadsWhole.readsBack (hnet : ReadsWhole net) (o : Effect) (s : Client × ν) (r : o.Res)
    (s' : Client × ν) (he : rangedEnv net o s r s') : ReadsBack (· = ·) o r := by
  cases o with
  | mem o => trivial
  | net o =>
    cases o with
    | call p req =>
      cases r with
      | response resp => exact hnet p req _ resp _ he.1.2
      | _ => trivial
    | _ => trivial

theorem upkeep_of_readsWhole (hnet : ReadsWhole net) (M : ℕ) :
    Upkeep net M (fun _ => True) (fun _ => True) (fun _ _ => True) where
  size _ _ _ := trivial
  entry _ := trivial
  perm _ _ := trivial
  ask _ _ _ := trivial
  transfer _ _ _ := trivial
  refused _ _ _ _ := trivial
  granted _ _ _ _ _ := trivial
  free _ _ := trivial
  skip _ _ _ := trivial
  oversized _ _ _ := trivial
  written _ _ _ := wp_iff.mpr ⟨always_true, fun _ _ _ _ => trivial⟩
  loaded {a _ s} _ _ _ := by
    have hany : wp (rangedEnv net) (fun _ _ => True) (readRemote a 0 a.size) (fun _ _ => True) s :=
      wp_iff.mpr ⟨always_true, fun _ _ _ => trivial⟩
    refine wp_mono
      ((yields_readRemote (fun _ => rfl) a 0 a.size true).wp_and hnet.readsBack hany) ?_
    rintro out s' ⟨-, hlen⟩
    cases out with
    | ok data => exact ⟨hlen data rfl, trivial⟩
    | _ => trivial

/-- For every sequence of calls in which the handle counter does not wrap around and the
cached bytes can be counted, whatever the peers do: after each call that returns or throws,
the live handles are keys of exactly one of the cache and the table of remote handles, all
others of neither, and the cache holds no more than it may. -/
theorem residency_exclusive {maxLocalBytes : ℕ} {w : ν} {tr : List (Call × Outcome Err Value)}
    {s : Client × ν} (hnet : ReadsWhole net) (hdone : ∀ e ∈ tr, Completed e.2)
    (hrun : CallRuns (rangedEnv net) (Client.new maxLocalBytes, w) tr s) :
    (∀ h ∈ liveHandles tr,
      Xor (s.1.cache.content h ≠ none) (s.1.remoteHandles.lookup h ≠ none)) ∧
    (∀ h ∉ liveHandles tr, s.1.cache.content h = none ∧ s.1.remoteHandles.lookup h = none) ∧
    s.1.cache.total ≤ maxLocalBytes := by
  have hsize : ∀ e ∈ tr, e.1.Sized fun _ => True := by
    intro e _
    cases e.1 <;> trivial
  have ht := (upkeep_of_readsWhole hnet maxLocalBytes).tended_new trivial hsize hdone hrun
  refine ⟨fun h hh => ht.residency.xor hh, fun h hh => ht.residency.of_not_mem hh, ?_⟩
  exact ht.maxBytes ▸ ht.residency.counted.room

section Wrap

def oneGrant : (o : NetOp) → Bool → o.Res × Bool
  | .availableBytes, gone => (0, gone)
  | .connectedPeers, gone => (if gone then [] else [0], gone)
  | .waitForConnectedPeer, gone => (!gone, gone)
  | .candidates, gone => (if gone then [] else [0], gone)
  | .peer _, gone => ({ connected := !gone }, gone)
  | .call _ req, gone =>
    if gone ∨ req.op ≠ .alloc then (.timeout, gone) else (.response { handle := 1 }, true)

theorem readsWhole_oneGrant : ReadsWhole fun o w r w' => (r, w') = oneGrant o w := by
  intro p req w resp w' h hop
  have hcall : oneGrant (.call p req) w = (.timeout, w) := if_pos (.inr (by simp [hop]))
  rw [hcall] at h
  cases (Prod.mk.inj h).1

def callOneGrant (s : Client × Bool) (call : Call) : Outcome Err Value × (Client × Bool) :=
  eval (clientHandler oneGrant) call.exec s

theorem runs_oneGrant (call : Call) (s : Client × Bool) :
    Runs (clientEnv fun o w r w' => (r, w') = oneGrant o w) call.exec s (callOneGrant s call).1
      (callOneGrant s call).2 :=
  (runs_eval (I := fun _ => True) (fun o s _ => ⟨clientEnv_handler (fun _ _ => rfl) o s, trivial⟩)
    call.exec trivial).1

theorem ranged_oneGrant {call : Call} {s : Client × Bool}
    (h : ∀ s' ∈ visited (clientHandler oneGrant) call.exec s, InRange s'.1) :
    Runs (rangedEnv fun o w r w' => (r, w') = oneGrant o w) call.exec s (callOneGrant s call).1
      (callOneGrant s call).2 :=
  runs_eval_within (I := fun _ => True)
    (fun o s _ => ⟨clientEnv_handler (fun _ _ => rfl) o s, trivial⟩) call.exec trivial
    fun s' hs' _ => h s' hs'

theorem residency_exclusive_two_blocks : ∃ s : Client × Bool,
    CallRuns (rangedEnv fun o w r w' => (r, w') = oneGrant o w) (Client.new 1, false)
      [(.allocate 2, .ok (.handle 1)), (.allocate 1, .ok (.handle 2))] s ∧
    Xor (s.1.cache.content 1 ≠ none) (s.1.remoteHandles.lookup 1 ≠ none) := by
  have hrun : CallRuns (rangedEnv fun o w r w' => (r, w') = oneGrant o w) (Client.new 1, false)
      [(.allocate 2, .ok (.handle 1)), (.allocate 1, .ok (.handle 2))] _ :=
    .cons (ranged_oneGrant (by decide +kernel))
      (.cons (ranged_oneGrant (by decide +kernel)) (.nil _))
  have h := residency_exclusive readsWhole_oneGrant (by simp [Completed]) hrun
  exact ⟨_, hrun, h.1 1 (by simp [liveHandles, Call.liveAfter])⟩

def afterGrant (k : ℕ) : Client × Bool :=
  ({ cache := LRUCache.new 1
     remoteHandles := AList.singleton 1 { size := 2, remoteHandle := 1, peer := some 0 }
     nextLocalHandle := k + 2
     nextRequestId := 2 }, true)

def refusedBlock : Call × Outcome Err Value :=
  (.allocate 2,
    .threw (.runtimeError "Failed to allocate on any peer: out of memory on all peers"))

theorem runs_refusedBlock (k : ℕ) :
    Runs (clientEnv fun o w r w' => (r, w') = oneGrant o w) refusedBlock.1.exec (afterGrant k)
      refusedBlock.2 (afterGrant (k + 1)) :=
  runs_oneGrant (.allocate 2) (afterGrant k)

theorem callOneGrant_cached (k : ℕ) : callOneGrant (afterGrant k) (.allocate 1) =
    (.ok (.handle (wrap (k + 2))),
      ({ (afterGrant k).1 with
          cache := ((LRUCache.new 1).put (wrap (k + 2)) [0] false).2
          nextLocalHandle := k + 3 }, true)) := rfl

/-- After `2 ^ 64` allocations the handle of a block on a peer is given out once more, and
then it is a key of both tables. -/
theorem handle_in_both_tables : ∃ mid s,
    CallRuns (clientEnv fun o w r w' => (r, w') = oneGrant o w) (Client.new 1, false)
      ((.allocate 2, .ok (.handle 1)) :: (mid ++ [(.allocate 1, .ok (.handle 1))])) s ∧
    (∀ e ∈ mid, e = refusedBlock) ∧
    s.1.cache.content 1 ≠ none ∧ s.1.remoteHandles.lookup 1 ≠ none := by
  -- the number of calls stays a variable, so that nothing unfolds their list
  obtain ⟨n, hn⟩ : ∃ n, n = 2 ^ 64 - 1 := ⟨_, rfl⟩
  have hone : wrap (n + 2) = 1 := by rw [hn]; rfl
  have hlast := runs_oneGrant (.allocate 1) (afterGrant n)
  rw [callOneGrant_cached, hone] at hlast
  have hmid : CallRuns (clientEnv fun o w r w' => (r, w') = oneGrant o w) (afterGrant 0)
      (List.replicate n refusedBlock) (afterGrant (0 + n)) := .replicate runs_refusedBlock n 0
  rw [Nat.zero_add] at hmid
  have hcached : ((LRUCache.new 1).put 1 [0] false).2.content 1 ≠ none := by decide
  have hremote : (afterGrant 0).1.remoteHandles.lookup 1 ≠ none := by decide
  refine ⟨List.replicate n refusedBlock, _,
    .cons (runs_oneGrant (.allocate 2) (Client.new 1, false)) (hmid.append (.cons hlast (.nil _))),
    fun e he => List.eq_of_mem_replicate he, hcached, hremote⟩

end Wrap

end MemInfo
