import MemInfo.Memclient.Calls
import MemInfo.Memclient.World

/-! # The client as a map from handles to bytes

Every sequence of calls to a client among daemons is a trace of a map from handles to byte
arrays, wherever the blocks are kept.
-/

namespace MemInfo

open Lib Prog

def Call.Valid (maxPayload maxLocalBytes : ℕ) : Call → Prop
  | .allocate size => Admissible maxPayload maxLocalBytes size
  | .free _ => True
  | .read _ _ size => 0 < size ∧ size ≤ maxPayload
  | .write _ _ data => data ≠ [] ∧ data.length ≤ maxPayload

instance (maxPayload maxLocalBytes : ℕ) :
    (call : Call) → Decidable (call.Valid maxPayload maxLocalBytes)
  | .allocate size => inferInstanceAs (Decidable (Admissible maxPayload maxLocalBytes size))
  | .free _ => inferInstanceAs (Decidable True)
  | .read _ _ _ => inferInstanceAs (Decidable (_ ∧ _))
  | .write _ _ _ => inferInstanceAs (Decidable (_ ∧ _))

/-- What a call may do to the map. An allocation may fail, and it binds any handle that
was not live; a read returns the bytes there are; a call that throws changes nothing. -/
def Contents.Step (A : Contents) : Call → Outcome Err Value → Contents → Prop
  | .allocate size, .ok (.handle h), A' =>
    A h = none ∧ A' = Function.update A h (some (List.replicate size 0))
  | .free h, .ok .done, A' => A' = Function.update A h none
  | .read h offset size, .ok (.bytes data), A' =>
    A' = A ∧ ∃ bs, A h = some bs ∧ offset + size ≤ bs.length ∧ data = slice bs offset size
  | .write h offset data, .ok .done, A' => ∃ bs, A h = some bs ∧ offset + data.length ≤ bs.length ∧
      A' = Function.update A h (some (splice bs offset data))
  | _, .threw _, A' => A' = A
  | _, _, _ => False

section Runs

variable {maxPayload maxLocalBytes : ℕ} {A : Contents}

theorem ensures_call {call : Call} {s : Client × Peers} (hr : Rep maxPayload A s)
    (hv : call.Valid maxPayload s.1.cache.maxBytes) :
    Ensures maxPayload call.exec
      (fun out s' => ∃ A', A.Step call out A' ∧ Rep maxPayload A' s') s := by
  cases call with
  | allocate size =>
    refine wp_bind.mpr (ensures_allocate hr hv ?_ ?_)
    · exact fun h s' hA hr' => ⟨_, ⟨hA, rfl⟩, hr'⟩
    · exact fun e s' hr' => ⟨A, rfl, hr'⟩
  | free h => exact wp_bind.mpr (ensures_free hr fun s' hr' => ⟨_, rfl, hr'⟩)
  | read h offset size =>
    refine wp_bind.mpr (ensures_read hr hv.1 hv.2 ?_ ?_)
    · exact fun bs s' hA hle hr' => ⟨A, ⟨rfl, bs, hA, hle, rfl⟩, hr'⟩
    · exact fun e s' hr' => ⟨A, rfl, hr'⟩
  | write h offset data =>
    refine wp_bind.mpr (ensures_write hr hv.1 hv.2 ?_ ?_)
    · exact fun bs s' hA hle hr' => ⟨_, ⟨bs, hA, hle, rfl⟩, hr'⟩
    · exact fun e s' hr' => ⟨A, rfl, hr'⟩

/-- The daemons have just been started, and the client is given a session on each. -/
def World.Started (w : World) : Prop :=
  ∀ p, 1 ≤ (w.daemons p).session ∧ (w.daemons p).granted = 0 ∧
    ∃ totalSize pageSize garbage slab, SlabAllocator.new totalSize pageSize garbage = .ok slab ∧
      (w.daemons p).tracker = PageTracker.new slab

theorem World.Started.sound {w : World} (hw : w.Started) : w.Sound := by
  intro p
  obtain ⟨hs, hg, _, _, _, slab, hnew, ht⟩ := hw p
  refine ⟨?_, ?_, Nat.one_le_iff_ne_zero.mp hs⟩
  · rw [hg, ht]
    exact PageTracker.Reached.new hnew
  · intro h b hb
    simp [ht, PageTracker.view, PageTracker.new] at hb

structure Holds (maxPayload maxLocalBytes : ℕ) (A : Contents) (s : Client × World) : Prop where
  rep : Rep maxPayload A (s.1, s.2.peers)
  sound : s.2.Sound
  maxBytes : s.1.cache.maxBytes = maxLocalBytes

/-- What holds among the peers that `servingNet` describes holds among daemons. -/
theorem Ensures.bounded {α : Type} {p : ClientM α} {Q : Outcome Err α → Client × Peers → Prop}
    {s : Client × World} (h : Ensures maxPayload p Q (s.1, s.2.peers))
    (hmax : maxPayload ≤ maxMessageSize) (hw : s.2.Sound) :
    wp (boundedEnv maxPayload) KeepsBlocks p
      (fun out s' => s'.2.Sound ∧ Q out (s'.1, s'.2.peers)) s := by
  have hsafe : ∀ (o : Effect) (s : Client × World),
      KeepsBlocks o (s.1, s.2.peers) → KeepsBlocks o s := by
    intro o s h
    cases o with
    | net o => trivial
    | mem o => cases o <;> exact h
  exact wp_simulate (fun o s r s' hw he => boundedEnv_serving hmax hw he) hsafe hw h

theorem maxBytes_runs {α : Type} {p : ClientM α} {s s' : Client × World} {out : Outcome Err α}
    (hrun : Runs (boundedEnv maxPayload) p s out s') :
    s'.1.cache.maxBytes = s.1.cache.maxBytes :=
  hrun.invariant (I := fun s' => s'.1.cache.maxBytes = s.1.cache.maxBytes)
    (fun _ _ _ _ hi he => (maxBytes_clientEnv he.1).trans hi) rfl

theorem Holds.call {call : Call} {s : Client × World} (hmax : maxPayload ≤ maxMessageSize)
    (hs : Holds maxPayload maxLocalBytes A s) (hv : call.Valid maxPayload maxLocalBytes) :
    wp (boundedEnv maxPayload) KeepsBlocks call.exec
      (fun out s' => ∃ A', A.Step call out A' ∧ Holds maxPayload maxLocalBytes A' s') s := by
  obtain ⟨halways, hpost⟩ :=
    wp_iff.mp ((ensures_call hs.rep (hs.maxBytes.symm ▸ hv)).bounded hmax hs.sound)
  refine wp_iff.mpr ⟨halways, fun out s' hrun => ?_⟩
  obtain ⟨hw, A', hstep, hr⟩ := hpost out s' hrun
  exact ⟨A', hstep, hr, hw, (maxBytes_runs hrun).trans hs.maxBytes⟩

theorem Holds.run {s s' : Client × World} {tr : List (Call × Outcome Err Value)}
    (hmax : maxPayload ≤ maxMessageSize) (hs : Holds maxPayload maxLocalBytes A s)
    (hvalid : ∀ e ∈ tr, e.1.Valid maxPayload maxLocalBytes)
    (hrun : CallRuns (boundedEnv maxPayload) s tr s') :
    ∃ A', Allowed Contents.Step A tr A' ∧ Holds maxPayload maxLocalBytes A' s' := by
  induction hrun generalizing A with
  | nil s => exact ⟨A, .nil A, hs⟩
  | cons hcall _ ih =>
    obtain ⟨A₁, hstep, hs₁⟩ :=
      (wp_iff.mp (hs.call hmax (hvalid _ List.mem_cons_self))).2 _ _ hcall
    obtain ⟨A', htr, hs'⟩ := ih hs₁ fun e he => hvalid e (List.mem_cons_of_mem _ he)
    exact ⟨A', .cons hstep htr, hs'⟩

theorem World.Started.holds {w : World} (hw : w.Started) :
    Holds maxPayload maxLocalBytes (fun _ => none) (Client.new maxLocalBytes, w) := by
  refine ⟨⟨LRUCache.inv_new _, Nat.zero_le _, ⟨?_, ?_⟩, fun h => ⟨?_, rfl⟩, nofun⟩, hw.sound, rfl⟩
  · exact Nat.one_le_two_pow
  · exact Nat.two_pow_pos 64
  · exact LRUCache.content_eq_none.mpr rfl

/-- For every sequence of valid calls to a client among daemons in which no 64-bit counter
wraps around: the calls are a trace of a map from handles to bytes, and whatever is called
next, `put` never drops a block on its own. -/
theorem client_refines_contents {w : World} {s : Client × World}
    {tr : List (Call × Outcome Err Value)} (hmax : maxPayload ≤ maxMessageSize) (hw : w.Started)
    (hvalid : ∀ e ∈ tr, e.1.Valid maxPayload maxLocalBytes)
    (hrun : CallRuns (boundedEnv maxPayload) (Client.new maxLocalBytes, w) tr s) :
    (∃ A, Allowed Contents.Step (fun _ => none) tr A) ∧
    ∀ call : Call, call.Valid maxPayload maxLocalBytes →
      Always (boundedEnv maxPayload) KeepsBlocks call.exec s := by
  obtain ⟨A, htr, hs⟩ := hw.holds.run hmax hvalid hrun
  exact ⟨⟨A, htr⟩, fun call hv => (wp_iff.mp (hs.call hmax hv)).1⟩

end Runs

section OnePeer

def onePeer : (o : NetOp) → World → o.Res × World
  | .availableBytes, w => (0, w)
  | .connectedPeers, w => ([0], w)
  | .waitForConnectedPeer, w => (true, w)
  | .candidates, w => ([0], w)
  | .peer _, w => ({ connected := true }, w)
  | .call p req, w =>
    if p = 0 ∧ FrameFits maxMessageSize req then
      match w.request 0 req with
      | (some resp, w') => (.response resp, w')
      | (none, w') => (.empty, w')
    else (.timeout, w)

def callOnePeer (s : Client × World) (call : Call) : Outcome Err Value × (Client × World) :=
  eval (clientHandler onePeer) call.exec s

def twoPages : SlabAllocator where
  pageSize := 1
  totalPages := 2
  buffer _ := 0
  pageStates _ := .free
  freeList := [0, 1]

def oneDaemon : World := ⟨fun _ => ⟨PageTracker.new twoPages, 1, 0⟩, {0}⟩

theorem oneDaemon_started : oneDaemon.Started :=
  fun _ => ⟨Nat.le_refl _, rfl, 2, 1, fun _ => 0, twoPages, rfl, rfl⟩

def OnlyZero (s : Client × World) : Prop :=
  s.2.joined = {0} ∧ ∀ p ≠ 0, (s.2.daemons p).granted = 0

theorem onePeer_allowed (o : Effect) (s : Client × World) (hs : OnlyZero s) :
    daemonEnv maxMessageSize o s (clientHandler onePeer o s).1 (clientHandler onePeer o s).2 ∧
      OnlyZero (clientHandler onePeer o s).2 := by
  obtain ⟨c, w⟩ := s
  obtain ⟨hj, hg⟩ : w.joined = {0} ∧ ∀ p ≠ 0, (w.daemons p).granted = 0 := hs
  have hm : w.Moves w := World.Moves.refl w
  cases o with
  | mem o => exact ⟨⟨rfl, rfl⟩, hj, hg⟩
  | net o =>
    cases o with
    | candidates => exact ⟨⟨rfl, hm, by simp [clientHandler, onePeer, hj]⟩, hj, hg⟩
    | peer p => exact ⟨⟨rfl, hm, fun _ => rfl⟩, hj, hg⟩
    | call p req =>
      by_cases hp : p = 0 ∧ FrameFits maxMessageSize req
      · obtain ⟨rfl, hfit⟩ := hp
        have hcall : onePeer (.call 0 req) w =
            (.response (MemoryProtocol.processRequest (w.daemons 0).tracker (w.daemons 0).session
              req).1, (w.request 0 req).2) := if_pos ⟨rfl, hfit⟩
        rw [clientHandler, hcall]
        refine ⟨⟨rfl, w, hm, fun _ => ⟨_, rfl, rfl⟩, fun hn => ?_⟩, hj, fun p hp => ?_⟩
        · exact absurd ⟨by simp [hj], hfit⟩ hn
        · change (Function.update w.daemons 0 _ p).granted = 0
          rw [Function.update_of_ne hp]
          exact hg p hp
      · have hcall : onePeer (.call p req) w = (.timeout, w) := if_neg hp
        rw [clientHandler, hcall]
        exact ⟨⟨rfl, w, hm, fun hn => absurd (by simpa [hj] using hn) hp, fun _ => rfl⟩, hj, hg⟩
    | _ => exact ⟨⟨rfl, hm⟩, hj, hg⟩

def boundsCheck (s : Client × World) : Bool :=
  s.1.nextLocalHandle ≤ 2 ^ 64 && s.1.cache.total < 2 ^ 64 && (s.2.daemons 0).granted < 2 ^ 64

theorem OnlyZero.inBounds {s : Client × World} (hs : OnlyZero s) (hc : boundsCheck s) :
    InBounds s := by
  simp only [boundsCheck, Bool.and_eq_true, decide_eq_true_eq] at hc
  refine ⟨hc.1, fun p => ?_⟩
  by_cases hp : p = 0
  · exact hp ▸ hc.2
  · rw [hs.2 p hp]
    exact Nat.two_pow_pos 64

def callsCheck : Client × World → List Call → Bool
  | _, [] => true
  | s, call :: calls => (visited (clientHandler onePeer) call.exec s).all boundsCheck &&
      callsCheck (callOnePeer s call).2 calls

theorem callOnePeer_runs {s : Client × World} {calls : List Call} (hs : OnlyZero s)
    (hc : callsCheck s calls) :
    CallRuns (boundedEnv maxMessageSize) s (trace callOnePeer s calls)
      (run callOnePeer s calls).2 := by
  induction calls generalizing s with
  | nil => exact .nil s
  | cons call calls ih =>
    rw [callsCheck, Bool.and_eq_true, List.all_eq_true] at hc
    refine .cons ?_ (ih (runs_eval onePeer_allowed call.exec hs).2 hc.2)
    exact runs_eval_within onePeer_allowed call.exec hs fun s' hs' hi => hi.inBounds (hc.1 s' hs')

/-- The block of handle 1 goes to the peer and comes back with its byte. -/
theorem client_refines_contents_evicted :
    ∃ A, Allowed Contents.Step (fun _ => none)
      [(.allocate 1, .ok (.handle 1)), (.write 1 0 [7], .ok .done),
        (.allocate 1, .ok (.handle 2)), (.read 1 0 1, .ok (.bytes [7]))] A := by
  have htr : trace callOnePeer (Client.new 1, oneDaemon)
      [.allocate 1, .write 1 0 [7], .allocate 1, .read 1 0 1] =
      [(.allocate 1, .ok (.handle 1)), (.write 1 0 [7], .ok .done),
        (.allocate 1, .ok (.handle 2)), (.read 1 0 1, .ok (.bytes [7]))] := by decide +kernel
  have hzero : OnlyZero (Client.new 1, oneDaemon) := ⟨rfl, fun _ _ => rfl⟩
  have hcheck : callsCheck (Client.new 1, oneDaemon)
      [.allocate 1, .write 1 0 [7], .allocate 1, .read 1 0 1] := by decide +kernel
  have hrun := callOnePeer_runs hzero hcheck
  rw [htr] at hrun
  exact (client_refines_contents (Nat.le_refl _) oneDaemon_started (by decide) hrun).1

end OnePeer

section Reuse

open MemoryClient

def noPeers : (o : NetOp) → World → o.Res × World
  | .availableBytes, w => (0, w)
  | .connectedPeers, w => ([], w)
  | .waitForConnectedPeer, w => (false, w)
  | .candidates, w => ([], w)
  | .peer _, w => ({}, w)
  | .call _ _, w => (.timeout, w)

def callAlone (s : Client × World) (call : Call) : Outcome Err Value × (Client × World) :=
  eval (clientHandler noPeers) call.exec s

theorem Client.inv_perform {c : Client} (hi : c.cache.Inv) (o : MemOp) :
    (c.perform o).2.cache.Inv := by
  cases o with
  | cacheGet h => exact hi.get h
  | cachePut h data dirty => exact hi.put
  | cacheRemove h => exact hi.detach h
  | cacheEvictOne => exact hi.evictOne
  | _ => exact hi

theorem callAlone_runs (s : Client × World) (call : Call)
    (hs : s.2.joined = ∅ ∧ s.1.cache.Inv) :
    Runs (daemonEnv maxMessageSize) call.exec s (callAlone s call).1 (callAlone s call).2 ∧
      (callAlone s call).2.2.joined = ∅ ∧ (callAlone s call).2.1.cache.Inv := by
  refine runs_eval (I := fun s : Client × World => s.2.joined = ∅ ∧ s.1.cache.Inv) ?_ call.exec hs
  rintro o ⟨c, w⟩ ⟨hj, hi⟩
  obtain hj : w.joined = ∅ := hj
  have hm : w.Moves w := World.Moves.refl w
  cases o with
  | mem o => exact ⟨⟨rfl, rfl⟩, hj, Client.inv_perform hi o⟩
  | net o =>
    cases o with
    | candidates => exact ⟨⟨rfl, hm, nofun⟩, hj, hi⟩
    | peer p => exact ⟨⟨rfl, hm, by simp [clientHandler, noPeers, hj]⟩, hj, hi⟩
    | call p req => exact ⟨⟨rfl, w, hm, by simp [hj], fun _ => rfl⟩, hj, hi⟩
    | _ => exact ⟨⟨rfl, hm⟩, hj, hi⟩

structure OneCached (k : ℕ) (s : Client × World) : Prop where
  inv : s.1.cache.Inv
  list : ∃ id, s.1.cache.list = [⟨id, 1, [7], true⟩]
  maxBytes : s.1.cache.maxBytes = 2
  next : s.1.nextLocalHandle = k + 2

variable {k : ℕ} {s : Client × World}

theorem OneCached.total (ho : OneCached k s) : s.1.cache.total = 1 := by
  obtain ⟨id, hl⟩ := ho.list
  simp [LRUCache.total, hl]

theorem OneCached.detach_total_le (ho : OneCached k s) (h : ℕ) :
    (s.1.cache.detach h).total ≤ 1 := by
  obtain ⟨-, he⟩ | ⟨n, -, -, hrem⟩ := ho.inv.detach_cases h
  · rw [he, ho.total]
  · have := hrem.total
    have := ho.total
    omega

theorem OneCached.putKeeps (ho : OneCached k s) (h : ℕ) : s.1.cache.PutKeeps h [0] := by
  refine fun _ => LRUCache.makeRoom_eq_self (.inl ?_) _
  have hle := ho.detach_total_le h
  rw [(ho.inv.detach h).bytes, LRUCache.maxBytes_detach, ho.maxBytes, List.length_singleton,
    wrap_of_lt (Nat.lt_of_le_of_lt hle (by decide)), wrap_of_lt (by omega)]
  omega

theorem OneCached.allocate (ho : OneCached k s) :
    callAlone s (.allocate 1) = (.ok (.handle (wrap (k + 2))),
      ({ s.1 with nextLocalHandle := k + 3
                  cache := (s.1.cache.put (wrap (k + 2)) [0] false).2 }, s.2)) := by
  have hlen : [(0 : Byte)].length ≤ s.1.cache.maxBytes := by rw [ho.maxBytes]; decide
  have hneeds : s.1.cache.needsEviction 1 = false := by
    rw [LRUCache.needsEviction, ho.inv.bytes, ho.total, ho.maxBytes]
    decide
  have hevict : eval (clientHandler noPeers) (evictIfNeeded 1)
      ({ s.1 with nextLocalHandle := k + 3 }, s.2) =
      (.ok (), ({ s.1 with nextLocalHandle := k + 3 }, s.2)) := by
    change eval (clientHandler noPeers) (if (s.1.cache.needsEviction 1 || false) = true then _
      else Pure.pure ()) _ = _
    rw [hneeds]
    rfl
  have hput : eval (clientHandler noPeers) (MemoryClient.allocate 1) s = (.ok (wrap (k + 2)),
      ({ s.1 with nextLocalHandle := k + 3
                  cache := (s.1.cache.put (wrap (k + 2)) [0] false).2 }, s.2)) := by
    change eval (clientHandler noPeers) (if 1 > s.1.cache.maxBytes then _ else _)
      ({ s.1 with nextLocalHandle := s.1.nextLocalHandle + 1 }, s.2) = _
    rw [if_neg (by rw [ho.maxBytes]; decide), ho.next, eval_bind_of_ok hevict]
    change eval (clientHandler noPeers)
      (if (s.1.cache.put (wrap s.1.nextLocalHandle) [0] false).1 = true then
        Pure.pure (wrap s.1.nextLocalHandle) else _)
      ({ s.1 with nextLocalHandle := k + 3
                  cache := (s.1.cache.put (wrap s.1.nextLocalHandle) [0] false).2 }, s.2) = _
    rw [ho.next, LRUCache.put_eq hlen (ho.putKeeps _)]
    rfl
  exact (eval_bind_of_ok hput).trans rfl

theorem OneCached.cycle (ho : OneCached k s) (hne : wrap (k + 2) ≠ 1) :
    OneCached (k + 1) (run callAlone s [.allocate 1, .free (wrap (k + 2))]).2 := by
  have hlen : [(0 : Byte)].length ≤ s.1.cache.maxBytes := by rw [ho.maxBytes]; decide
  obtain ⟨id, hl⟩ := ho.list
  have hdetach : s.1.cache.detach (wrap (k + 2)) = s.1.cache := by
    obtain ⟨-, he⟩ | ⟨n, hf, hn, -⟩ := ho.inv.detach_cases (wrap (k + 2))
    · exact he
    · have hmem := LRUCache.mem_list_of_find hf
      rw [hl, List.mem_singleton] at hmem
      rw [hmem] at hn
      exact absurd hn.symm hne
  rw [run_cons_snd, ho.allocate, LRUCache.put_eq hlen (ho.putKeeps _), hdetach, run_cons_snd,
    run_nil]
  have hi : (s.1.cache.pushFront ⟨wrap (k + 2), [0], false⟩).Inv := by
    have hput : (s.1.cache.put (wrap (k + 2)) [0] false).2.Inv := ho.inv.put
    rwa [LRUCache.put_eq hlen (ho.putKeeps _), hdetach] at hput
  have hl₁ : (s.1.cache.pushFront ⟨wrap (k + 2), [0], false⟩).list =
      [⟨s.1.cache.nextId, wrap (k + 2), [0], false⟩, ⟨id, 1, [7], true⟩] :=
    congrArg (List.cons _) hl
  obtain ⟨hf, -⟩ | ⟨n, hf, hn, hrem⟩ := hi.detach_cases (wrap (k + 2))
  · exact absurd rfl (hi.find_eq_none.mp hf _ (hl₁ ▸ List.mem_cons_self))
  have hfree : callAlone ({ s.1 with nextLocalHandle := k + 3
                                     cache := s.1.cache.pushFront ⟨wrap (k + 2), [0], false⟩ }, s.2)
      (.free (wrap (k + 2))) = (.ok .done, ({ s.1 with
        nextLocalHandle := k + 3
        cache :=
          (s.1.cache.pushFront ⟨wrap (k + 2), [0], false⟩).detach (wrap (k + 2)) }, s.2)) := by
    change eval (clientHandler noPeers) ((if ((s.1.cache.pushFront _).find _).isSome = true then
      Pure.pure () else _) >>= _) _ = _
    rw [hf]
    rfl
  rw [hfree]
  have hx : n = ⟨s.1.cache.nextId, wrap (k + 2), [0], false⟩ := by
    have hmem := LRUCache.mem_list_of_find hf
    rw [hl₁, List.mem_cons, List.mem_singleton] at hmem
    rcases hmem with rfl | rfl
    · rfl
    · exact absurd hn.symm hne
  have hperm := hrem.perm
  rw [hl₁, hx, List.perm_cons] at hperm
  exact ⟨hi.detach _, ⟨id, List.perm_singleton.mp hperm.symm⟩,
    (LRUCache.maxBytes_detach _ _).trans ho.maxBytes, rfl⟩

theorem eval_mem_bind {α : Type} {o : MemOp} {f : o.Res → ClientM α} (s : Client × World) :
    eval (clientHandler noPeers) (mem o >>= f) s =
      eval (clientHandler noPeers) (f (s.1.perform o).1) ((s.1.perform o).2, s.2) := rfl

theorem callAlone_read {c : LRUCache} (hget : s.1.cache.get 1 = (some [0], c)) :
    (callAlone s (.read 1 0 1)).1 = .ok (.bytes [0]) := by
  have hperform : s.1.perform (.cacheGet 1) = (some [0], { s.1 with cache := c }) := by
    rw [Client.perform, hget]
  have hread : eval (clientHandler noPeers) (MemoryClient.read 1 0 1) s =
      (.ok [0], ({ s.1 with cache := c }, s.2)) := by
    rw [MemoryClient.read, eval_mem_bind, hperform]
    rfl
  exact congrArg Prod.fst (eval_bind_of_ok hread)

theorem OneCached.reuse (ho : OneCached k s) (hone : wrap (k + 2) = 1) :
    (callAlone (callAlone s (.allocate 1)).2 (.read 1 0 1)).1 = .ok (.bytes [0]) := by
  have hlen : [(0 : Byte)].length ≤ s.1.cache.maxBytes := by rw [ho.maxBytes]; decide
  rw [ho.allocate, hone]
  have hi : (s.1.cache.put 1 [0] false).2.Inv := ho.inv.put
  have hc : (s.1.cache.put 1 [0] false).2.content 1 = some [0] :=
    (ho.inv.content_put hlen (ho.putKeeps 1) 1).trans (if_pos rfl)
  obtain ⟨l, -, hget⟩ := hi.get_cases 1
  rw [hc] at hget
  exact callAlone_read hget

def onePage : SlabAllocator where
  pageSize := 1
  totalPages := 1
  buffer _ := 0
  pageStates _ := .free
  freeList := [0]

def nobody : World := ⟨fun _ => ⟨PageTracker.new onePage, 1, 0⟩, ∅⟩

theorem nobody_started : nobody.Started :=
  fun _ => ⟨Nat.le_refl _, rfl, 1, 1, fun _ => 0, onePage, rfl, rfl⟩

theorem oneCached_start :
    OneCached 0 (run callAlone (Client.new 2, nobody) [.allocate 1, .write 1 0 [7]]).2 := by
  refine ⟨?_, ⟨1, by decide +kernel⟩, by decide +kernel, by decide +kernel⟩
  have hstart : nobody.joined = ∅ ∧ (Client.new 2).cache.Inv := ⟨rfl, LRUCache.inv_new 2⟩
  exact (callAlone_runs _ _ (callAlone_runs _ _ hstart).2).2.2

/-- After `2 ^ 64` allocations a live handle is given out again, and its bytes are gone. -/
theorem handle_reused_after_wrap :
    ∃ w mid s, World.Started w ∧
      CallRuns (daemonEnv maxMessageSize) (Client.new 2, w)
        ([(.allocate 1, .ok (.handle 1)), (.write 1 0 [7], .ok .done)] ++
          (mid ++ [(.read 1 0 1, .ok (.bytes [0]))])) s ∧
      ∀ e ∈ mid, e.1.Valid maxMessageSize 2 ∧ e.1 ≠ .free 1 ∧
        ∀ offset data, e.1 ≠ .write 1 offset data := by
  -- the number of rounds stays a variable, so that nothing unfolds the list of calls
  obtain ⟨n, hn⟩ : ∃ n, n = 2 ^ 64 - 1 := ⟨_, rfl⟩
  let round (k : ℕ) : List Call := [.allocate 1, .free (wrap (k + 2))]
  have hne (k : ℕ) (hk : k < n) : wrap (k + 2) ≠ 1 := by
    rw [hn] at hk
    unfold wrap
    omega
  have hrounds := run_rounds OneCached round (fun k s hk ho => ho.cycle (hne k hk)) oneCached_start
  have hfirst : trace callAlone (Client.new 2, nobody) [.allocate 1, .write 1 0 [7]] =
      [(.allocate 1, .ok (.handle 1)), (.write 1 0 [7], .ok .done)] := by decide +kernel
  let calls := (List.range n).flatMap round ++ [.allocate 1]
  have hrun : CallRuns (daemonEnv maxMessageSize) (Client.new 2, nobody)
      (trace callAlone (Client.new 2, nobody)
        ([.allocate 1, .write 1 0 [7]] ++ (calls ++ [.read 1 0 1]))) _ :=
    allowed_trace callAlone_runs ⟨rfl, LRUCache.inv_new 2⟩
  rw [trace_append, hfirst, trace_append, trace_cons, trace_nil, run_append_snd] at hrun
  rw [show (callAlone (run callAlone _ [.allocate 1]).2 (.read 1 0 1)).1 = .ok (.bytes [0]) from
    hrounds.reuse (by rw [hn]; rfl)] at hrun
  refine ⟨nobody, _, _, nobody_started, hrun, fun e he => ?_⟩
  have he : e.1 ∈ calls := (List.of_mem_zip he).1
  rw [List.mem_append, List.mem_flatMap, List.mem_singleton] at he
  obtain ⟨k, hk, he⟩ | he := he
  · rcases List.mem_cons.mp he with he | he
    · rw [he]
      exact ⟨by decide, nofun, nofun⟩
    · rw [List.mem_singleton.mp he]
      exact ⟨trivial, fun h => hne k (List.mem_range.mp hk) (Call.free.inj h), nofun⟩
  · rw [he]
    exact ⟨by decide, nofun, nofun⟩

end Reuse

end MemInfo
