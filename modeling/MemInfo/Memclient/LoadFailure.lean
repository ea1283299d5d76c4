import MemInfo.Memclient.Guarding
import MemInfo.Memclient.Representation

/-! # Loads that fail

`load_to_local` among peers whose requests may fail: a request is executed or not, and the
answer of one that is executed may be lost. What is left of the block if the load throws.
-/

namespace MemInfo

open Lib Prog MemoryClient

structure Flaky where
  store : Stores
  /-- The blocks whose FREE has been executed. -/
  freed : List Ref
  /-- For each request that failed, the blocks whose FREE had been executed by then. -/
  failed : List (List Ref)

/-- The request fails for the client, which does not look at the answer to a FREE. -/
def Failed (req : MemoryRequest) : CallResult → Prop
  | .response resp => req.op ≠ .free ∧ resp.status ≠ .ok
  | .empty => req.op ≠ .free
  | .timeout => True

instance (req : MemoryRequest) (r : CallResult) : Decidable (Failed req r) := by
  cases r <;> unfold Failed <;> infer_instance

/-- A request is executed, and the client gets the answer, an empty buffer or nothing; or
it is not executed, and if there is an answer, it reports an error. Requests on one
connection are served in order, so one that is executed only after the client has given up
counts as executed when it was sent. -/
def flakyNet : (o : NetOp) → Flaky → o.Res → Flaky → Prop
  | .call p req, w, r, w' =>
    ((∃ resp, Served w.store p req resp w'.store ∧
        (r = .response resp ∨ r = .empty ∨ r = .timeout) ∧
        w'.freed = if req.op = .free then (p, req.handle) :: w.freed else w.freed) ∨
      w'.store = w.store ∧ w'.freed = w.freed ∧ ∀ resp, r = .response resp → resp.status ≠ .ok) ∧
    w'.failed = if Failed req r then w'.freed :: w.failed else w.failed
  | _, w, _, w' => w' = w

def Flaky.peers (w : Flaky) : Peers := ⟨w.store, Set.univ⟩

/-- The bytes of the handle are in the cache or, in full, on the peers. -/
def Retrievable (s : Client × Flaky) (h : ℕ) (bs : List Byte) : Prop :=
  s.1.cache.content h = some bs ∨
    ∃ a, s.1.remoteHandles.lookup h = some a ∧ Placed s.2.peers a bs

section Guarded

variable {a : RemoteAllocation} {bs : List Byte} {w w' : Flaky} {c c₀ : Client} {h : ℕ}

/-- When a request failed, no piece of the block had been freed. -/
def FailedEarly (a : RemoteAllocation) (w : Flaky) : Prop :=
  ∀ gone ∈ w.failed, ∀ r ∈ a.refs, r ∉ gone

instance (a : RemoteAllocation) (w : Flaky) : Decidable (FailedEarly a w) :=
  inferInstanceAs (Decidable (∀ gone ∈ w.failed, ∀ r ∈ a.refs, r ∉ gone))

structure Guarded (a : RemoteAllocation) (bs : List Byte) (w : Flaky) : Prop where
  stored : ∀ x ∈ a.parts, w.store x.ref = some (slice bs x.offset x.length)
  kept : ∀ r ∈ a.refs, r ∉ w.freed
  early : FailedEarly a w

theorem FailedEarly.call {req : MemoryRequest} {r : CallResult} (he : FailedEarly a w)
    (hkept : ∀ r ∈ a.refs, r ∉ w'.freed)
    (hf : w'.failed = if Failed req r then w'.freed :: w.failed else w.failed) :
    FailedEarly a w' := by
  unfold FailedEarly
  rw [hf]
  split_ifs
  · exact List.forall_mem_cons.mpr ⟨hkept, he⟩
  · exact he

theorem Guarded.call {p : ℕ} {req : MemoryRequest} {r : CallResult} (hg : Guarded a bs w)
    (hs : req.op = .write ∨ req.op = .free → (p, req.handle) ∉ a.refs)
    (he : flakyNet (.call p req) w r w') : Guarded a bs w' := by
  obtain ⟨hcall, hfail⟩ := he
  have hkept : ∀ r ∈ a.refs, r ∉ w'.freed := by
    intro r hr
    obtain ⟨-, -, -, hf⟩ | ⟨-, hf, -⟩ := hcall
    · rw [hf]
      split_ifs with hop
      · have hne : r ≠ (p, req.handle) := fun he => hs (.inr hop) (he ▸ hr)
        simpa using ⟨hne, hg.kept r hr⟩
      · exact hg.kept r hr
    · exact hf ▸ hg.kept r hr
  refine ⟨fun x hx => ?_, hkept, hg.early.call hkept hfail⟩
  have hst := hg.stored x hx
  obtain ⟨resp, hv, -, -⟩ | ⟨he, -⟩ := hcall
  · have hne : req.op = .write ∨ req.op = .free → x.ref ≠ (p, req.handle) :=
      fun hop he => hs hop (he ▸ List.mem_map_of_mem hx)
    exact (hv.frame (by simp [hst]) hne).trans hst
  · exact he ▸ hst

theorem Guarded.granted {p size id : ℕ} {resp : MemoryResponse} (hg : Guarded a bs w)
    (he : flakyNet (.call p (allocRequest size id)) w (.response resp) w')
    (hok : resp.status = .ok) : (p, resp.handle) ∉ a.refs := by
  obtain ⟨⟨resp', hv, hr, -⟩ | ⟨-, -, hr⟩, -⟩ := he
  swap
  · exact absurd hok (hr resp rfl)
  obtain rfl : resp = resp' := by simpa using hr
  obtain ⟨hno, -⟩ | ⟨-, hfree, -⟩ := hv
  · exact absurd hok hno
  · intro hmem
    obtain ⟨x, hx, he⟩ := List.mem_map.mp hmem
    have hst := hg.stored x hx
    rw [he, hfree] at hst
    cases hst

theorem flaky_guards (a : RemoteAllocation) (bs : List Byte) :
    Guards flakyNet a.refs (Guarded a bs) where
  kept {o _ _ _} ho hg hn := by
    cases o with
    | call p req => exact hg.call ho hn
    | _ => exact hn ▸ hg
  granted hg hn hok := hg.granted hn hok

end Guarded

abbrev Survives {α : Type} (p : ClientM α) (Q : Outcome Err α → Client × Flaky → Prop)
    (s : Client × Flaky) : Prop :=
  wp (clientEnv flakyNet) (fun _ _ => True) p Q s

def Safe (h : ℕ) (a : RemoteAllocation) (bs : List Byte) (s : Client × Flaky) : Prop :=
  RemoteBlock s.1 h a ∧ Guarded a bs s.2

section Load

variable {a : RemoteAllocation} {bs : List Byte} {h : ℕ} {c c' : Client} {w w' : Flaky}
  {s : Client × Flaky}

def Tracked (a : RemoteAllocation) (bs : List Byte) (w : Flaky) : Prop :=
  ∀ x ∈ a.parts, w.store x.ref =
    if x.ref ∈ w.freed then none else some (slice bs x.offset x.length)

theorem Tracked.call {p : ℕ} {req : MemoryRequest} {r : CallResult} (ht : Tracked a bs w)
    (hop : req.op = .read ∨ req.op = .free) (he : flakyNet (.call p req) w r w') :
    Tracked a bs w' := by
  intro x hx
  obtain ⟨⟨resp, hv, -, hf⟩ | ⟨hst, hf, -⟩, -⟩ := he
  swap
  · rw [hst, hf]
    exact ht x hx
  rcases hop with hop | hop
  · simp only [Served, hop] at hv
    rw [if_neg (by simp [hop])] at hf
    rw [hv.1, hf]
    exact ht x hx
  · simp only [Served, hop] at hv
    rw [if_pos hop] at hf
    rw [hv.2, hf, Function.update_apply]
    by_cases hr : x.ref = (p, req.handle)
    · simp [hr]
    · simpa [hr] using ht x hx

theorem Guarded.tracked (hg : Guarded a bs w) : Tracked a bs w :=
  fun x hx => by rw [if_neg (hg.kept _ (List.mem_map_of_mem hx)), hg.stored x hx]

structure Reading (c₀ : Client) (a : RemoteAllocation) (bs : List Byte) (s : Client × Flaky) :
    Prop where
  client : ∃ id, s.1 = { c₀ with nextRequestId := id }
  tracked : Tracked a bs s.2
  early : FailedEarly a s.2

/-- A request of the load has failed: too late if a piece of the block was freed before. -/
structure Broken (c₀ : Client) (a : RemoteAllocation) (bs : List Byte) (s : Client × Flaky) :
    Prop where
  client : ∃ id, s.1 = { c₀ with nextRequestId := id }
  tracked : Tracked a bs s.2
  early : FailedEarly a s.2 ↔ ∀ r ∈ a.refs, r ∉ s.2.freed

/-- A program that throws if and only if one of its requests fails. -/
def Attempt (c₀ : Client) (a : RemoteAllocation) (bs : List Byte) {α : Type} :
    Outcome Err α → Client × Flaky → Prop
  | .threw _, s => Broken c₀ a bs s
  | _, s => Reading c₀ a bs s

variable {c₀ : Client} {α β : Type}

theorem Reading.requestId (hi : Reading c₀ a bs s) (id : ℕ) :
    Reading c₀ a bs ({ s.1 with nextRequestId := id }, s.2) := by
  obtain ⟨id₀, hc⟩ := hi.client
  exact ⟨⟨id, by rw [hc]⟩, hi.tracked, hi.early⟩

theorem Reading.answered {p : ℕ} {req : MemoryRequest} {r : CallResult}
    (hop : req.op = .read ∨ req.op = .free) (hi : Reading c₀ a bs s)
    (he : flakyNet (.call p req) s.2 r w') (hr : ¬ Failed req r) : Reading c₀ a bs (s.1, w') := by
  refine ⟨hi.client, hi.tracked.call hop he, ?_⟩
  obtain ⟨-, hf⟩ := he
  rw [if_neg hr] at hf
  exact fun gone hg => hi.early gone (hf ▸ hg)

theorem Reading.failed {p : ℕ} {req : MemoryRequest} {r : CallResult}
    (hop : req.op = .read ∨ req.op = .free) (hi : Reading c₀ a bs s)
    (he : flakyNet (.call p req) s.2 r w') (hr : Failed req r) : Broken c₀ a bs (s.1, w') := by
  refine ⟨hi.client, hi.tracked.call hop he, ?_⟩
  obtain ⟨-, hf⟩ := he
  unfold FailedEarly
  rw [hf, if_pos hr, List.forall_mem_cons]
  exact and_iff_left hi.early

theorem flakyNet_read_data {p remoteHandle offset size id : ℕ} {resp : MemoryResponse}
    (he : flakyNet (.call p (readRequest remoteHandle offset size id)) w (.response resp) w')
    (hok : resp.status = .ok) : ∃ data, resp.data = some data := by
  obtain ⟨⟨resp', hv, hr, -⟩ | ⟨-, -, hr⟩, -⟩ := he
  swap
  · exact absurd hok (hr resp rfl)
  obtain rfl : resp = resp' := by simpa using hr
  dsimp only [Served, readRequest] at hv
  replace hv := hv.2
  split at hv
  · split_ifs at hv
    · exact ⟨_, hv.2⟩
    · exact absurd hok hv
  · exact absurd hok hv

theorem attempt_bind {p : ClientM α} {f : α → ClientM β}
    (hp : Survives p (Attempt c₀ a bs) s)
    (hf : ∀ v s', Reading c₀ a bs s' → Survives (f v) (Attempt c₀ a bs) s') :
    Survives (p >>= f) (Attempt c₀ a bs) s := by
  refine wp_bind.mpr (wp_mono hp fun out s' h => ?_)
  cases out with
  | ok v => exact hf v s' h
  | threw e => exact h
  | aborted x => exact h

theorem attempt_rethrow {p : ClientM α} {f : Err → Err} (hp : Survives p (Attempt c₀ a bs) s) :
    Survives (tryCatch p fun e => MonadExcept.throw (f e)) (Attempt c₀ a bs) s := by
  refine wp_tryCatch.mpr (wp_mono hp fun out s' h => ?_)
  cases out <;> exact h

theorem attempt_fetch {p remoteHandle offset size : ℕ} (hi : Reading c₀ a bs s) :
    Survives (fetch p remoteHandle offset size) (Attempt c₀ a bs) s := by
  refine wp_bind.mpr (wp_bind_mem trivial ⟨trivial, ?_⟩)
  rintro r ⟨c, w⟩ ⟨rfl, hn⟩
  have hi₁ := hi.requestId (s.1.nextRequestId + 1)
  cases r with
  | timeout => exact hi₁.failed (.inl rfl) hn trivial
  | empty => exact hi₁.failed (.inl rfl) hn nofun
  | response resp =>
    change Survives (responseData (some resp)) (Attempt c₀ a bs) _
    by_cases hok : resp.status = .ok
    · obtain ⟨data, hd⟩ := flakyNet_read_data hn hok
      rw [responseData_of_ok hok hd]
      exact hi₁.answered (.inl rfl) hn fun hf => hf.2 hok
    · rw [responseData_of_not_ok fun h => absurd h hok]
      exact hi₁.failed (.inl rfl) hn ⟨nofun, hok⟩

theorem attempt_release {p remoteHandle : ℕ} (hi : Reading c₀ a bs s) :
    Survives (release p remoteHandle) (Attempt c₀ a bs) s := by
  refine wp_bind.mpr (wp_bind_mem trivial ⟨trivial, ?_⟩)
  rintro r ⟨c, w⟩ ⟨rfl, hn⟩
  have hi₁ := hi.requestId (s.1.nextRequestId + 1)
  cases r with
  | timeout => exact hi₁.failed (.inr rfl) hn trivial
  | empty => exact hi₁.answered (.inr rfl) hn (· rfl)
  | response resp => exact hi₁.answered (.inr rfl) hn (·.1 rfl)

theorem attempt_releaseAfter {releaseAfterRead : Bool} {p remoteHandle : ℕ}
    (hi : Reading c₀ a bs s) :
    Survives (releaseAfter releaseAfterRead p remoteHandle) (Attempt c₀ a bs) s := by
  cases releaseAfterRead with
  | true => exact attempt_release hi
  | false => exact hi

theorem attempt_readPass {offset size resultOffset : ℕ} {releaseAfterRead : Bool}
    {stripes : List Stripe} {result : List Byte} (hi : Reading c₀ a bs s) :
    Survives (readPass offset size releaseAfterRead stripes result resultOffset)
      (Attempt c₀ a bs) s := by
  induction stripes generalizing s result resultOffset with
  | nil => exact hi
  | cons x stripes ih =>
    unfold readPass
    split_ifs
    · exact hi
    · refine attempt_bind (attempt_rethrow (attempt_bind (attempt_fetch hi) ?_))
        fun _ _ hi₁ => ih hi₁
      intro data s₁ hi₁
      split_ifs
      · exact hi₁
      · exact attempt_bind (attempt_releaseAfter hi₁) fun _ _ hi₂ => hi₂
    · exact ih hi

theorem attempt_readPasses {offset size passes resultOffset : ℕ} {releaseAfterRead : Bool}
    {stripes : List Stripe} {result : List Byte} (hi : Reading c₀ a bs s) :
    Survives (readPasses offset size releaseAfterRead stripes passes result resultOffset)
      (Attempt c₀ a bs) s := by
  induction passes generalizing s result resultOffset with
  | zero => exact hi
  | succ passes ih =>
    unfold readPasses
    split_ifs
    · exact attempt_bind (attempt_readPass hi) fun _ _ hi₁ => ih hi₁
    · exact hi

theorem Guarded.broken {id : ℕ} (hg : Guarded a bs w) :
    Broken c₀ a bs ({ c₀ with nextRequestId := id }, w) :=
  ⟨⟨id, rfl⟩, hg.tracked, iff_of_true hg.early hg.kept⟩

theorem attempt_readRemote {offset size : ℕ} {releaseAfterRead : Bool} (hg : Guarded a bs s.2) :
    Survives (readRemote a offset size releaseAfterRead) (Attempt s.1 a bs) s := by
  have hi : Reading s.1 a bs s := ⟨⟨_, rfl⟩, hg.tracked, hg.early⟩
  have hb : Broken s.1 a bs s := hg.broken
  unfold readRemote
  split_ifs
  · exact attempt_readPasses hi
  refine attempt_bind ?_ fun p s₁ hi₁ => attempt_bind (attempt_fetch hi₁) fun data s₂ hi₂ =>
    attempt_bind (attempt_releaseAfter hi₂) fun _ _ hi₃ => hi₃
  unfold requirePeer
  cases a.peer with
  | none => exact hb
  | some p =>
    refine ⟨trivial, ?_⟩
    rintro peer ⟨c, w⟩ ⟨rfl, rfl⟩
    change Survives (if peer.connected then _ else _) _ _
    split_ifs
    · exact hi
    · exact hb

/-- If a load throws, the entry is still there, and of the block exactly the pieces whose
FREE was executed are gone. It throws as soon as one of its own requests fails. -/
theorem survives_loadToLocal (hs : Safe h a bs s) :
    Survives (loadToLocal h) (fun out s' =>
      (∀ e, out = .threw e → RemoteBlock s'.1 h a ∧ Tracked a bs s'.2 ∧
        (FailedEarly a s'.2 ↔ ∀ r ∈ a.refs, r ∉ s'.2.freed)) ∧
      ((∀ e, out ≠ .threw e) → FailedEarly a s'.2)) s := by
  refine wp_bind_found trivial hs.1.entry
    (wp_bind.mpr (wp_mono ((flaky_guards a bs).wp_evictIfNeeded hs) ?_))
  intro out s₁ hs₁
  cases out with
  | threw e =>
    refine ⟨fun _ _ => ⟨hs₁.1, hs₁.2.tracked, iff_of_true hs₁.2.early hs₁.2.kept⟩, fun hne => ?_⟩
    exact absurd rfl (hne e)
  | aborted x => exact ⟨nofun, fun _ => hs₁.2.early⟩
  | ok _ =>
    refine wp_bind.mpr (wp_mono (attempt_readRemote hs₁.2) fun out s' ha => ?_)
    cases out with
    | ok data =>
      dsimp only [andThen]
      apply wp_bind_mem trivial
      apply wp_bind_mem trivial
      exact ⟨nofun, fun _ => ha.early⟩
    | threw e =>
      obtain ⟨id, hid⟩ := ha.client
      refine ⟨fun _ _ => ⟨hid ▸ hs₁.1.requestId id, ha.tracked, ha.early⟩, fun hne => ?_⟩
      exact absurd rfl (hne e)
    | aborted x => exact ⟨nofun, fun _ => ha.early⟩

theorem Tracked.retrievable_iff (hb : RemoteBlock c h a) (hp : Placed w.peers a bs)
    (ht : Tracked a bs w') :
    Retrievable (c, w') h bs ↔ ∀ r ∈ a.refs, r ∉ w'.freed := by
  constructor
  · rintro (hc | ⟨a', hl, hp'⟩) r hr hf
    · exact absurd (hb.uncached.symm.trans hc) nofun
    · obtain rfl := Option.some.inj (hb.entry.symm.trans hl)
      obtain ⟨x, hx, rfl⟩ := List.mem_map.mp hr
      have hst := ht x hx
      rw [if_pos hf] at hst
      exact absurd (hst.symm.trans (hp'.stored x hx)) nofun
  · intro hf
    refine .inr ⟨a, hb.entry, hp.size, hp.consecutive, hp.nodup, fun _ _ => trivial, fun x hx => ?_⟩
    exact (ht x hx).trans (if_neg (hf x.ref (List.mem_map_of_mem hx)))

/-- A load of a block on the peers is atomic exactly if no request fails once a FREE of one of
the pieces has been executed; a FREE that is executed and then times out is such a failure. -/
theorem load_retrievable_iff {out : Outcome Err Unit} {s' : Client × Flaky}
    (hb : RemoteBlock c h a) (hp : Placed w.peers a bs) (hw : ∀ r ∈ a.refs, r ∉ w.freed)
    (hf : w.failed = [])
    (hrun : Runs (clientEnv flakyNet) (loadToLocal h) (c, w) out s') :
    (∀ e, out = .threw e → Retrievable s' h bs) ↔ FailedEarly a s'.2 := by
  have hs : Safe h a bs (c, w) := by
    refine ⟨hb, hp.stored, hw, ?_⟩
    simp [FailedEarly, hf]
  obtain ⟨hthrew, helse⟩ := (wp_iff.mp (survives_loadToLocal hs)).2 out s' hrun
  by_cases hout : ∃ e, out = .threw e
  · obtain ⟨e, rfl⟩ := hout
    obtain ⟨hb', ht, hearly⟩ := hthrew e rfl
    rw [hearly, ← ht.retrievable_iff hb' hp]
    exact ⟨fun hr => hr e rfl, fun hr _ _ => hr⟩
  · have hne : ∀ e, out ≠ .threw e := not_exists.mp hout
    exact iff_of_true (fun e he => absurd he (hne e)) (helse hne)

/-- Once the failures are over, a block that is retrievable is read back in full. -/
theorem Retrievable.read {maxPayload : ℕ} (hr : Retrievable s h bs) (hpos : 0 < bs.length)
    (hlt : bs.length < 2 ^ 64) (hfit : bs.length ≤ maxPayload) :
    s.1.cache.content h = some bs ∨ ∃ a, s.1.remoteHandles.lookup h = some a ∧
      Ensures maxPayload (readRemote a 0 a.size) (fun out _ => out = .ok bs) (s.1, s.2.peers) := by
  rcases hr with hc | ⟨a, hl, hp⟩
  · exact .inl hc
  · refine .inr ⟨a, hl, ?_⟩
    rw [hp.size]
    refine ensures_readRemote true hp hpos (Nat.zero_add _).le hlt hfit fun s' _ _ _ => ?_
    simp [slice]

def onePiece : RemoteAllocation := { size := 1, remoteHandle := 1, peer := some 0 }

def holdingOnePiece : Client := { Client.new 1 with remoteHandles := AList.singleton 1 onePiece }

def storingOnePiece : Flaky := ⟨fun r => if r = (0, 1) then some [7] else none, [], []⟩

theorem remoteBlock_onePiece : RemoteBlock holdingOnePiece 1 onePiece :=
  ⟨LRUCache.inv_new 1, rfl, fun _ hk => absurd rfl hk⟩

theorem placed_onePiece : Placed storingOnePiece.peers onePiece [7] := by
  constructor
  · rfl
  · simp [Consecutive, onePiece, RemoteAllocation.parts]
  · simp [onePiece, RemoteAllocation.refs, RemoteAllocation.parts]
  · exact fun _ _ => trivial
  · simp [onePiece, RemoteAllocation.parts, Flaky.peers, storingOnePiece, Stripe.ref, slice]

def outage : (o : NetOp) → Flaky → o.Res × Flaky
  | .availableBytes, w => (0, w)
  | .connectedPeers, w => ([0], w)
  | .waitForConnectedPeer, w => (true, w)
  | .candidates, w => ([0], w)
  | .peer _, w => ({ connected := true }, w)
  | .call _ _, w => (.timeout, { w with failed := w.freed :: w.failed })

theorem flakyNet_outage (o : NetOp) (w : Flaky) : flakyNet o w (outage o w).1 (outage o w).2 := by
  cases o with
  | call p req => exact ⟨.inr ⟨rfl, rfl, nofun⟩, (if_pos trivial).symm⟩
  | _ => rfl

theorem load_retrievable_outage :
    (eval (clientHandler outage) (loadToLocal 1) (holdingOnePiece, storingOnePiece)).1 =
      .threw (.runtimeError "Remote call timed out") ∧
    Retrievable (eval (clientHandler outage) (loadToLocal 1) (holdingOnePiece, storingOnePiece)).2
      1 [7] := by
  have hthrew : (eval (clientHandler outage) (loadToLocal 1)
      (holdingOnePiece, storingOnePiece)).1 = .threw (.runtimeError "Remote call timed out") := by
    decide
  refine ⟨hthrew, ?_⟩
  obtain ⟨hrun, -⟩ := runs_eval (I := fun _ => True)
    (fun o s _ => ⟨clientEnv_handler flakyNet_outage o s, trivial⟩) (loadToLocal 1)
    (s := (holdingOnePiece, storingOnePiece)) trivial
  have hiff := load_retrievable_iff remoteBlock_onePiece placed_onePiece (by decide) rfl hrun
  exact hiff.mpr (by decide) _ hthrew

/-- A READ within a block is answered, and the answer to a FREE is lost. -/
def serveRead (p : ℕ) (req : MemoryRequest) (w : Flaky) : CallResult × Flaky :=
  match req.op, w.store (p, req.handle) with
  | .read, some bs =>
    if req.offset + req.size ≤ bs.length then
      (.response { data := some (slice bs req.offset req.size) }, w)
    else (.empty, { w with failed := w.freed :: w.failed })
  | .free, some _ =>
    (.timeout,
      { store := Function.update w.store (p, req.handle) none
        freed := (p, req.handle) :: w.freed
        failed := ((p, req.handle) :: w.freed) :: w.failed })
  | _, _ => (.timeout, { w with failed := w.freed :: w.failed })

def freeAnswerLost : (o : NetOp) → Flaky → o.Res × Flaky
  | .call p req, w => serveRead p req w
  | o, w => outage o w

theorem flakyNet_freeAnswerLost (o : NetOp) (w : Flaky) :
    flakyNet o w (freeAnswerLost o w).1 (freeAnswerLost o w).2 := by
  cases o with
  | call p req =>
    change flakyNet (.call p req) w (serveRead p req w).1 (serveRead p req w).2
    unfold serveRead
    split
    · next bs hop hst =>
      split_ifs with hle
      · exact ⟨.inl ⟨_, by simp [Served, hop, hst, hle], .inl rfl, by simp [hop]⟩, by simp [Failed]⟩
      · exact ⟨.inr ⟨rfl, rfl, nofun⟩, by simp [Failed, hop]⟩
    · next bs hop hst =>
      have hv : Served w.store p req {} (Function.update w.store (p, req.handle) none) := by
        simp [Served, hop, hst]
      exact ⟨.inl ⟨{}, hv, .inr (.inr rfl), by simp [hop]⟩, by simp [Failed]⟩
    · exact ⟨.inr ⟨rfl, rfl, nofun⟩, by simp [Failed]⟩
  | _ => rfl

/-- The only piece is freed, but the load fails and keeps the entry. -/
theorem freed_before_answer :
    RemoteBlock holdingOnePiece 1 onePiece ∧ Placed storingOnePiece.peers onePiece [7] ∧
    Runs (clientEnv flakyNet) (loadToLocal 1) (holdingOnePiece, storingOnePiece)
      (.threw (.runtimeError "Remote call timed out"))
      (eval (clientHandler freeAnswerLost) (loadToLocal 1)
        (holdingOnePiece, storingOnePiece)).2 ∧
    ¬ Retrievable
      (eval (clientHandler freeAnswerLost) (loadToLocal 1) (holdingOnePiece, storingOnePiece)).2
      1 [7] := by
  refine ⟨remoteBlock_onePiece, placed_onePiece, ?_, ?_⟩
  · have hthrew : (eval (clientHandler freeAnswerLost) (loadToLocal 1)
        (holdingOnePiece, storingOnePiece)).1 = .threw (.runtimeError "Remote call timed out") := by
      decide
    rw [← hthrew]
    exact (runs_eval (I := fun _ => True)
      (fun o s _ => ⟨clientEnv_handler flakyNet_freeAnswerLost o s, trivial⟩) _ trivial).1
  · rintro (hc | ⟨a, hl, hp⟩)
    · exact absurd hc (by decide)
    · obtain rfl : onePiece = a := Option.some.inj hl
      have hst := hp.stored ⟨1, 0, 1, 0⟩ (by decide)
      exact absurd hst (by decide)

end Load

end MemInfo
