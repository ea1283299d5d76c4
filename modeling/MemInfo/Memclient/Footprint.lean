import MemInfo.Memclient.ClientApi

/-! # The footprint of the client's functions

Which effects the functions that talk to peers may perform: request ids, questions to the
table of peers, and requests that name the blocks they are called with.
-/

namespace MemInfo

open Lib Prog

/-- A block on a peer: the peer, and the handle that the peer gave the block. -/
abbrev Ref := ℕ × ℕ

instance : LawfulBEq Ref := inferInstance

def Stripe.ref (x : Stripe) : Ref := (x.peer, x.remoteHandle)

def RemoteAllocation.parts (a : RemoteAllocation) : List Stripe :=
  if a.isStriped then a.stripes
  else a.peer.toList.map fun p => ⟨a.remoteHandle, 0, a.size, p⟩

def RemoteAllocation.refs (a : RemoteAllocation) : List Ref := a.parts.map Stripe.ref

namespace MemoryClient

variable {P : Effect → Prop} {A : Abort → Prop}

structure Background (P : Effect → Prop) : Prop where
  requestId : P (.mem .nextRequestId)
  ask : ∀ o : NetOp, (∀ p req, o ≠ .call p req) → P (.net o)

def Frees (P : Effect → Prop) (r : Ref) : Prop := ∀ id, P (.net (.call r.1 (freeRequest r.2 id)))

/-- READs of at most `n` bytes. -/
def Reads (P : Effect → Prop) (n : ℕ) (r : Ref) : Prop :=
  ∀ offset size id, size ≤ n → P (.net (.call r.1 (readRequest r.2 offset size id)))

/-- WRITEs of at most `n` bytes. -/
def Writes (P : Effect → Prop) (n : ℕ) (r : Ref) : Prop :=
  ∀ offset data id, data.length ≤ n → P (.net (.call r.1 (writeRequest r.2 offset data id)))

def Allocates (P : Effect → Prop) : Prop :=
  ∀ p size id, P (.net (.call p (allocRequest size id)))

section Requests

variable (hb : Background P)

include hb

theorem confined_syncRemoteCall {p : ℕ} {request : ℕ → MemoryRequest}
    (hcall : ∀ id, P (.net (.call p (request id)))) : Confined P A (syncRemoteCall p request) := by
  apply Confined.bind (confined_perform hb.requestId)
  intro id
  apply Confined.bind (confined_perform (hcall id))
  intro r
  cases r <;> trivial

theorem confined_release {p remoteHandle : ℕ} (hf : Frees P (p, remoteHandle)) :
    Confined P A (release p remoteHandle) :=
  .bind (confined_syncRemoteCall hb hf) fun _ => trivial

theorem confined_tryRelease {p remoteHandle : ℕ} (hf : Frees P (p, remoteHandle)) :
    Confined P A (tryRelease p remoteHandle) := by
  apply Confined.bind (confined_perform (hb.ask (.peer p) nofun))
  intro peer
  split_ifs
  · exact .tryCatch (confined_release hb hf) fun _ => trivial
  · trivial

theorem confined_freeRemote {alloc : RemoteAllocation} (hf : ∀ r ∈ alloc.refs, Frees P r) :
    Confined P A (freeRemote alloc) := by
  unfold RemoteAllocation.refs RemoteAllocation.parts at hf
  unfold freeRemote
  split_ifs at hf ⊢
  · generalize alloc.stripes = xs at hf
    induction xs with
    | nil => trivial
    | cons x xs ih =>
      apply Confined.bind (confined_tryRelease hb (hf x.ref List.mem_cons_self))
      exact fun _ => ih fun r hr => hf r (List.mem_cons_of_mem _ hr)
  · cases hp : alloc.peer with
    | none => trivial
    | some p => exact confined_tryRelease hb (hf (p, alloc.remoteHandle) (by simp [hp, Stripe.ref]))

theorem confined_requirePeer {α : Type} {alloc : RemoteAllocation} {f : ℕ → ClientM α}
    (hf : ∀ p, alloc.peer = some p → Confined P A (f p)) :
    Confined P A (requirePeer alloc >>= f) := by
  unfold requirePeer
  cases hp : alloc.peer with
  | none => trivial
  | some p =>
    dsimp only
    rw [bind_assoc]
    apply Confined.bind (confined_perform (hb.ask (.peer p) nofun))
    intro peer
    split_ifs
    · exact hf p hp
    · trivial

theorem confined_fetch {p remoteHandle offset size : ℕ}
    (hr : ∀ id, P (.net (.call p (readRequest remoteHandle offset size id)))) :
    Confined P A (fetch p remoteHandle offset size) := by
  apply Confined.bind (confined_syncRemoteCall hb hr)
  intro resp
  unfold responseData
  split
  · trivial
  · split <;> trivial

theorem confined_releaseAfter {p remoteHandle : ℕ} {rel : Bool}
    (hf : rel = true → Frees P (p, remoteHandle)) :
    Confined P A (releaseAfter rel p remoteHandle) := by
  unfold releaseAfter
  split_ifs with hrel
  · exact confined_release hb (hf hrel)
  · trivial

theorem confined_readPass {stripes : List Stripe} {size : ℕ} {rel : Bool}
    (hr : ∀ x ∈ stripes, Reads P size x.ref) (hf : rel = true → ∀ x ∈ stripes, Frees P x.ref)
    (offset : ℕ) (result : List Byte) (resultOffset : ℕ) :
    Confined P (fun y => y = .undefined)
      (readPass offset size rel stripes result resultOffset) := by
  induction stripes generalizing result resultOffset with
  | nil => trivial
  | cons x xs ih =>
    have ih := ih (fun y hy => hr y (List.mem_cons_of_mem _ hy))
      fun hrel y hy => hf hrel y (List.mem_cons_of_mem _ hy)
    unfold readPass
    split_ifs
    · trivial
    · have hsize (k : ℕ) : min (size - resultOffset) k ≤ size :=
        Nat.le_trans (Nat.min_le_left _ _) (Nat.sub_le _ _)
      have hfetch (off k : ℕ) : Confined P (fun y => y = .undefined)
          (fetch x.peer x.remoteHandle off (min (size - resultOffset) k)) :=
        confined_fetch hb fun id => hr x List.mem_cons_self _ _ id (hsize k)
      refine .bind (.tryCatch (.bind (hfetch _ _) fun d => ?_) fun _ => trivial) fun _ => ih _ _
      split_ifs
      · rfl
      · exact .bind (confined_releaseAfter hb fun hrel => hf hrel x List.mem_cons_self)
          fun _ => trivial
    · exact ih _ _

/-- `read_remote` sends READs for the pieces of the block, and FREEs if it is to. -/
theorem confined_readRemote {alloc : RemoteAllocation} {size : ℕ} {rel : Bool}
    (hr : ∀ r ∈ alloc.refs, Reads P size r) (hf : rel = true → ∀ r ∈ alloc.refs, Frees P r)
    (offset : ℕ) :
    Confined P (fun _ => True) (readRemote alloc offset size rel) := by
  unfold RemoteAllocation.refs RemoteAllocation.parts at hr hf
  unfold readRemote
  split_ifs at hr hf ⊢
  · have hpass := confined_readPass hb (fun x hx => hr x.ref (List.mem_map_of_mem hx))
      (fun hrel x hx => hf hrel x.ref (List.mem_map_of_mem hx)) offset
    generalize size + 1 = passes, List.replicate size (0 : Byte) = result, 0 = resultOffset
    induction passes generalizing result resultOffset with
    | zero => trivial
    | succ passes ih =>
      unfold readPasses
      split_ifs
      · exact .bind ((hpass _ _).mono (fun _ => id) fun _ _ => trivial) fun r => ih r.1 r.2
      · trivial
  · apply confined_requirePeer hb
    intro p hp
    have hmem : (p, alloc.remoteHandle) ∈ (alloc.peer.toList.map fun p =>
        (⟨alloc.remoteHandle, 0, alloc.size, p⟩ : Stripe)).map Stripe.ref := by
      simp [hp, Stripe.ref]
    exact .bind (confined_fetch hb fun id => hr _ hmem offset size id (Nat.le_refl _)) fun _ =>
      .bind (confined_releaseAfter hb fun hrel => hf hrel _ hmem) fun _ => trivial

theorem confined_store {p remoteHandle offset : ℕ} {data : List Byte}
    (hw : ∀ id, P (.net (.call p (writeRequest remoteHandle offset data id)))) :
    Confined P A (store p remoteHandle offset data) :=
  .bind (confined_syncRemoteCall hb hw) fun _ => trivial

theorem confined_writePass {stripes : List Stripe} {data : List Byte}
    (hw : ∀ x ∈ stripes, Writes P data.length x.ref) (offset : ℕ) (dataOffset : ℕ) :
    Confined P A (writePass offset data stripes dataOffset) := by
  induction stripes generalizing dataOffset with
  | nil => trivial
  | cons x xs ih =>
    have ih := ih fun y hy => hw y (List.mem_cons_of_mem _ hy)
    unfold writePass
    split_ifs
    · trivial
    · have hlen (off k : ℕ) : (slice data off k).length ≤ data.length := by
        rw [length_slice]
        exact Nat.le_trans (Nat.min_le_right _ _) (Nat.sub_le _ _)
      have hstore (off k n : ℕ) : Confined P A
          (store x.peer x.remoteHandle off (slice data k n)) :=
        confined_store hb fun id => hw x List.mem_cons_self _ _ id (hlen k n)
      exact .bind (.tryCatch (hstore _ _ _) fun _ => trivial) fun _ => ih _
    · exact ih _

/-- `write_remote` sends WRITEs for the pieces of the block. -/
theorem confined_writeRemote {alloc : RemoteAllocation} {data : List Byte}
    (hw : ∀ r ∈ alloc.refs, Writes P data.length r) (offset : ℕ) :
    Confined P (fun _ => True) (writeRemote alloc offset data) := by
  unfold RemoteAllocation.refs RemoteAllocation.parts at hw
  unfold writeRemote
  split_ifs at hw ⊢
  · have hpass (dataOffset : ℕ) :
        Confined P (fun _ => True) (writePass offset data alloc.stripes dataOffset) :=
      confined_writePass hb (fun x hx => hw x.ref (List.mem_map_of_mem hx)) offset dataOffset
    generalize data.length + 1 = passes, 0 = dataOffset
    induction passes generalizing dataOffset with
    | zero => trivial
    | succ passes ih =>
      unfold writePasses
      split_ifs
      · exact .bind (hpass _) fun _ => ih _
      · trivial
  · apply confined_requirePeer hb
    intro p hp
    have hmem := hw (p, alloc.remoteHandle) (by simp [hp, Stripe.ref])
    exact confined_store hb fun id => hmem offset data id (Nat.le_refl _)

end Requests

section Placing

variable (hb : Background P) (ha : Allocates P)

include hb ha

theorem confined_tryAlloc (p size : ℕ) : Confined P A (tryAlloc p size) := by
  refine .tryCatch (.bind (confined_syncRemoteCall hb (ha p size)) fun r => ?_) fun _ => trivial
  cases r with
  | none => trivial
  | some resp =>
    dsimp only
    split_ifs <;> trivial

theorem confined_allocateSingle (size : ℕ) (candidates : List ℕ) :
    Confined P A (allocateSingle size candidates) := by
  induction candidates with
  | nil => trivial
  | cons p candidates ih =>
    apply Confined.bind (confined_perform (hb.ask (.peer p) nofun))
    intro peer
    split_ifs
    · apply Confined.bind (confined_tryAlloc hb ha p size)
      intro r
      cases r with
      | none => exact ih
      | some handle => trivial
    · exact ih

theorem confined_allocateStripes (candidates : List ℕ) (remaining currentOffset : ℕ)
    (stripes : List Stripe) :
    Confined P A (allocateStripes candidates remaining currentOffset stripes) := by
  induction candidates generalizing remaining currentOffset stripes with
  | nil => trivial
  | cons p candidates ih =>
    rw [allocateStripes]
    split_ifs
    · trivial
    apply Confined.bind (confined_perform (hb.ask (.peer p) nofun))
    intro peer
    dsimp only
    split_ifs
    · exact ih _ _ _
    · apply Confined.bind (confined_tryAlloc hb ha p _)
      intro r
      cases r <;> exact ih _ _ _

theorem confined_place (hf : ∀ r, Frees P r) (size : ℕ) (candidates : List ℕ) :
    Confined P A (place size candidates) := by
  apply Confined.bind (confined_allocateSingle hb ha size candidates)
  rintro (- | ⟨p, remoteHandle⟩)
  swap
  · trivial
  dsimp only
  split_ifs
  · apply Confined.bind (confined_allocateStripes hb ha candidates size 0 [])
    rintro ⟨stripes, remaining⟩
    dsimp only [joinStripes]
    split_ifs
    · trivial
    · exact .bind (confined_freeRemote hb fun r _ => hf r) fun _ => trivial
    · trivial
  · trivial

theorem confined_allocateRemote (hf : ∀ r, Frees P r)
    (hi : ∀ h a, P (.mem (.remoteInsert h a))) (handle size : ℕ) :
    Confined P A (allocateRemote handle size) := by
  have hawait : Confined P A awaitPeer := by
    apply Confined.bind (confined_perform (hb.ask .connectedPeers nofun))
    intro peers
    split_ifs
    · exact .bind (confined_perform (hb.ask .waitForConnectedPeer nofun)) fun _ => trivial
    · trivial
  apply Confined.bind hawait
  intro _
  apply Confined.bind (confined_perform (hb.ask .candidates nofun))
  intro candidates
  apply Confined.bind (confined_place hb ha hf size candidates)
  intro r
  cases r with
  | none => trivial
  | some alloc => exact confined_perform (hi handle alloc)

end Placing

section Returned

def ReadsBack (Rel : ℕ → ℕ → Prop) : (o : Effect) → o.Res → Prop
  | .net (.call _ req), .response resp =>
    req.op = .read → resp.status = .ok → ∀ data, resp.data = some data → Rel data.length req.size
  | _, _ => True

variable {Rel : ℕ → ℕ → Prop}

theorem yields_fetch (p remoteHandle offset size : ℕ) :
    Yields (ReadsBack Rel) (fun data => Rel data.length size)
      (fetch p remoteHandle offset size) := by
  intro id _ r hr
  cases r with
  | timeout => trivial
  | empty => trivial
  | response resp =>
    change Yields (ReadsBack Rel) _ (responseData (some resp))
    simp only [responseData]
    split
    · next data hok hd => exact hr rfl hok data hd
    · trivial

theorem yields_readPass {size : ℕ} (offset : ℕ) (rel : Bool) (stripes : List Stripe)
    {result : List Byte} (hlen : result.length = size) (resultOffset : ℕ) :
    Yields (ReadsBack Rel) (fun out => out.1.length = size)
      (readPass offset size rel stripes result resultOffset) := by
  induction stripes generalizing result resultOffset with
  | nil => exact hlen
  | cons x xs ih =>
    unfold readPass
    split_ifs
    · exact hlen
    · have hstripe (readOffset readSize : ℕ) : Yields (ReadsBack Rel)
          (fun out : List Byte => out.length = size)
          (readStripe x readOffset readSize rel result resultOffset) := by
        apply Yields.bind yields_true
        intro data _
        split_ifs with hout
        · trivial
        · apply Yields.bind yields_true
          exact fun _ _ => (length_splice (Nat.not_lt.mp hout)).trans hlen
      exact .bind (.tryCatch (hstripe _ _) fun _ => trivial) fun result hresult => ih hresult _
    · exact ih hlen _

theorem yields_readRemote (hrel : ∀ n, Rel n n) (alloc : RemoteAllocation) (offset size : ℕ)
    (rel : Bool) :
    Yields (ReadsBack Rel) (fun data => Rel data.length size)
      (readRemote alloc offset size rel) := by
  unfold readRemote
  split_ifs
  · have hlen : (List.replicate size (0 : Byte)).length = size := List.length_replicate
    generalize size + 1 = passes, List.replicate size (0 : Byte) = result, 0 = resultOffset at hlen
    induction passes generalizing result resultOffset with
    | zero => trivial
    | succ passes ih =>
      unfold readPasses
      split_ifs
      · exact .bind (yields_readPass offset rel alloc.stripes hlen resultOffset)
          fun r hlen' => ih r.1 r.2 hlen'
      · change Rel result.length size
        exact hlen ▸ hrel _
  · exact .bind yields_true fun p _ => .bind (yields_fetch p _ offset size) fun data hdata =>
      .bind yields_true fun _ _ => hdata

end Returned

end MemoryClient

end MemInfo
