import Mathlib.Data.Set.Basic
import Mathlib.Logic.Function.Basic
import MemInfo.Memclient.Footprint
import MemInfo.Memclient.LruCacheInvariant

/-! # The peers as a store

What the client has on its peers: byte arrays, named by a peer and the handle it gave.
Peers that answer every request make the client's requests operations of that store.
-/

namespace MemInfo

open Lib Prog MemoryClient

abbrev Stores := Ref → Option (List Byte)

/-- A request of the client, served by a peer: what it does to the client's blocks, and
what the answer says. Only an allocation is left open. -/
def Served (st : Stores) (p : ℕ) (req : MemoryRequest) (r : MemoryResponse) (st' : Stores) : Prop :=
  match req.op with
  | .alloc => r.status ≠ .ok ∧ st' = st ∨ r.status = .ok ∧ st (p, r.handle) = none ∧
      st' = Function.update st (p, r.handle) (some (List.replicate req.size 0))
  | .free => (r.status = .ok ↔ (st (p, req.handle)).isSome) ∧
      st' = Function.update st (p, req.handle) none
  | .write =>
    match st (p, req.handle), req.data with
    | some bs, some data =>
      if req.offset + data.length ≤ bs.length then
        r.status = .ok ∧
          st' = Function.update st (p, req.handle) (some (splice bs req.offset data))
      else r.status ≠ .ok ∧ st' = st
    | _, _ => r.status ≠ .ok ∧ st' = st
  | .read => st' = st ∧
    match st (p, req.handle) with
    | some bs =>
      if req.offset + req.size ≤ bs.length then
        r.status = .ok ∧ r.data = some (slice bs req.offset req.size)
      else r.status ≠ .ok
    | none => r.status ≠ .ok
  | _ => st' = st

structure Peers where
  store : Stores
  /-- The peers with a connection. -/
  joined : Set ℕ

/-- The bytes that a request carries, or asks for, fit a frame. -/
def FrameFits (maxPayload : ℕ) (req : MemoryRequest) : Prop :=
  (req.data.getD []).length ≤ maxPayload ∧ (req.op = .read → req.size ≤ maxPayload)

instance (maxPayload : ℕ) (req : MemoryRequest) : Decidable (FrameFits maxPayload req) :=
  inferInstanceAs (Decidable (_ ∧ (_ → _)))

/-- A request as the client makes them for ranges that are not empty. -/
structure Proper (maxPayload : ℕ) (req : MemoryRequest) : Prop where
  version : req.protocolVersion = protocolVersion
  fits : FrameFits maxPayload req
  size : req.op = .alloc ∨ req.op = .read → req.size ≠ 0
  data : req.op = .write → ∃ data, req.data = some data ∧ data ≠ [] ∧ req.checksum = crc32c data

section Proper

variable {maxPayload remoteHandle offset size id : ℕ} {data : List Byte}

theorem proper_allocRequest (hpos : 0 < size) : Proper maxPayload (allocRequest size id) :=
  ⟨rfl, ⟨Nat.zero_le _, nofun⟩, fun _ => Nat.ne_of_gt hpos, nofun⟩

theorem proper_freeRequest : Proper maxPayload (freeRequest remoteHandle id) :=
  ⟨rfl, ⟨Nat.zero_le _, nofun⟩, nofun, nofun⟩

theorem proper_readRequest (hpos : 0 < size) (hlen : size ≤ maxPayload) :
    Proper maxPayload (readRequest remoteHandle offset size id) :=
  ⟨rfl, ⟨Nat.zero_le _, fun _ => hlen⟩, fun _ => Nat.ne_of_gt hpos, nofun⟩

theorem proper_writeRequest (hd : data ≠ []) (hlen : data.length ≤ maxPayload) :
    Proper maxPayload (writeRequest remoteHandle offset data id) :=
  ⟨rfl, ⟨hlen, nofun⟩, nofun, fun _ => ⟨data, rfl, hd, rfl⟩⟩

end Proper

/-- Peers that stay connected and answer every proper request. Others may join at any
time, and nothing is said of the capacities that discovery reports. -/
def servingNet (maxPayload : ℕ) : (o : NetOp) → Peers → o.Res → Peers → Prop
  | .call p req, w, r, w' => w.joined ⊆ w'.joined ∧ (p ∈ w.joined → Proper maxPayload req →
      ∃ resp, r = .response resp ∧ Served w.store p req resp w'.store)
  | .candidates, w, r, w' => w.joined ⊆ w'.joined ∧ w'.store = w.store ∧ ∀ p ∈ r, p ∈ w'.joined
  | .peer p, w, r, w' =>
    w.joined ⊆ w'.joined ∧ w'.store = w.store ∧ (p ∈ w.joined → r.connected = true)
  | _, w, _, w' => w.joined ⊆ w'.joined ∧ w'.store = w.store

/-- The handle counter has not wrapped around, and the cached bytes can be counted. -/
def InRange (c : Client) : Prop := c.nextLocalHandle ≤ 2 ^ 64 ∧ c.cache.total < 2 ^ 64

instance : DecidablePred InRange := fun _ => instDecidableAnd

/-- The client among such peers, as long as its counters are in range. -/
def servingEnv (maxPayload : ℕ) (o : Effect) (s : Client × Peers) (r : o.Res)
    (s' : Client × Peers) : Prop :=
  clientEnv (servingNet maxPayload) o s r s' ∧ InRange s'.1

/-- `put` drops no block on its own. -/
def KeepsBlocks {ν : Type} : Effect → Client × ν → Prop
  | .mem (.cachePut handle data _), s => s.1.cache.PutKeeps handle data
  | _, _ => True

abbrev Ensures (maxPayload : ℕ) {α : Type} (p : ClientM α)
    (Q : Outcome Err α → Client × Peers → Prop) (s : Client × Peers) : Prop :=
  wp (servingEnv maxPayload) KeepsBlocks p Q s

structure Kept (s s' : Client × Peers) : Prop where
  client : ∃ id, s'.1 = { s.1 with nextRequestId := id }
  joined : s.2.joined ⊆ s'.2.joined

section Requests

variable {maxPayload p size remoteHandle offset : ℕ} {s s₁ s' : Client × Peers}
  {data bs : List Byte}

theorem Kept.refl (s : Client × Peers) : Kept s s := ⟨⟨_, rfl⟩, subset_rfl⟩

theorem Kept.trans (h₁ : Kept s s₁) (h₂ : Kept s₁ s') : Kept s s' := by
  obtain ⟨id₁, h₁c⟩ := h₁.client
  obtain ⟨id₂, h₂c⟩ := h₂.client
  exact ⟨⟨id₂, by rw [h₂c, h₁c]⟩, h₁.joined.trans h₂.joined⟩

theorem served_write {st st' : Stores} {id : ℕ} {r : MemoryResponse}
    (hv : Served st p (writeRequest remoteHandle offset data id) r st')
    (hst : st (p, remoteHandle) = some bs) (hle : offset + data.length ≤ bs.length) :
    r.status = .ok ∧
      st' = Function.update st (p, remoteHandle) (some (splice bs offset data)) := by
  dsimp only [Served, writeRequest] at hv
  rw [hst] at hv
  dsimp only at hv
  rwa [if_pos hle] at hv

theorem served_read {st st' : Stores} {id : ℕ} {r : MemoryResponse}
    (hv : Served st p (readRequest remoteHandle offset size id) r st')
    (hst : st (p, remoteHandle) = some bs) (hle : offset + size ≤ bs.length) :
    st' = st ∧ r.status = .ok ∧ r.data = some (slice bs offset size) := by
  dsimp only [Served, readRequest] at hv
  rw [hst] at hv
  dsimp only at hv
  rwa [if_pos hle] at hv

/-- A block changes only if it is written to or freed. -/
theorem Served.frame {st st' : Stores} {req : MemoryRequest} {resp : MemoryResponse} {r : Ref}
    (hv : Served st p req resp st') (hr : st r ≠ none)
    (hs : req.op = .write ∨ req.op = .free → r ≠ (p, req.handle)) : st' r = st r := by
  unfold Served at hv
  cases hop : req.op with
  | alloc =>
    simp only [hop] at hv
    obtain ⟨-, rfl⟩ | ⟨-, hfree, rfl⟩ := hv
    · rfl
    · apply Function.update_of_ne
      rintro rfl
      exact hr hfree
  | free =>
    simp only [hop] at hv
    rw [hv.2, Function.update_of_ne (hs (.inr hop))]
  | write =>
    simp only [hop] at hv
    have hne := hs (.inl hop)
    split at hv
    · split_ifs at hv
      · rw [hv.2, Function.update_of_ne hne]
      · rw [hv.2]
    · rw [hv.2]
  | read =>
    simp only [hop] at hv
    rw [hv.1]
  | ping =>
    simp only [hop] at hv
    rw [hv]
  | other code =>
    simp only [hop] at hv
    rw [hv]

theorem ensures_net_bind {α : Type} {o : NetOp} {f : o.Res → ClientM α}
    {Q : Outcome Err α → Client × Peers → Prop}
    (h : ∀ r w', servingNet maxPayload o s.2 r w' → Ensures maxPayload (f r) Q (s.1, w')) :
    Ensures maxPayload (net o >>= f) Q s := by
  refine ⟨trivial, ?_⟩
  rintro r ⟨c, w⟩ ⟨⟨rfl, hn⟩, -⟩
  exact h r w hn

theorem ensures_mem_bind {α : Type} {o : MemOp} {f : o.Res → ClientM α}
    {Q : Outcome Err α → Client × Peers → Prop} (hs : KeepsBlocks (.mem o) s)
    (h : InRange (s.1.perform o).2 →
      Ensures maxPayload (f (s.1.perform o).1) Q ((s.1.perform o).2, s.2)) :
    Ensures maxPayload (mem o >>= f) Q s := by
  refine ⟨hs, ?_⟩
  rintro r ⟨c, w⟩ ⟨⟨hr, rfl⟩, hc⟩
  obtain ⟨rfl, rfl⟩ := Prod.mk.inj hr
  exact h hc

theorem ensures_syncRemoteCall {request : ℕ → MemoryRequest}
    {Q : Outcome Err (Option MemoryResponse) → Client × Peers → Prop} (hp : p ∈ s.2.joined)
    (hf : ∀ id, Proper maxPayload (request id))
    (h : ∀ id resp s', Kept s s' → Served s.2.store p (request id) resp s'.2.store →
      Q (.ok (some resp)) s') :
    Ensures maxPayload (syncRemoteCall p request) Q s := by
  refine ensures_mem_bind trivial fun _ => ensures_net_bind fun r w hn => ?_
  obtain ⟨hj, hn⟩ := hn
  obtain ⟨resp, rfl, hv⟩ := hn hp (hf _)
  exact h _ resp _ ⟨⟨_, rfl⟩, hj⟩ hv

theorem ensures_tryAlloc {Q : Outcome Err (Option ℕ) → Client × Peers → Prop}
    (hp : p ∈ s.2.joined) (hpos : 0 < size)
    (hnone : ∀ s', Kept s s' → s'.2.store = s.2.store → Q (.ok none) s')
    (hsome : ∀ remoteHandle s', Kept s s' → s.2.store (p, remoteHandle) = none →
      s'.2.store =
        Function.update s.2.store (p, remoteHandle) (some (List.replicate size 0)) →
      Q (.ok (some remoteHandle)) s') :
    Ensures maxPayload (tryAlloc p size) Q s := by
  refine wp_tryCatch.mpr (wp_bind.mpr (ensures_syncRemoteCall hp ?_ fun id resp s' hk hv => ?_))
  · exact fun _ => proper_allocRequest hpos
  · obtain ⟨hst, he⟩ | ⟨hst, hfree, he⟩ := hv
    · simpa [andThen, orCatch, wp, Pure.pure, hst] using hnone s' hk he
    · simpa [andThen, orCatch, wp, Pure.pure, hst] using hsome _ s' hk hfree he

theorem ensures_release {Q : Outcome Err Unit → Client × Peers → Prop} (hp : p ∈ s.2.joined)
    (h : ∀ s', Kept s s' → s'.2.store = Function.update s.2.store (p, remoteHandle) none →
      Q (.ok ()) s') :
    Ensures maxPayload (release p remoteHandle) Q s :=
  wp_bind.mpr (ensures_syncRemoteCall hp (fun _ => proper_freeRequest)
    fun _ _ s' hk hv => h s' hk hv.2)

theorem ensures_tryRelease {Q : Outcome Err Unit → Client × Peers → Prop} (hp : p ∈ s.2.joined)
    (h : ∀ s', Kept s s' → s'.2.store = Function.update s.2.store (p, remoteHandle) none →
      Q (.ok ()) s') :
    Ensures maxPayload (tryRelease p remoteHandle) Q s := by
  refine ensures_net_bind fun r w ⟨hj, he, hc⟩ => ?_
  rw [if_pos (hc hp)]
  have hw : Kept s (s.1, w) := ⟨⟨_, rfl⟩, hj⟩
  exact wp_tryCatch.mpr (ensures_release (hj hp) fun s' hk hs => h s' (hw.trans hk) (he ▸ hs))

theorem ensures_store {Q : Outcome Err Unit → Client × Peers → Prop} (hp : p ∈ s.2.joined)
    (hd : data ≠ []) (hlen : data.length ≤ maxPayload)
    (hst : s.2.store (p, remoteHandle) = some bs) (hle : offset + data.length ≤ bs.length)
    (h : ∀ s', Kept s s' →
      s'.2.store = Function.update s.2.store (p, remoteHandle) (some (splice bs offset data)) →
      Q (.ok ()) s') :
    Ensures maxPayload (store p remoteHandle offset data) Q s := by
  refine wp_bind.mpr (ensures_syncRemoteCall hp ?_ fun id resp s' hk hv => ?_)
  · exact fun _ => proper_writeRequest hd hlen
  exact h s' hk (served_write hv hst hle).2

theorem ensures_fetch {Q : Outcome Err (List Byte) → Client × Peers → Prop}
    (hp : p ∈ s.2.joined) (hpos : 0 < size) (hlen : size ≤ maxPayload)
    (hst : s.2.store (p, remoteHandle) = some bs) (hle : offset + size ≤ bs.length)
    (h : ∀ s', Kept s s' → s'.2.store = s.2.store → Q (.ok (slice bs offset size)) s') :
    Ensures maxPayload (fetch p remoteHandle offset size) Q s := by
  refine wp_bind.mpr (ensures_syncRemoteCall hp ?_ fun id resp s' hk hv => ?_)
  · exact fun _ => proper_readRequest hpos hlen
  obtain ⟨he, hok, hd⟩ := served_read hv hst hle
  simpa [andThen, responseData, hok, hd, wp, Pure.pure] using h s' hk he

end Requests

end MemInfo
