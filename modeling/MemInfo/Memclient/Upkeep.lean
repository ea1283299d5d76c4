import Mathlib.Order.BooleanAlgebra.Set
import MemInfo.Memclient.Calls
import MemInfo.Memclient.Residency

/-! # What the client owes its peers

The pieces of blocks that the client's table names, and what holds of them on the peers. If
each request keeps that, with the pieces that a function has in hand counted in, then so
does every call, and the live handles stay where they belong.
-/

namespace MemInfo

open Lib Prog MemoryClient

def Client.held (c : Client) : List Stripe := c.remoteHandles.entries.flatMap fun e => e.2.parts

section Held

variable {c : Client} {h : ℕ} {a : RemoteAllocation}

theorem Client.held_insert (hl : c.remoteHandles.lookup h = none) :
    Client.held { c with remoteHandles := c.remoteHandles.insert h a } = a.parts ++ c.held := by
  have hnot : h ∉ c.remoteHandles := AList.lookup_eq_none.mp hl
  simp only [Client.held, AList.entries_insert_of_notMem hnot, List.flatMap_cons]

theorem Client.held_erase (hl : c.remoteHandles.lookup h = some a) :
    c.held.Perm
      (a.parts ++ Client.held { c with remoteHandles := c.remoteHandles.erase h }) := by
  have hp := (Dict.entries_perm_erase hl).flatMap_right fun e => e.2.parts
  rwa [List.flatMap_cons] at hp

theorem Client.held_erase_none (hl : c.remoteHandles.lookup h = none) :
    Client.held { c with remoteHandles := c.remoteHandles.erase h } = c.held := by
  have hnot : h ∉ c.remoteHandles := AList.lookup_eq_none.mp hl
  have herase : (c.remoteHandles.erase h).entries = c.remoteHandles.entries :=
    List.kerase_of_notMem_keys hnot
  rw [Client.held, herase, Client.held]

end Held

variable {ν : Type}

def rangedEnv (net : (o : NetOp) → ν → o.Res → ν → Prop) (o : Effect) (s : Client × ν) (r : o.Res)
    (s' : Client × ν) : Prop :=
  clientEnv net o s r s' ∧ InRange s'.1

def Loaded (N : List Stripe → ν → Prop) (a : RemoteAllocation) (xs : List Stripe) :
    Outcome Err (List Byte) → Client × ν → Prop
  | .ok data, s => data.length = a.size ∧ N xs s.2
  | .threw _, s => N (a.parts ++ xs) s.2
  | .aborted _, _ => True

/-- How requests change what holds on the peers. `N xs` says that of the pieces `xs`, `Size`
holds of the sizes of blocks, and `Entry` of the allocations in the table of a client with
`M` bytes of cache. -/
structure Upkeep (net : (o : NetOp) → ν → o.Res → ν → Prop) (M : ℕ) (Size : ℕ → Prop)
    (Entry : RemoteAllocation → Prop) (N : List Stripe → ν → Prop) : Prop where
  size : ∀ {n m}, Size m → 0 < n → n ≤ m → Size n
  entry : ∀ {a}, Entry a → Size a.size
  perm : ∀ {xs ys w}, xs.Perm ys → N xs w → N ys w
  ask : ∀ {xs w} {o : NetOp} {r w'}, (∀ p req, o ≠ .call p req) → N xs w → net o w r w' → N xs w'
  transfer : ∀ {xs w p} {req : MemoryRequest} {r : CallResult} {w'},
    req.op = .read ∨ req.op = .write → N xs w → net (.call p req) w r w' → N xs w'
  refused : ∀ {xs w p size id} {r : CallResult} {w'}, N xs w → Size size →
    net (.call p (allocRequest size id)) w r w' →
    (∀ resp, r = .response resp → resp.status ≠ .ok) → N xs w'
  granted : ∀ {xs w p size id} {resp : MemoryResponse} {w'}, N xs w → Size size →
    net (.call p (allocRequest size id)) w (.response resp) w' → resp.status = .ok →
    ∀ offset, N (⟨resp.handle, offset, size, p⟩ :: xs) w'
  free : ∀ {xs w id} {x : Stripe} {r : CallResult} {w'}, N (x :: xs) w →
    net (.call x.peer (freeRequest x.remoteHandle id)) w r w' → N xs w'
  skip : ∀ {xs w} {x : Stripe} {r : RemotePeer} {w'}, N (x :: xs) w →
    net (.peer x.peer) w r w' → r.connected = false → N xs w'
  oversized : ∀ {a}, M < a.size → Size a.size → (0 < a.size → Consecutive 0 a.parts a.size) →
    Entry a
  written : ∀ {a} {data : List Byte} {s}, a.size = data.length → Size data.length →
    (0 < data.length → Consecutive 0 a.parts data.length) →
    wp (rangedEnv net) (fun _ _ => True) (writeRemote a 0 data)
      (fun out _ => out = .ok () → Entry a) s
  loaded : ∀ {a xs s}, Entry a → a.size ≤ M → N (a.parts ++ xs) s.2 →
    wp (rangedEnv net) (fun _ _ => True) (readRemote a 0 a.size) (Loaded N a xs) s

/-- The state of a client between calls: the handles in `live` have blocks, and `N` holds of
what the client's table names. -/
structure Tended (M : ℕ) (Size : ℕ → Prop) (Entry : RemoteAllocation → Prop)
    (N : List Stripe → ν → Prop) (live : Set ℕ) (s : Client × ν) : Prop where
  residency : Residency Size Entry live s.1
  maxBytes : s.1.cache.maxBytes = M
  held : N s.1.held s.2

abbrev Tends (net : (o : NetOp) → ν → o.Res → ν → Prop) {α : Type} (p : ClientM α)
    (Q : Outcome Err α → Client × ν → Prop) (s : Client × ν) : Prop :=
  wp (rangedEnv net) (fun _ _ => True) p Q s

namespace Upkeep

variable {net : (o : NetOp) → ν → o.Res → ν → Prop} {M : ℕ} {Size : ℕ → Prop}
  {Entry : RemoteAllocation → Prop} {N : List Stripe → ν → Prop} {live : Set ℕ} {s : Client × ν}
  {h size : ℕ} {a : RemoteAllocation} {xs ys : List Stripe} {α : Type}

theorem tends_mem_bind {o : MemOp} {f : o.Res → ClientM α} {Q : Outcome Err α → Client × ν → Prop}
    (h : InRange (s.1.perform o).2 →
      Tends net (f (s.1.perform o).1) Q ((s.1.perform o).2, s.2)) :
    Tends net (mem o >>= f) Q s := by
  refine ⟨trivial, ?_⟩
  rintro r ⟨c, w⟩ ⟨⟨hr, rfl⟩, hc⟩
  obtain ⟨rfl, rfl⟩ := Prod.mk.inj hr
  exact h hc

theorem tends_find_bind {f : Option RemoteAllocation → ClientM α}
    {Q : Outcome Err α → Client × ν → Prop}
    (hf : Tends net (f (s.1.remoteHandles.lookup h)) Q s) :
    Tends net (mem (.remoteFind h) >>= f) Q s :=
  tends_mem_bind fun _ => hf

variable (hU : Upkeep net M Size Entry N)

include hU

section Requests

theorem custody (c₀ : Client) (ys : List Stripe) :
    Custody (rangedEnv net) Size
      (fun xs s => (∃ id, s.1 = { c₀ with nextRequestId := id }) ∧ N (xs ++ ys) s.2) where
  size := hU.size
  requestId := by
    rintro xs s r s' ⟨⟨id, hc⟩, hN⟩ ⟨⟨hr, hw⟩, -⟩
    have hc' : s'.1 = { s.1 with nextRequestId := s.1.nextRequestId + 1 } := congrArg Prod.snd hr
    exact ⟨⟨_, by rw [hc', hc]⟩, hw ▸ hN⟩
  ask ho hh he := ⟨he.1.1.symm ▸ hh.1, hU.ask ho hh.2 he.1.2⟩
  refused hh hsize he hno := ⟨he.1.1.symm ▸ hh.1, hU.refused hh.2 hsize he.1.2 hno⟩
  granted := by
    intro xs s p size id s' resp hh hsize he hok offset
    refine ⟨he.1.1.symm ▸ hh.1, hU.perm ?_ (hU.granted hh.2 hsize he.1.2 hok offset)⟩
    rw [List.append_assoc]
    exact List.perm_middle.symm
  free hh he := ⟨he.1.1.symm ▸ hh.1, hU.free hh.2 he.1.2⟩
  skip hh he hno := ⟨he.1.1.symm ▸ hh.1, hU.skip hh.2 he.1.2 hno⟩

def Moves : Effect → Prop
  | .mem o => o = .nextRequestId
  | .net (.call _ req) => req.op = .read ∨ req.op = .write
  | .net _ => True

omit hU in
theorem moves_background : Background Moves := by
  constructor
  · rfl
  · intro o ho
    cases o with
    | call p req => exact absurd rfl (ho p req)
    | _ => trivial

theorem tends_moves {p : ClientM α} {A : Abort → Prop} (hp : Confined Moves A p)
    (hN : N xs s.2) :
    Tends net p (fun _ s' => (∃ id, s'.1 = { s.1 with nextRequestId := id }) ∧ N xs s'.2) s := by
  have hC := hU.custody s.1 []
  refine hp.wp_invariant (I := fun s' : Client × ν =>
    (∃ id, s'.1 = { s.1 with nextRequestId := id }) ∧ N xs s'.2) (fun _ _ _ _ => trivial) ?_
    ⟨⟨_, rfl⟩, hN⟩
  rintro o s₁ r s₂ ho ⟨hc, hN₁⟩ he
  cases o with
  | mem o =>
    obtain rfl : o = .nextRequestId := ho
    rw [← List.append_nil xs] at hN₁ ⊢
    exact hC.requestId ⟨hc, hN₁⟩ he
  | net o =>
    refine ⟨he.1.1.symm ▸ hc, ?_⟩
    cases o with
    | call p req => exact hU.transfer ho hN₁ he.1.2
    | _ => exact hU.ask (by nofun) hN₁ he.1.2

theorem tends_readRemote {offset n : ℕ} (hN : N xs s.2) :
    Tends net (readRemote a offset n false)
      (fun _ s' => (∃ id, s'.1 = { s.1 with nextRequestId := id }) ∧ N xs s'.2) s := by
  have hconf : Confined Moves (fun _ => True) (readRemote a offset n false) := by
    apply confined_readRemote moves_background
    · exact fun _ _ _ _ _ _ => .inl rfl
    · nofun
  exact hU.tends_moves hconf hN

theorem tends_writeRemote {offset : ℕ} {data : List Byte} (hN : N xs s.2) :
    Tends net (writeRemote a offset data)
      (fun _ s' => (∃ id, s'.1 = { s.1 with nextRequestId := id }) ∧ N xs s'.2) s :=
  hU.tends_moves (confined_writeRemote moves_background (fun _ _ _ _ _ _ => .inr rfl) offset) hN

theorem tends_freeRemote {Q : Outcome Err Unit → Client × ν → Prop} (hN : N (a.parts ++ xs) s.2)
    (h : ∀ id w, N xs w → Q (.ok ()) ({ s.1 with nextRequestId := id }, w)) :
    Tends net (freeRemote a) Q s := by
  have hnone : N (a.parts ++ [] ++ xs) s.2 := by rwa [List.append_nil]
  apply (hU.custody s.1 xs).wp_freeRemote ⟨⟨_, rfl⟩, hnone⟩
  rintro ⟨c, w⟩ ⟨⟨id, hc⟩, hN'⟩
  obtain rfl : c = { s.1 with nextRequestId := id } := hc
  exact h id w hN'

theorem tends_allocateRemote {Q : Outcome Err Unit → Client × ν → Prop} (hN : N ys s.2)
    (hsize : Size size)
    (hok : ∀ a id w, a.size = size → (0 < size → Consecutive 0 a.parts size) →
      N (a.parts ++ ys) w → Q (.ok ())
        ({ s.1 with nextRequestId := id, remoteHandles := s.1.remoteHandles.insert h a }, w))
    (hthrow : ∀ e id w, N ys w → Q (.threw e) ({ s.1 with nextRequestId := id }, w)) :
    Tends net (allocateRemote h size) Q s := by
  apply (hU.custody s.1 ys).wp_allocateRemote ⟨⟨_, rfl⟩, hN⟩ hsize
  · rintro a ⟨c, w⟩ ⟨⟨id, hc⟩, hN'⟩ ha hx
    obtain rfl : c = { s.1 with nextRequestId := id } := hc
    exact tends_mem_bind (f := Pure.pure) fun _ => hok a id w ha hx hN'
  · rintro e ⟨c, w⟩ ⟨⟨id, hc⟩, hN'⟩
    obtain rfl : c = { s.1 with nextRequestId := id } := hc
    exact hthrow e id w hN'

end Requests

section Eviction

/-- A failed eviction is undone: the reservation, if there is one, is dropped, and the block
is back in the cache. -/
theorem tends_rollback {b : CacheBlock} {e : Err} {Q : Outcome Err Unit → Client × ν → Prop}
    (hr : Residency Size Entry live
      { s.1 with remoteHandles := s.1.remoteHandles.erase b.handle })
    (hm : s.1.cache.maxBytes = M) (hN : N s.1.held s.2) (hh : b.handle ∉ live)
    (hlt : b.handle < s.1.nextLocalHandle) (hsize : Size b.data.length)
    (hlen : b.data.length ≤ M) (hroom : s.1.cache.HasRoom b.data.length)
    (hthrow : ∀ s', Tended M Size Entry N (insert b.handle live) s' → Q (.threw e) s') :
    Tends net (rollback b e) Q s := by
  let c := { s.1 with remoteHandles := s.1.remoteHandles.erase b.handle }
  -- the block is put back once the reservation is dropped
  have hput (id w) (hN' : N c.held w) : Tends net (do
      let _ ← mem (.cachePut b.handle b.data b.dirty)
      MonadExcept.throw e) Q ({ c with nextRequestId := id }, w) := by
    apply tends_mem_bind
    intro hrange
    refine hthrow _
      ⟨(hr.requestId id).put_new b.dirty hh hlt hsize (hm ▸ hlen) hroom hrange, ?_, hN'⟩
    exact (s.1.cache.maxBytes_put _ _ _).trans hm
  apply wp_bind.mpr
  apply tends_mem_bind
  intro _
  have htake : s.1.perform (.remoteTake b.handle) = (s.1.remoteHandles.lookup b.handle, c) := rfl
  rw [htake]
  cases hl : s.1.remoteHandles.lookup b.handle with
  | none =>
    rw [← Client.held_erase_none hl] at hN
    exact hput s.1.nextRequestId s.2 hN
  | some orphan =>
    have hN' := hU.perm (Client.held_erase hl) hN
    apply wp_tryCatch.mpr
    exact hU.tends_freeRemote (s := (c, s.2)) hN' hput

theorem tends_pushOut {b : CacheBlock} {Q : Outcome Err Unit → Client × ν → Prop}
    (ht : Tended M Size Entry N live s) (hh : b.handle ∉ live)
    (hlt : b.handle < s.1.nextLocalHandle) (hsize : Size b.data.length)
    (hlen : b.data.length ≤ M) (hroom : s.1.cache.HasRoom b.data.length)
    (hok : ∀ a id w, Entry a → N (a.parts ++ s.1.held) w → Q (.ok ())
      ({ s.1 with nextRequestId := id, remoteHandles := s.1.remoteHandles.insert b.handle a }, w))
    (hthrow : ∀ e s', Tended M Size Entry N (insert b.handle live) s' → Q (.threw e) s')
    (habort : ∀ x s', Q (.aborted x) s') : Tends net (pushOut b) Q s := by
  have hl := (ht.residency.of_not_mem hh).2
  apply wp_tryCatch.mpr
  apply wp_bind.mpr
  apply hU.tends_allocateRemote ht.held hsize
  · intro a id w ha hx hN
    apply tends_find_bind
    have hentry : (s.1.remoteHandles.insert b.handle a).lookup b.handle = some a :=
      AList.lookup_insert _
    rw [hentry]
    apply wp_mono (wp_and (hU.tends_writeRemote hN) (hU.written ha hsize hx))
    rintro out ⟨c, w'⟩ ⟨⟨⟨id', hc⟩, hN'⟩, hwritten⟩
    obtain rfl : c = { s.1 with
      nextRequestId := id', remoteHandles := s.1.remoteHandles.insert b.handle a } := hc
    cases out with
    | ok _ => exact hok a id' w' (hwritten rfl) hN'
    | aborted x => exact habort x _
    | threw e =>
      have hr : Residency Size Entry live { s.1 with
          nextRequestId := id'
          remoteHandles := (s.1.remoteHandles.insert b.handle a).erase b.handle } := by
        refine (ht.residency.requestId id').congr_lookup fun k => ?_
        rw [Dict.lookup_erase_iff, Dict.lookup_insert_iff]
        split_ifs with hk
        · rw [hk, hl]
        · rfl
      rw [← Client.held_insert hl] at hN'
      exact hU.tends_rollback hr ht.maxBytes hN' hh hlt hsize hlen hroom (hthrow e)
  · intro e id w hN
    have hr : Residency Size Entry live { s.1 with
        nextRequestId := id, remoteHandles := s.1.remoteHandles.erase b.handle } := by
      refine (ht.residency.requestId id).congr_lookup fun k => ?_
      rw [Dict.lookup_erase_iff]
      split_ifs with hk
      · rw [hk, hl]
      · rfl
    exact hU.tends_rollback hr ht.maxBytes hN hh hlt hsize hlen hroom (hthrow e)

structure Evicted (c c' : Client) : Prop where
  issued : c'.nextLocalHandle = c.nextLocalHandle
  lookup : ∀ h a, c.remoteHandles.lookup h = some a → c'.remoteHandles.lookup h = some a

omit hU in
theorem Evicted.refl (c : Client) : Evicted c c := ⟨rfl, fun _ _ hl => hl⟩

omit hU in
theorem Evicted.trans {c₁ c₂ c₃ : Client} (h₁ : Evicted c₁ c₂) (h₂ : Evicted c₂ c₃) :
    Evicted c₁ c₃ :=
  ⟨h₂.issued.trans h₁.issued, fun h a hl => h₂.lookup h a (h₁.lookup h a hl)⟩

theorem tends_evictRounds {rounds : ℕ} {pressure : Bool} {Q : Outcome Err Unit → Client × ν → Prop}
    (ht : Tended M Size Entry N live s)
    (hok : ∀ s', Tended M Size Entry N live s' → Evicted s.1 s'.1 → s'.1.cache.HasRoom size →
      Q (.ok ()) s')
    (hthrow : ∀ e s', Tended M Size Entry N live s' → Q (.threw e) s')
    (habort : ∀ x s', Q (.aborted x) s') : Tends net (evictRounds size pressure rounds) Q s := by
  induction rounds generalizing s with
  | zero => exact habort _ s
  | succ rounds ih =>
    apply tends_mem_bind
    intro _
    change Tends net (if (s.1.cache.needsEviction size || pressure) = true then _ else _) Q s
    split_ifs with hcond
    swap
    · rw [Bool.or_eq_true, not_or] at hcond
      have hle : wrap (s.1.cache.currentBytes + size) ≤ s.1.cache.maxBytes := by
        simpa [LRUCache.needsEviction] using hcond.1
      exact hok s ht (.refl _) (.inl hle)
    apply tends_mem_bind
    intro _
    obtain ⟨hnil, he⟩ | ⟨n, he, hrem⟩ := s.1.cache.popBack_cases
    · have hone : s.1.perform .cacheEvictOne = (none, s.1) := by rw [Client.perform, he]
      rw [hone]
      exact hok s ht (.refl _) (.inr hnil)
    have hone : s.1.perform .cacheEvictOne =
        (some n.block, { s.1 with cache := s.1.cache.popBack }) := by rw [Client.perform, he]
    rw [hone]
    have hm := s.1.cache.maxBytes_popBack
    obtain ⟨hlive, hsize, hr⟩ := ht.residency.uncache hrem hm
    obtain ⟨-, hlen, hroom⟩ := ht.residency.counted.removed hrem hm
    have hback : insert n.block.handle (live \ {n.block.handle}) = live := by
      rw [Set.insert_sdiff_singleton, Set.insert_eq_of_mem hlive]
    have hin : n.block.handle ∉ live \ {n.block.handle} := fun h => h.2 rfl
    have hlt := ht.residency.issued _ hlive
    have ht₁ : Tended M Size Entry N (live \ {n.block.handle})
        ({ s.1 with cache := s.1.cache.popBack }, s.2) := ⟨hr, hm.trans ht.maxBytes, ht.held⟩
    refine wp_bind.mpr (hU.tends_pushOut ht₁ hin hlt hsize (ht₁.maxBytes ▸ hlen) hroom ?_ ?_ habort)
    · intro a id w ha hN
      have hnone := (hr.of_not_mem hin).2
      have hr' := (hr.requestId id).insert hin hlt ha
      rw [hback] at hr'
      rw [← Client.held_insert hnone] at hN
      have hev : Evicted s.1 { s.1 with
          cache := s.1.cache.popBack, nextRequestId := id
          remoteHandles := s.1.remoteHandles.insert n.block.handle a } := by
        refine ⟨rfl, fun k e hl => ?_⟩
        have hk : k ≠ n.block.handle := by
          rintro rfl
          rw [hnone] at hl
          cases hl
        exact (AList.lookup_insert_ne hk).trans hl
      exact ih ⟨hr', ht₁.maxBytes, hN⟩ fun s' ht' hev' => hok s' ht' (hev.trans hev')
    · intro e s' ht'
      rw [hback] at ht'
      exact hthrow e s' ht'

theorem tends_evictIfNeeded {Q : Outcome Err Unit → Client × ν → Prop}
    (ht : Tended M Size Entry N live s)
    (hok : ∀ s', Tended M Size Entry N live s' → Evicted s.1 s'.1 → s'.1.cache.HasRoom size →
      Q (.ok ()) s')
    (hthrow : ∀ e s', Tended M Size Entry N live s' → Q (.threw e) s')
    (habort : ∀ x s', Q (.aborted x) s') : Tends net (evictIfNeeded size) Q s := by
  refine ⟨trivial, ?_⟩
  rintro bytes ⟨c, w⟩ ⟨⟨hc, hn⟩, -⟩
  obtain rfl : c = s.1 := hc
  apply tends_mem_bind
  intro _
  have hN := hU.ask (by nofun) ht.held hn
  exact hU.tends_evictRounds ⟨ht.residency, ht.maxBytes, hN⟩ hok hthrow habort

omit hU in
/-- A program that only talks to the peers changes nothing of the client but the request
ids. -/
theorem tends_ids {p : ClientM α} {A : Abort → Prop}
    (hp : Confined (fun o : Effect => ∀ m, o = .mem m → m = .nextRequestId) A p) :
    Tends net p (fun _ s' => ∃ id, s'.1 = { s.1 with nextRequestId := id }) s := by
  refine hp.wp_invariant (I := fun s' : Client × ν => ∃ id, s'.1 = { s.1 with nextRequestId := id })
    (fun _ _ _ _ => trivial) ?_ ⟨_, rfl⟩
  rintro o s₁ r s₂ ho ⟨id, hc⟩ he
  cases o with
  | mem o =>
    obtain rfl := ho o rfl
    have hc' : s₂.1 = { s₁.1 with nextRequestId := s₁.1.nextRequestId + 1 } :=
      congrArg Prod.snd he.1.1
    exact ⟨_, by rw [hc', hc]⟩
  | net o => exact ⟨id, he.1.1.trans hc⟩

theorem tends_loadToLocal {Q : Outcome Err Unit → Client × ν → Prop}
    (ht : Tended M Size Entry N live s)
    (hsize : ∀ a, s.1.remoteHandles.lookup h = some a → a.size ≤ M)
    (hok : ∀ s', Tended M Size Entry N live s' → Q (.ok ()) s')
    (hthrow : ∀ e s', Tended M Size Entry N live s' → Q (.threw e) s')
    (habort : ∀ x s', Q (.aborted x) s') : Tends net (loadToLocal h) Q s := by
  apply tends_find_bind
  cases hl : s.1.remoteHandles.lookup h with
  | none => exact hthrow _ s ht
  | some a =>
    refine wp_bind.mpr (hU.tends_evictIfNeeded ht ?_ hthrow habort)
    intro s₁ ht₁ hev hroom
    have hl₁ := hev.lookup h a hl
    obtain ⟨hlive, ha, hc⟩ := ht₁.residency.of_lookup hl₁
    have hconf : Confined (fun o : Effect => ∀ m, o = .mem m → m = .nextRequestId) (fun _ => True)
        (readRemote a 0 a.size) := by
      apply confined_readRemote
      · exact ⟨fun m hm => by simpa using hm.symm, fun _ _ => nofun⟩
      · exact fun _ _ _ _ _ _ => nofun
      · exact fun _ _ _ _ => nofun
    have hperm := Client.held_erase hl₁
    refine wp_bind.mpr (wp_mono (wp_and (tends_ids hconf)
      (hU.loaded ha (hsize a hl) (hU.perm hperm ht₁.held))) ?_)
    rintro out ⟨c, w⟩ ⟨⟨id, hid⟩, hload⟩
    obtain rfl : c = { s₁.1 with nextRequestId := id } := hid
    cases out with
    | aborted x => exact habort x _
    | threw e =>
      exact hthrow e _ ⟨ht₁.residency.requestId id, ht₁.maxBytes, hU.perm hperm.symm hload⟩
    | ok data =>
      obtain ⟨hdata, hN⟩ := hload
      apply tends_mem_bind
      intro _
      apply tends_mem_bind (f := fun _ => Pure.pure ())
      intro hrange
      have hr := (ht₁.residency.requestId id).take hc
      have hr' := hr.put_new false (fun hm => hm.2 rfl) (ht₁.residency.issued h hlive)
        (hdata ▸ hU.entry ha) (hdata ▸ ht₁.maxBytes.symm ▸ hsize a hl) (hdata ▸ hroom) hrange
      rw [Set.insert_sdiff_singleton, Set.insert_eq_of_mem hlive] at hr'
      exact hok _ ⟨hr', (LRUCache.maxBytes_put _ _ _ _).trans ht₁.maxBytes, hN⟩

end Eviction

section Calls

omit hU in
theorem tends_cacheGet_bind {f : Option (List Byte) → ClientM α}
    {Q : Outcome Err α → Client × ν → Prop} (ht : Tended M Size Entry N live s)
    (hf : ∀ s', Tended M Size Entry N live s' → s'.1.cache.content h = s.1.cache.content h →
      Tends net (f (s.1.cache.content h)) Q s') :
    Tends net (mem (.cacheGet h) >>= f) Q s := by
  obtain ⟨l, hp, hget⟩ := ht.residency.counted.inv.get_cases h
  apply tends_mem_bind
  intro _
  have hperform : s.1.perform (.cacheGet h) =
      (s.1.cache.content h, { s.1 with cache := { s.1.cache with list := l } }) := by
    rw [Client.perform, hget]
  rw [hperform]
  exact hf _ ⟨ht.residency.reorder hp, ht.maxBytes, ht.held⟩
    (ht.residency.counted.inv.content_reorder hp h)

omit hU in
theorem tends_oversizedRemoteAlloc {f : Option RemoteAllocation → ClientM α}
    {Q : Outcome Err α → Client × ν → Prop} (hm : s.1.cache.maxBytes = M)
    (hnone : (∀ a, s.1.remoteHandles.lookup h = some a → a.size ≤ M) → Tends net (f none) Q s)
    (hsome : ∀ a, Tends net (f (some a)) Q s) : Tends net (oversizedRemoteAlloc h >>= f) Q s := by
  apply wp_bind.mpr
  apply tends_find_bind
  cases hl : s.1.remoteHandles.lookup h with
  | none => exact hnone fun a ha => absurd (hl.symm.trans ha) nofun
  | some a =>
    apply tends_mem_bind
    intro _
    change Tends net (if a.size ≤ s.1.cache.maxBytes then Pure.pure none
      else Pure.pure (some a)) _ s
    split_ifs with hle
    · refine hnone fun b hb => ?_
      obtain rfl := Option.some.inj (hl.symm.trans hb)
      exact hm ▸ hle
    · exact hsome a

/-- What `read` and `write` have in common: the block is in the cache, too large for it, or
loaded. -/
theorem tends_access {k : List Byte → ClientM α} {f : RemoteAllocation → ClientM α}
    {Q : Outcome Err α → Client × ν → Prop} (ht : Tended M Size Entry N live s)
    (hk : ∀ data s', Tended M Size Entry N live s' → s'.1.cache.content h = some data →
      Tends net (k data) Q s')
    (hf : ∀ a s', Tended M Size Entry N live s' → Tends net (f a) Q s')
    (hthrow : ∀ e s', Tended M Size Entry N live s' → Q (.threw e) s')
    (habort : ∀ x s', Q (.aborted x) s') :
    Tends net (do
      match ← mem (.cacheGet h) with
      | some data => k data
      | none =>
        match ← oversizedRemoteAlloc h with
        | some remote => f remote
        | none => do
          loadToLocal h
          match ← mem (.cacheGet h) with
          | none => MonadExcept.throw (.runtimeError "Failed to load block from remote")
          | some data => k data) Q s := by
  apply tends_cacheGet_bind ht
  intro s₁ ht₁ hc₁
  cases hc : s.1.cache.content h with
  | some data => exact hk data s₁ ht₁ (hc₁.trans hc)
  | none =>
    apply tends_oversizedRemoteAlloc ht₁.maxBytes
    · intro hsize
      refine wp_bind.mpr (hU.tends_loadToLocal ht₁ hsize (fun s₂ ht₂ => ?_) hthrow habort)
      apply tends_cacheGet_bind ht₂
      intro s₃ ht₃ hc₃
      cases hc' : s₂.1.cache.content h with
      | none => exact hthrow _ s₃ ht₃
      | some data => exact hk data s₃ ht₃ (hc₃.trans hc')
    · exact fun a => hf a s₁ ht₁

omit hU in
theorem tends_of_moved {p : ClientM α} {Q : Outcome Err α → Client × ν → Prop}
    (ht : Tended M Size Entry N live s)
    (hp : Tends net p (fun _ s' =>
      (∃ id, s'.1 = { s.1 with nextRequestId := id }) ∧ N s.1.held s'.2) s)
    (hok : ∀ a s', Tended M Size Entry N live s' → Q (.ok a) s')
    (hthrow : ∀ e s', Tended M Size Entry N live s' → Q (.threw e) s')
    (habort : ∀ x s', Q (.aborted x) s') : Tends net p Q s := by
  apply wp_mono hp
  rintro out ⟨c, w⟩ ⟨⟨id, hc⟩, hN⟩
  obtain rfl : c = { s.1 with nextRequestId := id } := hc
  have ht₁ : Tended M Size Entry N live ({ s.1 with nextRequestId := id }, w) :=
    ⟨ht.residency.requestId id, ht.maxBytes, hN⟩
  cases out with
  | ok a => exact hok a _ ht₁
  | threw e => exact hthrow e _ ht₁
  | aborted x => exact habort x _

theorem tends_read {offset n : ℕ} {Q : Outcome Err (List Byte) → Client × ν → Prop}
    (ht : Tended M Size Entry N live s)
    (hok : ∀ data s', Tended M Size Entry N live s' → Q (.ok data) s')
    (hthrow : ∀ e s', Tended M Size Entry N live s' → Q (.threw e) s')
    (habort : ∀ x s', Q (.aborted x) s') : Tends net (read h offset n) Q s := by
  apply hU.tends_access ht _ _ hthrow habort
  · intro data s' ht' _
    unfold readLocal
    split_ifs
    · exact hthrow _ s' ht'
    · exact hok _ s' ht'
  · intro a s' ht'
    split_ifs
    · exact hthrow _ s' ht'
    · exact tends_of_moved ht' (hU.tends_readRemote ht'.held) hok hthrow habort

theorem tends_write {offset : ℕ} {data : List Byte} {Q : Outcome Err Unit → Client × ν → Prop}
    (ht : Tended M Size Entry N live s)
    (hok : ∀ s', Tended M Size Entry N live s' → Q (.ok ()) s')
    (hthrow : ∀ e s', Tended M Size Entry N live s' → Q (.threw e) s')
    (habort : ∀ x s', Q (.aborted x) s') : Tends net (write h offset data) Q s := by
  apply hU.tends_access ht _ _ hthrow habort
  · intro block s' ht' hc
    unfold writeLocal
    split_ifs with hout
    · exact hthrow _ s' ht'
    · have hlen : (splice block offset data).length = block.length :=
        length_splice (by unfold OutOfBounds at hout; omega)
      apply tends_mem_bind (f := fun _ => Pure.pure ())
      intro _
      exact hok _ ⟨ht'.residency.put_same true hc hlen,
        (s'.1.cache.maxBytes_put _ _ _).trans ht'.maxBytes, ht'.held⟩
  · intro a s' ht'
    split_ifs
    · exact hthrow _ s' ht'
    · exact tends_of_moved ht' (hU.tends_writeRemote ht'.held) (fun _ => hok) hthrow habort

theorem tends_free {Q : Outcome Err Unit → Client × ν → Prop} (ht : Tended M Size Entry N live s)
    (hok : ∀ s', Tended M Size Entry N (live \ {h}) s' → Q (.ok ()) s') :
    Tends net (MemoryClient.free h) Q s := by
  apply tends_mem_bind
  intro _
  obtain ⟨hf, hd⟩ | ⟨n, hf, rfl, hrem⟩ := ht.residency.counted.inv.detach_cases h
  swap
  · have hremove : s.1.perform (.cacheRemove n.block.handle) =
        (true, { s.1 with cache := s.1.cache.detach n.block.handle }) := by
      rw [Client.perform, LRUCache.remove, hf]
      rfl
    rw [hremove]
    have hm := s.1.cache.maxBytes_detach n.block.handle
    exact hok _ ⟨(ht.residency.uncache hrem hm).2.2, hm.trans ht.maxBytes, ht.held⟩
  have hremove : s.1.perform (.cacheRemove h) = (false, s.1) := by
    rw [Client.perform, LRUCache.remove, hf, hd]
    rfl
  have hc : s.1.cache.content h = none := LRUCache.content_eq_none.mpr hf
  rw [hremove]
  apply tends_find_bind
  cases hl : s.1.remoteHandles.lookup h with
  | none =>
    apply hok s
    rwa [Set.sdiff_singleton_eq_self (ht.residency.of_none hc hl)]
  | some a =>
    refine wp_bind.mpr (hU.tends_freeRemote (hU.perm (Client.held_erase hl) ht.held) ?_)
    intro id w hN
    apply tends_mem_bind (f := fun _ => Pure.pure ())
    intro _
    exact hok _ ⟨(ht.residency.requestId id).take hc, ht.maxBytes, hN⟩

theorem tends_allocate {Q : Outcome Err ℕ → Client × ν → Prop} (ht : Tended M Size Entry N live s)
    (hsize : Size size)
    (hok : ∀ h s', h ∉ live → Tended M Size Entry N (insert h live) s' → Q (.ok h) s')
    (hthrow : ∀ e s', Tended M Size Entry N live s' → Q (.threw e) s')
    (habort : ∀ x s', Q (.aborted x) s') : Tends net (allocate size) Q s := by
  apply tends_mem_bind
  intro hrange
  have hlt : s.1.nextLocalHandle < 2 ^ 64 := hrange.1
  have hnext : s.1.perform .nextLocalHandle =
      (s.1.nextLocalHandle, { s.1 with nextLocalHandle := s.1.nextLocalHandle + 1 }) := by
    rw [Client.perform, wrap_of_lt hlt]
  rw [hnext]
  obtain ⟨hnew, hr⟩ := ht.residency.next hlt
  have ht₁ : Tended M Size Entry N live
      ({ s.1 with nextLocalHandle := s.1.nextLocalHandle + 1 }, s.2) := ⟨hr, ht.maxBytes, ht.held⟩
  apply tends_mem_bind
  intro _
  change Tends net (if size > s.1.cache.maxBytes then _ else _) Q _
  split_ifs with hbig
  · refine wp_bind.mpr (hU.tends_allocateRemote ht₁.held hsize ?_ ?_)
    · intro a id w ha hx hN
      subst ha
      have hentry := hU.oversized (ht.maxBytes ▸ hbig) hsize hx
      rw [← Client.held_insert (hr.of_not_mem hnew).2] at hN
      exact hok _ _ hnew
        ⟨(hr.requestId id).insert hnew (Nat.lt_succ_self _) hentry, ht.maxBytes, hN⟩
    · intro e id w hN
      exact hthrow e _ ⟨hr.requestId id, ht.maxBytes, hN⟩
  · refine wp_bind.mpr (hU.tends_evictIfNeeded ht₁ ?_ hthrow habort)
    intro s₂ ht₂ hev hroom
    have hlen : (List.replicate size (0 : Byte)).length = size := List.length_replicate
    have hle : size ≤ s₂.1.cache.maxBytes := by
      rw [ht₂.maxBytes, ← ht.maxBytes]
      exact Nat.not_lt.mp hbig
    have hissued : s.1.nextLocalHandle < s₂.1.nextLocalHandle := by
      rw [hev.issued]
      exact Nat.lt_succ_self _
    apply tends_mem_bind
    intro hrange'
    have hr' := ht₂.residency.put_new false hnew hissued (hlen.symm ▸ hsize)
      (hlen.symm ▸ hle) (hlen.symm ▸ hroom) hrange'
    have htrue : (s₂.1.perform (.cachePut s.1.nextLocalHandle (List.replicate size 0) false)).1 =
        true := by
      rw [Client.perform, LRUCache.put, if_neg (by omega)]
    rw [htrue]
    exact hok _ _ hnew ⟨hr', (s₂.1.cache.maxBytes_put _ _ _).trans ht₂.maxBytes, ht₂.held⟩

end Calls

end Upkeep

def Call.liveAfter (live : Set ℕ) : Call → Outcome Err Value → Set ℕ
  | .allocate _, .ok (.handle h) => insert h live
  | .free h, .ok _ => live \ {h}
  | _, _ => live

/-- The handles that `allocate` has returned and that have not been freed since. -/
def liveHandles (tr : List (Call × Outcome Err Value)) : Set ℕ :=
  tr.foldl (fun live e => e.1.liveAfter live e.2) ∅

/-- The blocks that are asked for have sizes in `Size`. -/
def Call.Sized (Size : ℕ → Prop) : Call → Prop
  | .allocate size => Size size
  | _ => True

def Completed {α : Type} (out : Outcome Err α) : Prop := ∀ x, out ≠ .aborted x

namespace Upkeep

variable {net : (o : NetOp) → ν → o.Res → ν → Prop} {M : ℕ} {Size : ℕ → Prop}
  {Entry : RemoteAllocation → Prop} {N : List Stripe → ν → Prop} {live : Set ℕ}
  {s s' : Client × ν}

theorem tends_exec {call : Call} (hU : Upkeep net M Size Entry N)
    (ht : Tended M Size Entry N live s) (hcall : call.Sized Size) :
    Tends net call.exec (fun out s' => Completed out →
      Tended M Size Entry N (call.liveAfter live out) s') s := by
  have habort (x : Abort) (live' : Set ℕ) (s' : Client × ν) :
      Completed (.aborted x : Outcome Err Value) → Tended M Size Entry N live' s' :=
    fun hx => absurd rfl (hx x)
  cases call with
  | allocate size =>
    refine wp_bind.mpr (hU.tends_allocate ht hcall ?_ ?_ fun x s' => habort x _ s')
    · exact fun h s' _ ht' _ => ht'
    · exact fun e s' ht' _ => ht'
  | free h => exact wp_bind.mpr (hU.tends_free ht fun s' ht' _ => ht')
  | read h offset n =>
    refine wp_bind.mpr (hU.tends_read ht ?_ ?_ fun x s' => habort x _ s')
    · exact fun data s' ht' _ => ht'
    · exact fun e s' ht' _ => ht'
  | write h offset data =>
    refine wp_bind.mpr (hU.tends_write ht ?_ ?_ fun x s' => habort x _ s')
    · exact fun s' ht' _ => ht'
    · exact fun e s' ht' _ => ht'

theorem tended_run {tr : List (Call × Outcome Err Value)} (hU : Upkeep net M Size Entry N)
    (ht : Tended M Size Entry N live s) (hsize : ∀ e ∈ tr, e.1.Sized Size)
    (hdone : ∀ e ∈ tr, Completed e.2) (hrun : CallRuns (rangedEnv net) s tr s') :
    Tended M Size Entry N (tr.foldl (fun live e => e.1.liveAfter live e.2) live) s' := by
  induction hrun generalizing live with
  | nil s => exact ht
  | cons hcall _ ih =>
    rw [List.forall_mem_cons] at hsize hdone
    have ht' := (wp_iff.mp (hU.tends_exec ht hsize.1)).2 _ _ hcall hdone.1
    exact ih ht' hsize.2 hdone.2

theorem tended_new {tr : List (Call × Outcome Err Value)} {w : ν} (hU : Upkeep net M Size Entry N)
    (hN : N [] w) (hsize : ∀ e ∈ tr, e.1.Sized Size) (hdone : ∀ e ∈ tr, Completed e.2)
    (hrun : CallRuns (rangedEnv net) (Client.new M, w) tr s) :
    Tended M Size Entry N (liveHandles tr) s := by
  have ht : Tended M Size Entry N ∅ (Client.new M, w) := ⟨.new M, rfl, hN⟩
  exact hU.tended_run ht hsize hdone hrun

end Upkeep

end MemInfo
