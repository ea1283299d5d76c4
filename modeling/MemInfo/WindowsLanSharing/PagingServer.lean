import Mathlib.Logic.Function.Basic
import MemInfo.Lib.Run
import MemInfo.Lib.Window
import MemInfo.WindowsLanSharing.PagingWireProtocol

/-! # The paging server

`handle_client` of `paging_server.cpp` runs once for every client, over one pool of memory. It takes
an address modulo the size of the pool, and copies up to 64 KiB from there. The clients then share a
memory as long as no range reaches over the end of the pool and no two addresses fall on the same
place of it.

Requests are served one at a time here, and every client keeps its `ClientContext`.
-/

namespace MemInfo.WindowsLanSharing

open Lib

/-- `POOL_SIZE`, 8 GiB. -/
def poolSize : ℕ := 8 * 1024 * 1024 * 1024

/-- The checks of `handle_client`. -/
structure PagingHeader.Accepted (hdr : PagingHeader) : Prop where
  magic : hdr.magic = pagingMagic
  pageCount_pos : 0 < hdr.pageCount.toNat
  pageCount_le : hdr.pageCount.toNat ≤ pagesPerCluster
  payloadLen : hdr.payloadLen.toNat = hdr.pageCount.toNat * pageSize
  opcode : hdr.opcode = PagingOpcode.readCluster.code ∨ hdr.opcode = PagingOpcode.writeDiff.code

inductive PoolEffect where
  | read (bytes : List Byte)
  | wrote (bytes : List Byte)
  -- a part of the range does not lie in the pool
  | outside
  deriving DecidableEq, Repr

def PoolEffect.response : PoolEffect → List Byte
  | .read bytes => bytes
  | _ => []

structure PoolAccess where
  address : UInt64
  pageCount : ℕ
  effect : PoolEffect
  deriving DecidableEq, Repr

/-- What one round of the loop of `handle_client` comes to, up to the access. -/
inductive PagingRound where
  -- it waits for the rest of a request
  | waits
  -- it breaks, and the socket is closed
  | leaves
  | request (hdr : PagingHeader) (payload rest : List Byte)

def pagingRound (input : List Byte) : PagingRound :=
  if input.length < pagingHeaderSize then .waits
  else
    let hdr := PagingHeader.ofBytes (input.take pagingHeaderSize)
    let rest := input.drop pagingHeaderSize
    if hdr.magic ≠ pagingMagic then .leaves
    else if hdr.pageCount.toNat = 0 ∨ pagesPerCluster < hdr.pageCount.toNat then .leaves
    else if hdr.payloadLen.toNat ≠ hdr.pageCount.toNat * pageSize then .leaves
    else if hdr.opcode = PagingOpcode.readCluster.code then .request hdr [] rest
    else if hdr.opcode = PagingOpcode.writeDiff.code then
      if rest.length < hdr.payloadLen.toNat then .waits
      else .request hdr (rest.take hdr.payloadLen.toNat) (rest.drop hdr.payloadLen.toNat)
    else .leaves

def accessPool (pool : ℕ → Byte) (hdr : PagingHeader) (payload : List Byte) :
    PoolEffect × (ℕ → Byte) :=
  let offset := hdr.address.toNat % poolSize
  let len := hdr.payloadLen.toNat
  if poolSize < offset + len then (.outside, pool)
  else if hdr.opcode = PagingOpcode.readCluster.code then (.read (window pool offset len), pool)
  else (.wrote payload, blit pool offset payload)

structure PagingConnection where
  active : Bool := true
  input : List Byte := []
  output : List Byte := []

/-- The answer to a request, if there is one. The loop ends if it cannot be sent. -/
def PagingConnection.answer (conn : PagingConnection) (rest : List Byte) (sent : Bool) :
    PoolEffect → PagingConnection
  | .read bytes =>
    if sent then { conn with input := rest, output := conn.output ++ bytes }
    else { conn with input := rest, active := false }
  | _ => { conn with input := rest }

structure PagingServer where
  -- `VirtualAlloc` gives zeros
  pool : ℕ → Byte := fun _ => 0
  clients : ℕ → PagingConnection := fun _ => {}
  /-- The accesses that were made, the latest one first. -/
  history : List PoolAccess := []
  /-- An access has left the pool, and nothing is known of what follows. -/
  undefined : Bool := false

inductive PagingEvent where
  | receives (client : ℕ) (bytes : List Byte)
  | disconnects (client : ℕ)
  | round (client : ℕ) (sent : Bool)
  deriving DecidableEq, Repr

namespace PagingServer

variable (s : PagingServer)

def setClient (client : ℕ) (conn : PagingConnection) : PagingServer :=
  { s with clients := Function.update s.clients client conn }

def serve (client : ℕ) (sent : Bool) (hdr : PagingHeader) (payload rest : List Byte) :
    PagingServer :=
  let (effect, pool) := accessPool s.pool hdr payload
  { pool
    clients := Function.update s.clients client ((s.clients client).answer rest sent effect)
    history := ⟨hdr.address, hdr.pageCount.toNat, effect⟩ :: s.history
    undefined := effect = .outside }

def step (e : PagingEvent) : Option PagingServer :=
  if s.undefined then none
  else
    match e with
    | .receives client bytes =>
      let conn := s.clients client
      some (s.setClient client { conn with input := conn.input ++ bytes })
    | .disconnects client => some (s.setClient client { s.clients client with active := false })
    | .round client sent =>
      let conn := s.clients client
      if !conn.active then none
      else
        match pagingRound conn.input with
        | .waits => some s
        | .leaves => some (s.setClient client { conn with active := false })
        | .request hdr payload rest => some (s.serve client sent hdr payload rest)

def run (events : List PagingEvent) : Option PagingServer := events.foldlM step s

end PagingServer

/-! ## The memory that the clients expect -/

def latest : List PoolAccess → ℕ → Byte
  | [] => fun _ => 0
  | a :: history =>
    match a.effect with
    | .wrote bytes => blit (latest history) a.address.toNat bytes
    | _ => latest history

/-- The access stays in the pool and returns what was last written. -/
def PoolAccess.Proper (a : PoolAccess) (history : List PoolAccess) : Prop :=
  match a.effect with
  | .read bytes => bytes = window (latest history) a.address.toNat (a.pageCount * pageSize)
  | .wrote _ => True
  | .outside => False

def IsMemory : List PoolAccess → Prop
  | [] => True
  | a :: history => a.Proper history ∧ IsMemory history

/-! ## Ranges -/

def InRange (address : UInt64) (pageCount a : ℕ) : Prop :=
  address.toNat ≤ a ∧ a < address.toNat + pageCount * pageSize

def Reaches (allowed : UInt64 → ℕ → Prop) (a : ℕ) : Prop :=
  ∃ address pageCount, allowed address pageCount ∧ pageCount ≤ pagesPerCluster ∧
    InRange address pageCount a

/-- The ranges lie in the pool, and it has a place of its own for each of their addresses. -/
structure Placed (allowed : UInt64 → ℕ → Prop) : Prop where
  inside : ∀ address pageCount, allowed address pageCount → 0 < pageCount →
    pageCount ≤ pagesPerCluster → address.toNat % poolSize + pageCount * pageSize ≤ poolSize
  apart : ∀ a a', Reaches allowed a → Reaches allowed a' → a % poolSize = a' % poolSize → a = a'

section Access

variable {pool : ℕ → Byte} {hdr : PagingHeader} {payload : List Byte} {input rest : List Byte}

theorem add_mod_poolSize {a j : ℕ} (h : a % poolSize + j < poolSize) :
    (a + j) % poolSize = a % poolSize + j := by
  rw [← Nat.mod_add_mod, Nat.mod_eq_of_lt h]

theorem accepted_of_pagingRound (h : pagingRound input = .request hdr payload rest) :
    hdr.Accepted ∧
      (hdr.opcode ≠ PagingOpcode.readCluster.code → payload.length = hdr.payloadLen.toNat) := by
  unfold pagingRound at h
  dsimp only at h
  split_ifs at h with hshort hmagic hcount hlen hread hwrite hwaits
  · cases h
    rw [not_or, Nat.not_lt] at hcount
    exact ⟨⟨not_not.1 hmagic, Nat.pos_of_ne_zero hcount.1, hcount.2, not_not.1 hlen, .inl hread⟩,
      fun hne => absurd hread hne⟩
  · cases h
    rw [not_or, Nat.not_lt] at hcount
    refine ⟨⟨not_not.1 hmagic, Nat.pos_of_ne_zero hcount.1, hcount.2, not_not.1 hlen,
      .inr hwrite⟩, fun _ => ?_⟩
    rw [List.length_take]
    omega

theorem pagingRound_request (h : hdr.Accepted)
    (hpayload : payload.length =
      if hdr.opcode = PagingOpcode.readCluster.code then 0 else hdr.payloadLen.toNat) :
    pagingRound (hdr.bytes ++ payload) = .request hdr payload [] := by
  have htake : (hdr.bytes ++ payload).take pagingHeaderSize = hdr.bytes :=
    List.take_left' hdr.length_bytes
  have hdrop : (hdr.bytes ++ payload).drop pagingHeaderSize = payload :=
    List.drop_left' hdr.length_bytes
  have hlong : ¬ (hdr.bytes ++ payload).length < pagingHeaderSize := by
    rw [List.length_append, hdr.length_bytes]
    omega
  have hcount : ¬ (hdr.pageCount.toNat = 0 ∨ pagesPerCluster < hdr.pageCount.toNat) := by
    have hpos := h.pageCount_pos
    have hle := h.pageCount_le
    omega
  unfold pagingRound
  rw [if_neg hlong, htake, hdrop, PagingHeader.ofBytes_bytes]
  dsimp only
  rw [if_neg (not_not.2 h.magic), if_neg hcount, if_neg (not_not.2 h.payloadLen)]
  split_ifs at hpayload ⊢ with hread hwrite hshort
  · rw [List.length_eq_zero_iff.1 hpayload]
  · omega
  · rw [← hpayload, List.take_length, List.drop_length]
  · exact absurd h.opcode (not_or.2 ⟨hread, hwrite⟩)

end Access

/-! ## A pool that is a memory -/

namespace PagingServer

variable {allowed : UInt64 → ℕ → Prop} {s s' : PagingServer}

/-- The pool has the latest bytes at the places of the addresses. -/
structure Agrees (allowed : UInt64 → ℕ → Prop) (s : PagingServer) : Prop where
  isMemory : IsMemory s.history
  pool : ∀ a, Reaches allowed a → s.pool (a % poolSize) = latest s.history a

theorem agrees_start (allowed : UInt64 → ℕ → Prop) : Agrees allowed {} :=
  ⟨trivial, fun _ _ => rfl⟩

theorem Agrees.window_eq (h : s.Agrees allowed) (hplaced : Placed allowed) {address : UInt64}
    {pageCount : ℕ} (hallowed : allowed address pageCount) (hpos : 0 < pageCount)
    (hle : pageCount ≤ pagesPerCluster) :
    window s.pool (address.toNat % poolSize) (pageCount * pageSize) =
      window (latest s.history) address.toNat (pageCount * pageSize) := by
  have hinside := hplaced.inside _ _ hallowed hpos hle
  apply List.map_congr_left
  intro j hj
  have hj := List.mem_range.1 hj
  rw [← add_mod_poolSize (by omega)]
  apply h.pool
  exact ⟨address, pageCount, hallowed, hle, Nat.le_add_right .., Nat.add_lt_add_left hj _⟩

theorem Agrees.serve (h : s.Agrees allowed) (hplaced : Placed allowed) {client : ℕ} {sent : Bool}
    {hdr : PagingHeader} {payload rest : List Byte} (haccepted : hdr.Accepted)
    (hpayload : hdr.opcode ≠ PagingOpcode.readCluster.code →
      payload.length = hdr.payloadLen.toNat)
    (hallowed : allowed hdr.address hdr.pageCount.toNat) :
    (s.serve client sent hdr payload rest).Agrees allowed := by
  have hinside := hplaced.inside _ _ hallowed haccepted.pageCount_pos haccepted.pageCount_le
  have hreaches (j : ℕ) (hj : j < hdr.pageCount.toNat * pageSize) :
      Reaches allowed (hdr.address.toNat + j) :=
    ⟨hdr.address, _, hallowed, haccepted.pageCount_le, Nat.le_add_right .., by omega⟩
  have hplace (j : ℕ) (hj : j < hdr.pageCount.toNat * pageSize) :
      (hdr.address.toNat + j) % poolSize = hdr.address.toNat % poolSize + j :=
    add_mod_poolSize (by omega)
  unfold PagingServer.serve accessPool
  dsimp only
  rw [haccepted.payloadLen, if_neg (Nat.not_lt.2 hinside)]
  split_ifs with hread
  · exact ⟨⟨h.window_eq hplaced hallowed haccepted.pageCount_pos haccepted.pageCount_le,
      h.isMemory⟩, h.pool⟩
  · have hlength := hpayload hread
    rw [haccepted.payloadLen] at hlength
    refine ⟨⟨trivial, h.isMemory⟩, fun a ha => ?_⟩
    change blit s.pool _ payload (a % poolSize) = blit (latest s.history) _ payload a
    by_cases hin : InRange hdr.address hdr.pageCount.toNat a
    · obtain ⟨j, rfl⟩ := Nat.exists_eq_add_of_le hin.1
      have hj : j < hdr.pageCount.toNat * pageSize := Nat.lt_of_add_lt_add_left hin.2
      rw [hplace j hj, blit_inside (hlength.symm ▸ hj), blit_inside (hlength.symm ▸ hj)]
    · -- another address of the range would have the same place
      have hout : a % poolSize < hdr.address.toNat % poolSize ∨
          hdr.address.toNat % poolSize + payload.length ≤ a % poolSize := by
        by_contra hbetween
        rw [not_or, Nat.not_lt, Nat.not_le] at hbetween
        obtain ⟨j, hj⟩ := Nat.exists_eq_add_of_le hbetween.1
        have hlt : j < hdr.pageCount.toNat * pageSize := by omega
        apply hin
        rw [hplaced.apart a _ ha (hreaches j hlt) (hj.trans (hplace j hlt).symm)]
        exact ⟨Nat.le_add_right .., Nat.add_lt_add_left hlt _⟩
      have hout' : a < hdr.address.toNat ∨ hdr.address.toNat + payload.length ≤ a := by
        rw [InRange] at hin
        omega
      rw [blit_outside hout, blit_outside hout']
      exact h.pool a ha

theorem step_cases {e : PagingEvent} (hstep : s.step e = some s') :
    (s'.pool = s.pool ∧ s'.history = s.history) ∨
      ∃ client sent hdr payload rest, s' = s.serve client sent hdr payload rest ∧
        hdr.Accepted ∧ (hdr.opcode ≠ PagingOpcode.readCluster.code →
          payload.length = hdr.payloadLen.toNat) := by
  unfold step at hstep
  split_ifs at hstep
  cases e with
  | receives client bytes =>
    cases hstep
    exact .inl ⟨rfl, rfl⟩
  | disconnects client =>
    cases hstep
    exact .inl ⟨rfl, rfl⟩
  | round client sent =>
    dsimp only at hstep
    split_ifs at hstep
    split at hstep
    · cases hstep
      exact .inl ⟨rfl, rfl⟩
    · cases hstep
      exact .inl ⟨rfl, rfl⟩
    next hdr payload rest hround =>
      cases hstep
      exact .inr ⟨client, sent, hdr, payload, rest, rfl, accepted_of_pagingRound hround⟩

theorem history_suffix_step {e : PagingEvent} (hstep : s.step e = some s') :
    s.history <:+ s'.history := by
  rcases step_cases hstep with ⟨-, heq⟩ | ⟨client, sent, hdr, payload, rest, rfl, -⟩
  · exact ⟨[], heq.symm⟩
  · exact List.suffix_cons ..

def Within (allowed : UInt64 → ℕ → Prop) (s : PagingServer) : Prop :=
  ∀ a ∈ s.history, allowed a.address a.pageCount

theorem Agrees.step (h : s.Agrees allowed) (hplaced : Placed allowed) {e : PagingEvent}
    (hstep : s.step e = some s') (hwithin : s'.Within allowed) : s'.Agrees allowed := by
  rcases step_cases hstep with
    ⟨hpool, hhistory⟩ | ⟨client, sent, hdr, payload, rest, rfl, haccepted, hpayload⟩
  · constructor
    · rw [hhistory]
      exact h.isMemory
    · rw [hpool, hhistory]
      exact h.pool
  · exact h.serve hplaced haccepted hpayload (hwithin _ List.mem_cons_self)

theorem Agrees.run (h : s.Agrees allowed) (hplaced : Placed allowed)
    {events : List PagingEvent} (hrun : run s events = some s') (hwithin : s'.Within allowed) :
    s'.Agrees allowed := by
  -- the history only grows, so that all states on the way keep to the ranges too
  have hinv : s'.Within allowed → s'.Agrees allowed := by
    apply foldlM_invariant (I := fun s => s.Within allowed → s.Agrees allowed) _ (fun _ => h) hrun
    intro u e v hu hstep hv
    have hbefore : u.Within allowed := fun a ha => hv a ((history_suffix_step hstep).subset ha)
    exact (hu hbefore).step hplaced hstep hv
  exact hinv hwithin

/-! ## Requests that are served -/

def request (client : ℕ) (hdr : PagingHeader) (payload : List Byte) : List PagingEvent :=
  [.receives client (hdr.bytes ++ payload), .round client true]

structure Idle (client : ℕ) (s : PagingServer) : Prop where
  defined : s.undefined = false
  active : (s.clients client).active = true
  input : (s.clients client).input = []

theorem idle_start (client : ℕ) : Idle client {} := ⟨rfl, rfl, rfl⟩

structure Served (client : ℕ) (hdr : PagingHeader) (payload : List Byte) (s s' : PagingServer) :
    Prop where
  pool : s'.pool = (accessPool s.pool hdr payload).2
  history : s'.history =
    ⟨hdr.address, hdr.pageCount.toNat, (accessPool s.pool hdr payload).1⟩ :: s.history
  output : (s'.clients client).output =
    (s.clients client).output ++ (accessPool s.pool hdr payload).1.response
  others : ∀ other, other ≠ client → s'.clients other = s.clients other
  idle : (accessPool s.pool hdr payload).1 ≠ .outside → ∀ other, s.Idle other → s'.Idle other

theorem served_serve {client : ℕ} {hdr : PagingHeader} {payload input : List Byte}
    (hidle : s.Idle client) :
    Served client hdr payload s ((s.setClient client
      { s.clients client with input }).serve client true hdr payload []) := by
  let received := s.setClient client { s.clients client with input }
  have hconn : received.clients client = { s.clients client with input } :=
    Function.update_self ..
  have hclient : (received.serve client true hdr payload []).clients client =
      (received.clients client).answer [] true (accessPool s.pool hdr payload).1 :=
    Function.update_self ..
  have hothers (other : ℕ) (hne : other ≠ client) :
      (received.serve client true hdr payload []).clients other = s.clients other :=
    (Function.update_of_ne hne ..).trans (Function.update_of_ne hne ..)
  refine ⟨rfl, rfl, ?_, hothers, fun hinside other hother => ⟨decide_eq_false hinside, ?_, ?_⟩⟩
  · rw [hclient, hconn]
    cases (accessPool s.pool hdr payload).1 with
    | read bytes => rfl
    | wrote bytes => exact (List.append_nil _).symm
    | outside => exact (List.append_nil _).symm
  · by_cases heq : other = client
    · rw [heq, hclient, hconn]
      cases (accessPool s.pool hdr payload).1 <;> exact hidle.active
    · rw [hothers other heq]
      exact hother.active
  · by_cases heq : other = client
    · rw [heq, hclient]
      cases (accessPool s.pool hdr payload).1 <;> rfl
    · rw [hothers other heq]
      exact hother.input

theorem run_request {client : ℕ} {hdr : PagingHeader} (payload : List Byte)
    (hidle : s.Idle client) (haccepted : hdr.Accepted) (hpayload : payload.length =
      if hdr.opcode = PagingOpcode.readCluster.code then 0 else hdr.payloadLen.toNat) :
    ∃ s', run s (request client hdr payload) = some s' ∧ Served client hdr payload s s' := by
  let received := s.setClient client
    { s.clients client with input := (s.clients client).input ++ (hdr.bytes ++ payload) }
  have hconn : received.clients client =
      { s.clients client with input := (s.clients client).input ++ (hdr.bytes ++ payload) } :=
    Function.update_self ..
  have hinput : (received.clients client).input = hdr.bytes ++ payload := by
    rw [hconn, hidle.input, List.nil_append]
  have hactive : (received.clients client).active = true := by
    rw [hconn]
    exact hidle.active
  have hreceives : s.step (.receives client (hdr.bytes ++ payload)) = some received := by
    rw [step, hidle.defined]
    rfl
  have hround : received.step (.round client true) =
      some (received.serve client true hdr payload []) := by
    have hdefined : received.undefined = false := hidle.defined
    rw [step, hdefined]
    dsimp only
    rw [hactive, hinput, pagingRound_request haccepted hpayload]
    rfl
  refine ⟨received.serve client true hdr payload [], ?_, served_serve hidle⟩
  rw [run, request, foldlM_cons_of_some hreceives, foldlM_cons_of_some hround]
  rfl

end PagingServer

def requestHeader (opcode : PagingOpcode) (address : UInt64) (pageCount : ℕ) : PagingHeader :=
  pagingHeader opcode address (.ofNat pageCount) (.ofNat (pageCount * pageSize))

section RequestHeader

variable {opcode : PagingOpcode} {address : UInt64} {pageCount : ℕ} {pool : ℕ → Byte}
  {payload : List Byte}

theorem toNat_pageCount (h : pageCount ≤ pagesPerCluster) :
    (requestHeader opcode address pageCount).pageCount.toNat = pageCount := by
  have hcluster : pagesPerCluster = 16 := rfl
  apply UInt32.toNat_ofNat_of_lt'
  change _ < 2 ^ 32
  omega

theorem toNat_payloadLen (h : pageCount ≤ pagesPerCluster) :
    (requestHeader opcode address pageCount).payloadLen.toNat = pageCount * pageSize := by
  have hcluster : pagesPerCluster = 16 := rfl
  apply UInt32.toNat_ofNat_of_lt'
  change _ * 4096 < 2 ^ 32
  omega

theorem accepted_requestHeader (opcode : PagingOpcode) (address : UInt64) (hpos : 0 < pageCount)
    (hle : pageCount ≤ pagesPerCluster) : (requestHeader opcode address pageCount).Accepted where
  magic := rfl
  pageCount_pos := by rwa [toNat_pageCount hle]
  pageCount_le := by rwa [toNat_pageCount hle]
  payloadLen := by rw [toNat_pageCount hle, toNat_payloadLen hle]
  opcode := by
    cases opcode
    · exact .inl rfl
    · exact .inr rfl

theorem accessPool_outside (hle : pageCount ≤ pagesPerCluster)
    (hout : poolSize < address.toNat % poolSize + pageCount * pageSize) :
    accessPool pool (requestHeader opcode address pageCount) payload = (.outside, pool) := by
  rw [accessPool, toNat_payloadLen hle]
  exact if_pos hout

theorem accessPool_read (hle : pageCount ≤ pagesPerCluster)
    (hin : address.toNat % poolSize + pageCount * pageSize ≤ poolSize) :
    accessPool pool (requestHeader .readCluster address pageCount) payload =
      (.read (window pool (address.toNat % poolSize) (pageCount * pageSize)), pool) := by
  rw [accessPool, toNat_payloadLen hle]
  exact if_neg (Nat.not_lt.2 hin)

theorem accessPool_write (hle : pageCount ≤ pagesPerCluster)
    (hin : address.toNat % poolSize + pageCount * pageSize ≤ poolSize) :
    accessPool pool (requestHeader .writeDiff address pageCount) payload =
      (.wrote payload, blit pool (address.toNat % poolSize) payload) := by
  rw [accessPool, toNat_payloadLen hle]
  exact if_neg (Nat.not_lt.2 hin)

end RequestHeader

namespace PagingServer

variable {allowed : UInt64 → ℕ → Prop} {address address' : UInt64} {pageCount pageCount' : ℕ}

theorem run_outside (client : ℕ) (hpos : 0 < pageCount) (hle : pageCount ≤ pagesPerCluster)
    (hout : poolSize < address.toNat % poolSize + pageCount * pageSize) :
    ∃ s, run {} (request client (requestHeader .readCluster address pageCount) []) = some s ∧
      s.history = [⟨address, pageCount, .outside⟩] := by
  obtain ⟨s, hrun, hserved⟩ := run_request [] (idle_start client)
    (accepted_requestHeader .readCluster address hpos hle) rfl
  have hhistory := hserved.history
  rw [accessPool_outside hle hout, toNat_pageCount hle] at hhistory
  exact ⟨s, hrun, hhistory⟩

def writeRead (client : ℕ) (address : UInt64) (pageCount : ℕ) (payload : List Byte)
    (address' : UInt64) (pageCount' : ℕ) : List PagingEvent :=
  request client (requestHeader .writeDiff address pageCount) payload ++
    request client (requestHeader .readCluster address' pageCount') []

theorem run_writeRead (client : ℕ) {payload : List Byte} (hpos : 0 < pageCount)
    (hle : pageCount ≤ pagesPerCluster)
    (hin : address.toNat % poolSize + pageCount * pageSize ≤ poolSize) (hpos' : 0 < pageCount')
    (hle' : pageCount' ≤ pagesPerCluster)
    (hin' : address'.toNat % poolSize + pageCount' * pageSize ≤ poolSize)
    (hpayload : payload.length = pageCount * pageSize) :
    ∃ s, run {} (writeRead client address pageCount payload address' pageCount') = some s ∧
      s.history =
        [⟨address', pageCount', .read (window (blit (fun _ => 0) (address.toNat % poolSize) payload)
            (address'.toNat % poolSize) (pageCount' * pageSize))⟩,
          ⟨address, pageCount, .wrote payload⟩] := by
  obtain ⟨s, hrun, hserved⟩ := run_request payload (idle_start client)
    (accepted_requestHeader .writeDiff address hpos hle)
    (hpayload.trans (toNat_payloadLen hle).symm)
  obtain ⟨hpool, hhistory, -, -, hidle⟩ := hserved
  rw [accessPool_write hle hin] at hpool hhistory hidle
  obtain ⟨s', hrun', hserved'⟩ := run_request []
    (hidle PoolEffect.noConfusion client (idle_start client))
    (accepted_requestHeader .readCluster address' hpos' hle') rfl
  have hhistory' := hserved'.history
  rw [accessPool_read hle' hin', toNat_pageCount hle', hhistory, hpool,
    toNat_pageCount hle] at hhistory'
  exact ⟨s', (foldlM_append_of_some hrun).trans hrun', hhistory'⟩

theorem not_isMemory_of_same_place {a a' : ℕ} (hle : pageCount ≤ pagesPerCluster)
    (hin : address.toNat % poolSize + pageCount * pageSize ≤ poolSize)
    (hin' : address'.toNat % poolSize + pageCount' * pageSize ≤ poolSize)
    (ha : InRange address pageCount a) (ha' : InRange address' pageCount' a')
    (hplace : a % poolSize = a' % poolSize) (hne : a ≠ a') :
    ¬ IsMemory
      [⟨address', pageCount', .read (window (blit (fun _ => 0) (address.toNat % poolSize)
          (List.replicate (pageCount * pageSize) 1)) (address'.toNat % poolSize)
          (pageCount' * pageSize))⟩,
        ⟨address, pageCount, .wrote (List.replicate (pageCount * pageSize) 1)⟩] := by
  rintro ⟨hread, -⟩
  obtain ⟨j, rfl⟩ := Nat.exists_eq_add_of_le ha.1
  obtain ⟨j', rfl⟩ := Nat.exists_eq_add_of_le ha'.1
  have hj : j < pageCount * pageSize := Nat.lt_of_add_lt_add_left ha.2
  have hj' : j' < pageCount' * pageSize := Nat.lt_of_add_lt_add_left ha'.2
  rw [add_mod_poolSize (by omega), add_mod_poolSize (by omega)] at hplace
  have hcell := List.map_inj_left.1 hread j' (List.mem_range.2 hj')
  -- the second address is a multiple of the pool away from the range that was written
  have hfar : address'.toNat + j' < address.toNat ∨
      address.toNat + (List.replicate (pageCount * pageSize) (1 : Byte)).length ≤
        address'.toNat + j' := by
    have hcluster := mul_pageSize_le hle
    rw [List.length_replicate]
    unfold poolSize at *
    unfold clusterSize at hcluster
    omega
  rw [← hplace, blit_inside (by rwa [List.length_replicate]), List.getElem_replicate] at hcell
  have hzero : latest [⟨address, pageCount, .wrote (List.replicate (pageCount * pageSize) 1)⟩]
      (address'.toNat + j') = 0 :=
    blit_outside hfar
  rw [hzero] at hcell
  exact absurd hcell (by decide)

/-- The server is a memory for all clients that keep to certain ranges, exactly if these lie in the
pool and no two of their addresses have the same place in it. -/
theorem serves_memory_iff (allowed : UInt64 → ℕ → Prop) :
    (∀ events s, run {} events = some s → s.Within allowed → IsMemory s.history) ↔
      Placed allowed := by
  constructor
  · intro hmemory
    have hinside : ∀ address pageCount, allowed address pageCount → 0 < pageCount →
        pageCount ≤ pagesPerCluster →
          address.toNat % poolSize + pageCount * pageSize ≤ poolSize := by
      intro address pageCount hallowed hpos hle
      by_contra hout
      obtain ⟨s, hrun, hhistory⟩ := run_outside 0 hpos hle (Nat.not_le.1 hout)
      have hwithin : s.Within allowed := by
        rw [Within, hhistory]
        exact List.forall_mem_singleton.2 hallowed
      have hproper := hmemory _ s hrun hwithin
      rw [hhistory] at hproper
      exact hproper.1
    refine ⟨hinside, ?_⟩
    rintro a a' ⟨address, pageCount, hallowed, hle, ha⟩ ⟨address', pageCount', hallowed', hle', ha'⟩
      hplace
    by_contra hne
    have hpos : 0 < pageCount := Nat.pos_of_ne_zero fun h => by
      rw [h, InRange] at ha
      omega
    have hpos' : 0 < pageCount' := Nat.pos_of_ne_zero fun h => by
      rw [h, InRange] at ha'
      omega
    have hin := hinside address pageCount hallowed hpos hle
    have hin' := hinside address' pageCount' hallowed' hpos' hle'
    obtain ⟨s, hrun, hhistory⟩ := run_writeRead 0 hpos hle hin hpos' hle' hin'
      (List.length_replicate (a := 1))
    have hwithin : s.Within allowed := by
      rw [Within, hhistory, List.forall_mem_cons, List.forall_mem_singleton]
      exact ⟨hallowed', hallowed⟩
    have hproper := hmemory _ s hrun hwithin
    rw [hhistory] at hproper
    exact not_isMemory_of_same_place hle hin hin' ha ha' hplace hne hproper
  · intro hplaced events s hrun hwithin
    exact ((agrees_start allowed).run hplaced hrun hwithin).isMemory

/-- A cluster that starts in the last page of the pool is read over its end, and a page that has
been written at the address 0 is read at the address 2^33. -/
theorem pool_is_no_memory :
    (∃ s, run {} (request 0 (requestHeader .readCluster 0x1FFFFF000 16) []) = some s ∧
      s.history = [⟨0x1FFFFF000, 16, .outside⟩]) ∧
    ∃ s, run {} (writeRead 0 0 1 (List.replicate (1 * pageSize) 1) 0x200000000 1) = some s ∧
      ¬ IsMemory s.history := by
  constructor
  · exact run_outside 0 (by decide) (by decide) (by decide)
  · have hle : 1 ≤ pagesPerCluster := by decide
    have hin : (0 : UInt64).toNat % poolSize + 1 * pageSize ≤ poolSize := by decide
    have hin' : (0x200000000 : UInt64).toNat % poolSize + 1 * pageSize ≤ poolSize := by decide
    have hzero : InRange 0 1 0 := ⟨by decide, by decide⟩
    have hwrapped : InRange 0x200000000 1 0x200000000 := ⟨by decide, by decide⟩
    obtain ⟨s, hrun, hhistory⟩ := run_writeRead 0 Nat.one_pos hle hin Nat.one_pos hle hin'
      (List.length_replicate (a := 1))
    refine ⟨s, hrun, ?_⟩
    rw [hhistory]
    exact not_isMemory_of_same_place hle hin hin' hzero hwrapped (by decide) (by decide)

end PagingServer

end MemInfo.WindowsLanSharing
