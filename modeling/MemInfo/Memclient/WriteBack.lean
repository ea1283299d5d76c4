import MemInfo.Memclient.Footprint

/-! # Write-back

What the client can tell about the WRITE requests it sent: `write_remote` passes on a
timeout, but looks neither at the status of an answer nor at its absence.
-/

namespace MemInfo

open Lib Prog

namespace MemoryClient

/-- A WRITE request of at least one byte, with the 64-bit fields of the wire format. -/
def Sendable (req : MemoryRequest) : Prop :=
  ∃ remoteHandle offset data requestId,
    req = writeRequest remoteHandle offset data requestId ∧
    data ≠ [] ∧ offset + data.length < 2 ^ 64 ∧ requestId < 2 ^ 64

/-- The peer answered, with `StatusCode_OK`. -/
def IsOk : CallResult → Prop
  | .response r => r.status = .ok
  | .empty => False
  | .timeout => False

/-- Every WRITE request in the log was answered with `StatusCode_OK`. -/
def Acknowledged (log : Log) : Prop :=
  ∀ p req r, ⟨.net (.call p req), r⟩ ∈ log → Sendable req → IsOk r

def untilEviction (log : Log) : Log := log.takeWhile fun e => e.1 ≠ .mem .cacheEvictOne

/-- After each eviction, up to the next one, the block is put back into the cache or all
WRITE requests are answered with `StatusCode_OK`. -/
def NoBlockLost (log : Log) : Prop :=
  ∀ evicted post, ⟨.mem .cacheEvictOne, some evicted⟩ :: post <:+ log →
    ⟨.mem (.cachePut evicted.handle evicted.data evicted.dirty), true⟩ ∉ untilEviction post →
      Acknowledged (untilEviction post)

variable {ν : Type}

/-- Against these peers no bytes are lost silently on their way to a peer, whatever the
state of the client. That no cached block is larger than the cache is what `put` checks. -/
structure NoSilentLoss (net : (o : NetOp) → ν → o.Res → ν → Prop) : Prop where
  write : ∀ c w handle offset data alloc s log,
    Runs (logged (clientEnv net)) (write handle offset data) ((c, w), []) (.ok ()) (s, log) →
    c.cache.Sized → c.cache.find handle = none →
    c.remoteHandles.lookup handle = some alloc → Acknowledged log
  evict : ∀ c w sizeNeeded out s log,
    Runs (logged (clientEnv net)) (evictIfNeeded sizeNeeded) ((c, w), []) out (s, log) →
    c.cache.Sized → NoBlockLost log

section Confinement

def Plain : Effect → Prop
  | .mem .cacheEvictOne => False
  | .net (.call _ req) => req.op ≠ .write
  | _ => True

variable {A : Abort → Prop}

theorem plain_background : Background Plain :=
  ⟨trivial, fun o ho => by
    cases o with
    | call p req => exact absurd rfl (ho p req)
    | _ => trivial⟩

theorem plain_freeRemote (alloc : RemoteAllocation) : Confined Plain A (freeRemote alloc) :=
  confined_freeRemote plain_background fun _ _ _ => nofun

theorem plain_allocateRemote (handle size : ℕ) :
    Confined Plain A (allocateRemote handle size) :=
  confined_allocateRemote plain_background (fun _ _ _ => nofun) (fun _ _ => nofun)
    (fun _ _ => trivial) handle size

theorem plain_requirePeer (alloc : RemoteAllocation) : Confined Plain A (requirePeer alloc) := by
  rw [← bind_pure (requirePeer alloc)]
  exact confined_requirePeer plain_background fun _ _ => trivial

theorem plain_readRemote (alloc : RemoteAllocation) (offset size : ℕ) (rel : Bool) :
    Confined Plain (fun _ => True) (readRemote alloc offset size rel) :=
  confined_readRemote plain_background (fun _ _ _ _ _ _ => nofun) (fun _ _ _ _ => nofun) offset

def Quiet (o : Effect) : Prop := o ≠ .mem .cacheEvictOne

theorem Plain.quiet {o : Effect} (h : Plain o) : Quiet o := by
  rintro rfl
  exact h

theorem quiet_writeRemote (alloc : RemoteAllocation) (offset : ℕ) (data : List Byte) :
    Confined Quiet (fun _ => True) (writeRemote alloc offset data) :=
  confined_writeRemote ⟨nofun, fun _ _ => nofun⟩ (fun _ _ _ _ _ _ => nofun) offset

end Confinement

/-- The answers if no WRITE request fails unnoticed, for a cache of `maxBytes`. -/
def Answers (maxBytes : ℕ) : (o : Effect) → o.Res → Prop
  | .mem .cacheEvictOne, r => ∀ evicted ∈ r, evicted.data.length ≤ maxBytes
  | .mem (.cachePut _ data _), r => data.length ≤ maxBytes → r = true
  | .net (.call _ req), r => Sendable req → r = .timeout ∨ IsOk r
  | _, _ => True

section Reliable

variable {α β : Type} {maxBytes : ℕ} {p : ClientM α} {f : α → ClientM β} {tr tr₁ tr₂ : Log}
  {out : Outcome Err α}

def Reliable (maxBytes : ℕ) (p : ClientM α) : Prop :=
  ∀ out tr, Emits (Answers maxBytes) p out tr → (∀ e, out ≠ .threw e) → Acknowledged tr

theorem Acknowledged.append (h₁ : Acknowledged tr₁) (h₂ : Acknowledged tr₂) :
    Acknowledged (tr₁ ++ tr₂) := fun p req r hm hs =>
  (List.mem_append.mp hm).elim (fun hm => h₁ p req r hm hs) fun hm => h₂ p req r hm hs

theorem acknowledged_of_plain (h : ∀ e ∈ tr, Plain e.1) : Acknowledged tr := by
  rintro p req r hm ⟨_, _, _, _, rfl, -⟩
  exact absurd rfl (h _ hm)

theorem Acknowledged.mem_cons {o : MemOp} {r : o.Res} (h : Acknowledged tr) :
    Acknowledged (⟨.mem o, r⟩ :: tr) := by
  rintro p req r' (- | ⟨-, hm⟩) hs
  exact h p req r' hm hs

theorem Confined.reliable {A : Abort → Prop} (h : Confined Plain A p) : Reliable maxBytes p :=
  fun _ _ he _ => acknowledged_of_plain (he.effects h)

theorem Reliable.bind (hp : Reliable maxBytes p) (hf : ∀ a, Reliable maxBytes (f a)) :
    Reliable maxBytes (p >>= f) := by
  intro out tr he hout
  obtain ⟨a, tr₁, tr₂, h₁, h₂, rfl⟩ | ⟨e, -, rfl⟩ | ⟨x, h₁, rfl⟩ := emits_bind he
  · exact .append (hp _ _ h₁ nofun) (hf a _ _ h₂ hout)
  · exact absurd rfl (hout e)
  · exact hp _ _ h₁ nofun

theorem Reliable.tryCatch {h : Err → ClientM α} (hp : Reliable maxBytes p)
    (hh : ∀ e out tr, Emits (Answers maxBytes) (h e) out tr → ∃ e', out = .threw e') :
    Reliable maxBytes (tryCatch p h) := by
  intro out tr he hout
  obtain ⟨e, tr₁, tr₂, -, h₂, rfl⟩ | ⟨h₁, -⟩ := emits_tryCatch he
  · obtain ⟨e', rfl⟩ := hh e _ _ h₂
    exact absurd rfl (hout e')
  · exact hp _ _ h₁ hout

theorem reliable_syncRemoteCall (p : ℕ) (request : ℕ → MemoryRequest) :
    Reliable maxBytes (syncRemoteCall p request) := by
  rintro out tr ⟨id, tr', -, ⟨r, tr'', ha, hr, rfl⟩, rfl⟩ hout
  have htimeout : r ≠ .timeout := by
    rintro rfl
    exact hout _ hr.1
  have htr : tr'' = [] := by cases r <;> exact hr.2
  rintro p' req r' hm hs
  simp only [htr, List.mem_cons, List.not_mem_nil, or_false, Sigma.mk.injEq, reduceCtorEq,
    false_and, false_or, Effect.net.injEq, NetOp.call.injEq] at hm
  obtain ⟨⟨rfl, rfl⟩, hr'⟩ := hm
  obtain rfl := eq_of_heq hr'
  exact (ha hs).resolve_left htimeout

theorem reliable_store (p remoteHandle offset : ℕ) (data : List Byte) :
    Reliable maxBytes (store p remoteHandle offset data) :=
  .bind (reliable_syncRemoteCall p _) fun _ => Confined.reliable (A := fun _ => False) trivial

theorem reliable_writePass (offset : ℕ) (data : List Byte) (stripes : List Stripe)
    (dataOffset : ℕ) : Reliable maxBytes (writePass offset data stripes dataOffset) := by
  induction stripes generalizing dataOffset with
  | nil => exact Confined.reliable (A := fun _ => False) trivial
  | cons stripe stripes ih =>
    unfold writePass
    split_ifs
    · exact Confined.reliable (A := fun _ => False) trivial
    · exact .bind (.tryCatch (reliable_store _ _ _ _) fun e _ _ he => ⟨_, he.1⟩) fun _ => ih _
    · exact ih _

theorem reliable_writeRemote (alloc : RemoteAllocation) (offset : ℕ) (data : List Byte) :
    Reliable maxBytes (writeRemote alloc offset data) := by
  unfold writeRemote
  split_ifs
  · generalize data.length + 1 = passes, 0 = dataOffset
    induction passes generalizing dataOffset with
    | zero => exact Confined.reliable (A := fun _ => True) trivial
    | succ passes ih =>
      unfold writePasses
      split_ifs
      · exact .bind (reliable_writePass _ _ _ _) fun _ => ih _
      · exact Confined.reliable (A := fun _ => False) trivial
  · exact .bind (Confined.reliable (A := fun _ => False) (plain_requirePeer alloc)) fun _ =>
      reliable_store _ _ _ _

theorem emits_dropReservation {handle : ℕ} {out : Outcome Err Unit}
    (he : Emits (Answers maxBytes) (dropReservation handle) out tr) :
    out = .ok () ∧ ∀ e ∈ tr, Plain e.1 := by
  have hc : Confined Plain (fun _ => False) (dropReservation handle) := by
    refine .bind (confined_perform trivial) fun r => ?_
    cases r with
    | none => trivial
    | some orphan => exact .tryCatch (plain_freeRemote orphan) fun _ => trivial
  refine ⟨?_, he.effects hc⟩
  obtain ⟨r, tr', -, he', rfl⟩ := he
  cases r with
  | none => exact he'.1
  | some orphan =>
    obtain ⟨e, tr₁, tr₂, -, h₂, -⟩ | ⟨h₁, hne⟩ := emits_tryCatch he'
    · exact h₂.1
    · cases out with
      | ok a => rfl
      | threw e => exact absurd rfl (hne e)
      | aborted x => exact False.elim (h₁.abort (A := fun _ => False) (plain_freeRemote orphan))

theorem emits_rollback {evicted : CacheBlock} {e : Err} {out : Outcome Err Unit}
    (hlen : evicted.data.length ≤ maxBytes)
    (he : Emits (Answers maxBytes) (rollback evicted e) out tr) :
    out = .threw e ∧ ⟨.mem (.cachePut evicted.handle evicted.data evicted.dirty), true⟩ ∈ tr := by
  obtain ⟨a, tr₁, tr₂, -, ⟨r, tr', hr, ⟨rfl, rfl⟩, rfl⟩, rfl⟩ | ⟨e', h₁, -⟩ | ⟨x, h₁, -⟩ :=
    emits_bind he
  · obtain rfl := hr hlen
    exact ⟨rfl, by simp⟩
  · cases (emits_dropReservation h₁).1
  · cases (emits_dropReservation h₁).1

section Eviction

variable {evicted : CacheBlock} {out : Outcome Err Unit}

theorem quiet_pushOut (evicted : CacheBlock) :
    Confined Quiet (fun _ => True) (pushOut evicted) := by
  have hplain {β : Type} {q : ClientM β} (h : Confined Plain (fun _ => True) q) :
      Confined Quiet (fun _ => True) q := h.mono (fun _ => Plain.quiet) fun _ => id
  refine .tryCatch (.bind (hplain (plain_allocateRemote _ _)) fun _ =>
    .bind (confined_perform nofun) fun r => ?_) fun e => .bind (hplain ?_) fun _ =>
      .bind (confined_perform nofun) fun _ => trivial
  · cases r with
    | none => trivial
    | some alloc => exact quiet_writeRemote _ _ _
  · refine .bind (confined_perform trivial) fun r => ?_
    cases r with
    | none => trivial
    | some orphan => exact .tryCatch (plain_freeRemote orphan) fun _ => trivial

theorem reliable_pushOut (hlen : evicted.data.length ≤ maxBytes) :
    Reliable maxBytes (pushOut evicted) := by
  refine .tryCatch (.bind ?_ fun _ => .bind ?_ fun r => ?_) fun e out tr he =>
    ⟨e, (emits_rollback hlen he).1⟩
  · exact Confined.reliable (A := fun _ => True) (plain_allocateRemote _ _)
  · exact Confined.reliable (A := fun _ => True) (confined_perform trivial)
  · cases r with
    | none => exact Confined.reliable (A := fun _ => True) trivial
    | some alloc => exact reliable_writeRemote _ _ _

theorem emits_pushOut_threw {e : Err} (hlen : evicted.data.length ≤ maxBytes)
    (he : Emits (Answers maxBytes) (pushOut evicted) (.threw e) tr) :
    ⟨.mem (.cachePut evicted.handle evicted.data evicted.dirty), true⟩ ∈ tr := by
  obtain ⟨e', tr₁, tr₂, -, h₂, rfl⟩ | ⟨-, hne⟩ := emits_tryCatch he
  · exact List.mem_append_right _ (emits_rollback hlen h₂).2
  · exact absurd rfl (hne e)

theorem untilEviction_append (h : ∀ e ∈ tr₁, Quiet e.1) (tr₂ : Log) :
    untilEviction (tr₁ ++ tr₂) = tr₁ ++ untilEviction tr₂ :=
  List.takeWhile_append_of_pos fun e he => by simpa [Quiet] using h e he

theorem untilEviction_quiet (h : ∀ e ∈ tr, Quiet e.1) : untilEviction tr = tr := by
  simpa [untilEviction] using untilEviction_append h []

theorem NoBlockLost.append (h₁ : ∀ e ∈ tr₁, Quiet e.1) (h₂ : NoBlockLost tr₂) :
    NoBlockLost (tr₁ ++ tr₂) := by
  induction tr₁ with
  | nil => exact h₂
  | cons e tr₁ ih =>
    intro evicted post hs
    rcases List.suffix_cons_iff.mp hs with heq | hs
    · have : e = ⟨.mem .cacheEvictOne, some evicted⟩ := (List.cons.inj heq).1.symm
      exact absurd (congrArg Sigma.fst this) (h₁ e List.mem_cons_self)
    · exact ih (fun e he => h₁ e (List.mem_cons_of_mem _ he)) evicted post hs

theorem NoBlockLost.cons {post : Log} (h₁ : Acknowledged (untilEviction post) ∨
      ⟨.mem (.cachePut evicted.handle evicted.data evicted.dirty), true⟩ ∈ untilEviction post)
    (h₂ : NoBlockLost post) :
    NoBlockLost (⟨.mem .cacheEvictOne, some evicted⟩ :: post) := by
  intro evicted' post' hs hput
  rcases List.suffix_cons_iff.mp hs with heq | hs
  · obtain ⟨he, rfl⟩ := List.cons.inj heq
    obtain rfl : evicted' = evicted := by simpa using he
    exact h₁.resolve_right hput
  · exact h₂ evicted' post' hs hput

theorem emits_evictRounds {sizeNeeded rounds : ℕ} {pressureEvict : Bool}
    (he : Emits (Answers maxBytes) (evictRounds sizeNeeded pressureEvict rounds) out tr) :
    NoBlockLost tr ∧ Acknowledged (untilEviction tr) ∧
      ((∀ e, out ≠ .threw e) → Acknowledged tr) := by
  have hnil : Acknowledged [] := acknowledged_of_plain (by simp)
  have hquiet {tr : Log} (h : ∀ e ∈ tr, Quiet e.1) : NoBlockLost tr :=
    List.append_nil tr ▸ .append h (by simp [NoBlockLost])
  induction rounds generalizing tr with
  | zero =>
    obtain ⟨-, rfl⟩ := he
    exact ⟨by simp [NoBlockLost], hnil, fun _ => hnil⟩
  | succ rounds ih =>
    obtain ⟨needs, tr', -, he', rfl⟩ := emits_perform_bind he
    -- the question whether to evict is not an eviction
    suffices h : NoBlockLost tr' ∧ Acknowledged (untilEviction tr') ∧
        ((∀ e, out ≠ .threw e) → Acknowledged tr') by
      obtain ⟨h₁, h₂, h₃⟩ := h
      have hq : ∀ e ∈ [(⟨.mem (.cacheNeedsEviction sizeNeeded), needs⟩ : Event Effect Effect.Res)],
          Quiet e.1 := by simp [Quiet]
      refine ⟨.append hq h₁, ?_, fun hout => (h₃ hout).mem_cons⟩
      exact (untilEviction_append hq tr').symm ▸ h₂.mem_cons
    split_ifs at he'
    swap
    · obtain ⟨-, rfl⟩ := he'
      exact ⟨by simp [NoBlockLost], hnil, fun _ => hnil⟩
    obtain ⟨r, tr'', hr, hk, rfl⟩ := emits_perform_bind he'
    cases r with
    | none =>
      obtain ⟨-, rfl⟩ := hk
      refine ⟨?_, hnil, fun _ => hnil.mem_cons⟩
      intro evicted post hs
      simp [List.suffix_cons_iff] at hs
    | some evicted =>
      have hlen := hr evicted rfl
      obtain ⟨a, tr₁, tr₂, h₁, h₂, rfl⟩ | ⟨e, h₁, rfl⟩ | ⟨x, h₁, rfl⟩ := emits_bind hk
      · obtain ⟨hn, hu, ha⟩ := ih h₂
        have hq := h₁.effects (quiet_pushOut evicted)
        have hp := reliable_pushOut hlen _ _ h₁ nofun
        refine ⟨.cons (.inl ?_) (.append hq hn), hnil, fun hout => (hp.append (ha hout)).mem_cons⟩
        exact (untilEviction_append hq tr₂).symm ▸ hp.append hu
      · have hq := h₁.effects (quiet_pushOut evicted)
        refine ⟨.cons (.inr ?_) (hquiet hq), hnil, fun hout => absurd rfl (hout e)⟩
        exact (untilEviction_quiet hq).symm ▸ emits_pushOut_threw hlen h₁
      · have hq := h₁.effects (quiet_pushOut evicted)
        have hp := reliable_pushOut hlen _ _ h₁ nofun
        refine ⟨.cons (.inl ?_) (hquiet hq), hnil, fun _ => hp.mem_cons⟩
        exact (untilEviction_quiet hq).symm ▸ hp

theorem emits_evictIfNeeded {sizeNeeded : ℕ}
    (he : Emits (Answers maxBytes) (evictIfNeeded sizeNeeded) out tr) :
    NoBlockLost tr ∧ ((∀ e, out ≠ .threw e) → Acknowledged tr) := by
  obtain ⟨available, tr', -, he', rfl⟩ := emits_perform_bind he
  obtain ⟨blocks, tr'', -, hr, rfl⟩ := emits_perform_bind he'
  obtain ⟨hn, -, ha⟩ := emits_evictRounds hr
  have hq : ∀ e ∈ ([⟨.net .availableBytes, available⟩, ⟨.mem .cacheCount, blocks⟩] : Log),
      Quiet e.1 := by simp [Quiet]
  refine ⟨.append hq hn, fun hout => ?_⟩
  rintro p req r (- | ⟨-, hm⟩) hs
  exact (ha hout).mem_cons p req r hm hs

theorem reliable_evictIfNeeded (sizeNeeded : ℕ) : Reliable maxBytes (evictIfNeeded sizeNeeded) :=
  fun _ _ he => (emits_evictIfNeeded he).2

end Eviction

theorem reliable_mem {o : MemOp} (h : Plain (.mem o)) : Reliable maxBytes (mem o) :=
  Confined.reliable (A := fun _ => False) (confined_perform h)

theorem reliable_throw (e : Err) : Reliable maxBytes (MonadExcept.throw e : ClientM α) :=
  Confined.reliable (A := fun _ => False) trivial

theorem reliable_loadToLocal (handle : ℕ) : Reliable maxBytes (loadToLocal handle) := by
  refine .bind (reliable_mem trivial) fun r => ?_
  cases r with
  | none => exact reliable_throw _
  | some alloc =>
    exact .bind (reliable_evictIfNeeded _) fun _ =>
      .bind (Confined.reliable (plain_readRemote _ _ _ _)) fun _ =>
      .bind (reliable_mem trivial) fun _ => .bind (reliable_mem trivial) fun _ =>
      Confined.reliable (A := fun _ => False) trivial

theorem reliable_writeLocal (handle : ℕ) (block : List Byte) (offset : ℕ) (data : List Byte) :
    Reliable maxBytes (writeLocal handle block offset data) := by
  unfold writeLocal
  split_ifs
  · exact reliable_throw _
  · exact .bind (reliable_mem trivial) fun _ => Confined.reliable (A := fun _ => False) trivial

theorem reliable_oversizedRemoteAlloc (handle : ℕ) :
    Reliable maxBytes (oversizedRemoteAlloc handle) := by
  refine Confined.reliable (A := fun _ => False) (.bind (confined_perform trivial) fun r => ?_)
  cases r with
  | none => trivial
  | some alloc =>
    refine .bind (confined_perform trivial) fun maxSize => ?_
    split_ifs <;> trivial

theorem reliable_write (handle offset : ℕ) (data : List Byte) :
    Reliable maxBytes (write handle offset data) := by
  refine .bind (reliable_mem trivial) fun r => ?_
  cases r with
  | some block => exact reliable_writeLocal _ _ _ _
  | none =>
    refine .bind (reliable_oversizedRemoteAlloc handle) fun r => ?_
    cases r with
    | some remote =>
      dsimp only
      split_ifs
      · exact reliable_throw _
      · exact reliable_writeRemote _ _ _
    | none =>
      refine .bind (reliable_loadToLocal handle) fun _ => .bind (reliable_mem trivial) fun r => ?_
      cases r with
      | none => exact reliable_throw _
      | some block => exact reliable_writeLocal _ _ _ _

end Reliable

section Peers

variable {net : (o : NetOp) → ν → o.Res → ν → Prop}

theorem perform_answers (o : MemOp) (c : Client) (hs : c.cache.Sized) :
    (c.perform o).2.cache.Sized ∧ (c.perform o).2.cache.maxBytes = c.cache.maxBytes ∧
      Answers c.cache.maxBytes (.mem o) (c.perform o).1 := by
  cases o with
  | cacheGet h =>
    have hmax := c.cache.maxBytes_get h
    exact ⟨hs.mono (c.cache.get_subset h) hmax, hmax, trivial⟩
  | cachePut h data dirty =>
    refine ⟨hs.put h data dirty, by simp [Client.perform], fun hlen => ?_⟩
    simp [Client.perform, LRUCache.put, Nat.not_lt.mpr hlen]
  | cacheRemove h =>
    have hmax := c.cache.maxBytes_detach h
    exact ⟨hs.mono (c.cache.detach_subset h) hmax, hmax, trivial⟩
  | cacheEvictOne =>
    have hmax := c.cache.maxBytes_popBack
    refine ⟨hs.mono c.cache.popBack_subset hmax, hmax, fun evicted he => ?_⟩
    obtain ⟨n, hn, rfl⟩ := Option.map_eq_some_iff.mp he
    exact hs n (List.mem_of_getLast? hn)
  | _ => exact ⟨hs, rfl, trivial⟩

theorem Runs.emits_answers {α : Type} {p : ClientM α} {c : Client} {w : ν} {out : Outcome Err α}
    {s : Client × ν} {log : Log}
    (hnet : ∀ p req w r w', Sendable req → net (.call p req) w r w' → r = .timeout ∨ IsOk r)
    (hs : c.cache.Sized) (hr : Runs (logged (clientEnv net)) p ((c, w), []) out (s, log)) :
    Emits (Answers c.cache.maxBytes) p out log := by
  let I (s : Client × ν) := s.1.cache.Sized ∧ s.1.cache.maxBytes = c.cache.maxBytes
  have hans (o s r s') (hi : I s) (h : clientEnv net o s r s') :
      I s' ∧ Answers c.cache.maxBytes o r := by
    obtain ⟨c₁, w₁⟩ := s
    obtain ⟨c₂, w₂⟩ := s'
    obtain ⟨hs₁, hm⟩ := hi
    cases o with
    | mem o =>
      obtain ⟨rfl, rfl⟩ := Prod.mk.inj h.1
      have ha := perform_answers o c₁ hs₁
      rw [hm] at ha
      exact ⟨⟨ha.1, ha.2.1⟩, ha.2.2⟩
    | net o =>
      obtain ⟨rfl, h⟩ := h
      refine ⟨⟨hs₁, hm⟩, ?_⟩
      cases o with
      | call p req => exact fun hsend => hnet p req w₁ r w₂ hsend h
      | _ => trivial
  obtain ⟨tr, rfl, he⟩ := Runs.emits hans ⟨hs, rfl⟩ hr
  exact he

/-- A block of `size` bytes that is a single stripe. -/
def stripedBlock (p remoteHandle size : ℕ) : RemoteAllocation :=
  { size, isStriped := true, stripes := [⟨remoteHandle, 0, size, p⟩] }

def oneStripe (p remoteHandle size requestId : ℕ) : Client :=
  { cache := LRUCache.new 0
    remoteHandles := AList.singleton 1 (stripedBlock p remoteHandle size)
    nextLocalHandle := 2
    nextRequestId := requestId }

theorem writeRemote_stripedBlock {p remoteHandle offset : ℕ} {data : List Byte}
    (hpos : 0 < data.length) (hlen : offset + data.length < 2 ^ 64) :
    writeRemote (stripedBlock p remoteHandle (offset + data.length)) offset data =
      (tryCatch (store p remoteHandle offset data)
        (fun e => MonadExcept.throw (.runtimeError ("Failed to write stripe: " ++ e.what))) >>=
          fun _ => Pure.pure ()) := by
  have hcov : Covers ⟨remoteHandle, 0, offset + data.length, p⟩ offset := by
    simp only [Covers, Nat.zero_add, wrap_of_lt hlen]
    omega
  simp only [writeRemote, stripedBlock, if_true, writePasses, if_pos hpos, writePass,
    if_neg (Nat.not_le.mpr hpos), Nat.add_zero, wrap_of_lt (n := offset) (by omega), if_pos hcov,
    Nat.sub_zero, Nat.add_sub_cancel_left, Nat.min_self, Nat.zero_add, bind_assoc, pure_bind,
    writePasses_done _ _ _ hpos, slice, List.drop_zero, List.take_length]

theorem wp_mem_bind {α : Type} {o : MemOp} {f : o.Res → ClientM α}
    {Q : Outcome Err α → (Client × ν) × Log → Prop} {c : Client} {w : ν} {log : Log}
    (h : wp (logged (clientEnv net)) (fun _ _ => True) (mem o >>= f) Q ((c, w), log)) :
    wp (logged (clientEnv net)) (fun _ _ => True) (f (c.perform o).1) Q
      (((c.perform o).2, w), log ++ [⟨.mem o, (c.perform o).1⟩]) :=
  h.2 _ _ ⟨⟨rfl, rfl⟩, rfl⟩

theorem wp_net_bind {α : Type} {o : NetOp} {f : o.Res → ClientM α} {r : o.Res}
    {Q : Outcome Err α → (Client × ν) × Log → Prop} {c : Client} {w w' : ν} {log : Log}
    (hn : net o w r w')
    (h : wp (logged (clientEnv net)) (fun _ _ => True) (MemoryClient.net o >>= f) Q ((c, w), log)) :
    wp (logged (clientEnv net)) (fun _ _ => True) (f r) Q ((c, w'), log ++ [⟨.net o, r⟩]) :=
  h.2 _ _ ⟨⟨rfl, hn⟩, rfl⟩

/-- Every WRITE request is the first one that some client sends, and no answer to it makes
the client fail. -/
theorem isOk_of_noSilentLoss {p remoteHandle offset requestId : ℕ} {data : List Byte} {w w' : ν}
    {r : CallResult} (hloss : NoSilentLoss net)
    (h : net (.call p (writeRequest remoteHandle offset data requestId)) w r w') (hd : data ≠ [])
    (hlen : offset + data.length < 2 ^ 64) (hid : requestId < 2 ^ 64) (ht : r ≠ .timeout) :
    IsOk r := by
  have hpos : 0 < data.length := List.length_pos_iff.mpr hd
  obtain ⟨c, hc⟩ : ∃ c, c = oneStripe p remoteHandle (offset + data.length) requestId := ⟨_, rfl⟩
  obtain ⟨alloc, ha⟩ : ∃ alloc, alloc = stripedBlock p remoteHandle (offset + data.length) :=
    ⟨_, rfl⟩
  have hget : c.perform (.cacheGet 1) = (none, c) := by rw [hc]; rfl
  have hfind : c.perform (.remoteFind 1) = (some alloc, c) := by rw [hc, ha]; rfl
  have hmax : c.perform .cacheMaxSize = (0, c) := by rw [hc]; rfl
  have hsize : ¬ alloc.size ≤ 0 := by rw [ha]; exact Nat.not_le.mpr (Nat.add_pos_right _ hpos)
  have hin : ¬ OutOfBounds alloc.size offset data.length := by
    simp only [ha, OutOfBounds, stripedBlock]
    omega
  -- the client gets as far as `write_remote`
  obtain ⟨log, hrun⟩ : ∃ log,
      wp (logged (clientEnv net)) (fun _ _ => True) (writeRemote alloc offset data)
      (fun out s => out = .ok () → Acknowledged s.2) ((c, w), log) := by
    have hrun : wp (logged (clientEnv net)) (fun _ _ => True) (write 1 offset data)
        (fun out s => out = .ok () → Acknowledged s.2) ((c, w), []) := by
      refine wp_iff.mpr ⟨always_true, fun out s hr ho => ?_⟩
      exact hloss.write _ w 1 offset data alloc s.1 s.2 (ho ▸ hr)
        (by rw [hc]; exact LRUCache.sized_new 0) (by rw [hc]; rfl) (by rw [hc, ha]; rfl)
    replace hrun := wp_mem_bind hrun
    rw [hget] at hrun
    replace hrun := wp_mem_bind (wp_bind.mp hrun)
    rw [hfind] at hrun
    replace hrun := wp_mem_bind hrun
    rw [hmax, if_neg hsize] at hrun
    simp only [andThen, Pure.pure, wp, if_neg hin] at hrun
    exact ⟨_, hrun⟩
  rw [ha, writeRemote_stripedBlock hpos hlen, wp_bind, wp_tryCatch] at hrun
  replace hrun := wp_mem_bind (wp_bind.mp hrun)
  have hidc : (c.perform .nextRequestId).1 = requestId := by rw [hc]; exact wrap_of_lt hid
  rw [hidc] at hrun
  replace hrun := wp_net_bind h hrun
  have hsend : Sendable (writeRequest remoteHandle offset data requestId) :=
    ⟨_, _, _, _, rfl, hd, hlen, hid⟩
  cases r with
  | response resp => exact hrun rfl p _ _ (by simp) hsend
  | empty => exact hrun rfl p _ _ (by simp) hsend
  | timeout => exact absurd rfl ht

end Peers

/-- A peer that grants every allocation, answers a READ with zeros and a WRITE with an
error. -/
def refusesWrites : (o : NetOp) → Unit → o.Res × Unit
  | .availableBytes, _ => (0, ())
  | .connectedPeers, _ => ([0], ())
  | .waitForConnectedPeer, _ => (true, ())
  | .candidates, _ => ([0], ())
  | .peer _, _ => ({ connected := true }, ())
  | .call _ req, _ => match req.op with
    | .write => (.response { status := .errorGeneric }, ())
    | .read => (.response { data := some (List.replicate req.size 0) }, ())
    | _ => (.response { handle := 1 }, ())

def oneByteCached : Client := { Client.new 1 with cache := ((LRUCache.new 1).put 1 [7]).2 }

end MemoryClient

end MemInfo
