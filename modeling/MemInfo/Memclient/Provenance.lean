import Mathlib.Data.List.Perm.Lattice
import MemInfo.Memclient.Calls
import MemInfo.Memclient.Footprint

/-! # Where the client's bytes come from

A call keeps notes: the blocks that peers have granted to it, and which blocks it has found
in the table under which handle. Whatever else happens to the client meanwhile, a call enters
only blocks that were granted to it, each one once, sends the bytes of a handle only to the
blocks of that handle, and takes bytes for a handle only from there.
-/

namespace MemInfo

open Lib Prog MemoryClient

structure Notes where
  /-- The blocks that were granted to the call and that it has not entered into the table. -/
  inHand : List Ref
  /-- The blocks that belong to a handle. -/
  known : Ref → ℕ → Prop

def Notes.blank : Notes := ⟨[], fun _ _ => False⟩

def Notes.Extended (n n' : Notes) : Prop := ∀ x h, n.known x h → n'.known x h

theorem Notes.Extended.refl (n : Notes) : n.Extended n := fun _ _ h => h

theorem Notes.Extended.trans {n₁ n₂ n₃ : Notes} (h₁ : n₁.Extended n₂) (h₂ : n₂.Extended n₃) :
    n₁.Extended n₃ := fun x h hk => h₂ x h (h₁ x h hk)

/-- Bytes that may be those of a block of `h`, if `W` says which ones may. -/
def BytesOf (W : ℕ → Byte → Prop) (h : ℕ) (data : List Byte) : Prop := data ≠ [] ∧ ∀ b ∈ data, W h b

def notesCall (W : ℕ → Byte → Prop) (p : ℕ) (req : MemoryRequest) (n : Notes) :
    CallResult → Notes → Prop
  | .response resp, n' =>
    if req.op = .alloc ∧ resp.status = .ok then
      n' = { n with inHand := (p, resp.handle) :: n.inHand }
    else n' = n ∧ (req.op = .read → resp.status = .ok → ∀ data, resp.data = some data →
      ∀ h, n.known (p, req.handle) h → BytesOf W h data)
  | _, n' => n' = n

def notesEnv (W : ℕ → Byte → Prop) : (o : Effect) → Notes → o.Res → Notes → Prop
  | .mem (.cacheGet h), n, r, n' => n' = n ∧ ∀ data, r = some data → BytesOf W h data
  | .mem .cacheEvictOne, n, r, n' => n' = n ∧ ∀ b, r = some b → BytesOf W b.handle b.data
  | .mem (.remoteFind h), n, r, n' => n'.inHand = n.inHand ∧ n.Extended n' ∧
      ∀ a, r = some a → 0 < a.size ∧ ∀ x ∈ a.refs, n'.known x h
  | .mem (.remoteInsert _ a), n, _, n' => n' = { n with inHand := n.inHand.diff a.refs }
  | .net (.call p req), n, r, n' => notesCall W p req n r n'
  | _, n, _, n' => n' = n

def Demand (W : ℕ → Byte → Prop) : Effect → Notes → Prop
  | .mem (.cachePut h data _), _ => BytesOf W h data
  | .mem (.remoteInsert _ a), n => 0 < a.size ∧ a.refs.Subperm n.inHand
  | .net (.call p req), n => (req.op = .alloc → req.size ≠ 0) ∧
      (req.op = .write → ∃ h data, n.known (p, req.handle) h ∧ req.data = some data ∧
        ∀ b ∈ data, W h b)
  | _, _ => True

/-- The program keeps to its notes, and its result is as `V` says. -/
def Disciplined {α : Type} (W : ℕ → Byte → Prop) (n : Notes) (p : ClientM α)
    (V : Notes → α → Prop) : Prop :=
  wp (notesEnv W) (Demand W) p (fun out n' => n.Extended n' ∧ ∀ a, out = .ok a → V n' a) n

section Rules

variable {W : ℕ → Byte → Prop} {n : Notes} {α β : Type} {p : ClientM α} {V V' : Notes → α → Prop}

theorem notesEnv_extended {o : Effect} {r : o.Res} {n' : Notes} (h : notesEnv W o n r n') :
    n.Extended n' := by
  cases o with
  | mem o =>
    cases o with
    | remoteFind k => exact h.2.1
    | cacheGet k => exact h.1 ▸ .refl _
    | cacheEvictOne => exact h.1 ▸ .refl _
    | _ => exact (show n' = _ from h) ▸ .refl _
  | net o =>
    cases o with
    | call p req =>
      cases r with
      | response resp =>
        simp only [notesEnv, notesCall] at h
        split_ifs at h
        · exact h ▸ .refl _
        · exact h.1 ▸ .refl _
      | _ => exact (show n' = n from h) ▸ .refl _
    | _ => exact (show n' = n from h) ▸ .refl _

theorem disciplined_pure {a : α} (h : V n a) : Disciplined W n (Pure.pure a) V :=
  ⟨.refl _, fun _ he => Outcome.ok.inj he ▸ h⟩

theorem disciplined_throw (e : Err) : Disciplined W n (MonadExcept.throw e : ClientM α) V :=
  ⟨.refl _, nofun⟩

theorem disciplined_abort (x : Abort) : Disciplined W n (.abort x : ClientM α) V := ⟨.refl _, nofun⟩

theorem Disciplined.mono (hp : Disciplined W n p V)
    (h : ∀ n' a, n.Extended n' → V n' a → V' n' a) : Disciplined W n p V' :=
  wp_mono hp fun _ n' hout => ⟨hout.1, fun a ha => h n' a hout.1 (hout.2 a ha)⟩

theorem Disciplined.bind {f : α → ClientM β} {U : Notes → β → Prop} (hp : Disciplined W n p V)
    (hf : ∀ n' a, n.Extended n' → V n' a → Disciplined W n' (f a) U) :
    Disciplined W n (p >>= f) U := by
  refine wp_bind.mpr (wp_mono hp fun out n' hout => ?_)
  cases out with
  | ok a =>
    refine wp_mono (hf n' a hout.1 (hout.2 a rfl)) fun _ n₂ h₂ => ?_
    exact ⟨hout.1.trans h₂.1, h₂.2⟩
  | threw e => exact ⟨hout.1, nofun⟩
  | aborted x => exact ⟨hout.1, nofun⟩

theorem Disciplined.tryCatch {f : Err → ClientM α} (hp : Disciplined W n p V)
    (hf : ∀ n' e, n.Extended n' → Disciplined W n' (f e) V) :
    Disciplined W n (MonadExcept.tryCatch p f) V := by
  refine wp_tryCatch.mpr (wp_mono hp fun out n' hout => ?_)
  cases out with
  | ok a => exact hout
  | threw e =>
    refine wp_mono (hf n' e hout.1) fun _ n₂ h₂ => ?_
    exact ⟨hout.1.trans h₂.1, h₂.2⟩
  | aborted x => exact ⟨hout.1, nofun⟩

theorem disciplined_mem {o : MemOp} {f : o.Res → ClientM α} (ho : Demand W (.mem o) n)
    (hf : ∀ n' r, notesEnv W (.mem o) n r n' → Disciplined W n' (f r) V) :
    Disciplined W n (mem o >>= f) V := by
  refine ⟨ho, fun r n' he => wp_mono (hf n' r he) fun _ n₂ h₂ => ?_⟩
  exact ⟨(notesEnv_extended he).trans h₂.1, h₂.2⟩

theorem disciplined_net {o : NetOp} {f : o.Res → ClientM α} (ho : Demand W (.net o) n)
    (hf : ∀ n' r, notesEnv W (.net o) n r n' → Disciplined W n' (f r) V) :
    Disciplined W n (net o >>= f) V := by
  refine ⟨ho, fun r n' he => wp_mono (hf n' r he) fun _ n₂ h₂ => ?_⟩
  exact ⟨(notesEnv_extended he).trans h₂.1, h₂.2⟩

theorem disciplined_ask {o : NetOp} {f : o.Res → ClientM α} (ho : ∀ p req, o ≠ .call p req)
    (hf : ∀ r, Disciplined W n (f r) V) : Disciplined W n (net o >>= f) V := by
  cases o with
  | call p req => exact absurd rfl (ho p req)
  | _ =>
    apply disciplined_net
    · trivial
    · rintro _ r rfl
      exact hf r

theorem disciplined_syncRemoteCall {p : ℕ} {request : ℕ → MemoryRequest}
    (hd : ∀ id, Demand W (.net (.call p (request id))) n) :
    Disciplined W n (syncRemoteCall p request) fun n' r => ∃ id, match r with
      | some resp => notesCall W p (request id) n (.response resp) n'
      | none => n' = n := by
  apply disciplined_mem
  · trivial
  rintro _ id rfl
  apply disciplined_net (hd id)
  intro n' r hr
  cases r with
  | response resp => exact disciplined_pure ⟨id, hr⟩
  | empty => exact disciplined_pure ⟨id, hr⟩
  | timeout => exact disciplined_throw _

def Unnoted : Effect → Prop
  | .mem (.cacheGet _) | .mem .cacheEvictOne | .mem (.remoteFind _) => False
  | .mem (.remoteInsert _ _) | .mem (.cachePut _ _ _) => False
  | .net (.call _ req) => req.op = .free
  | _ => True

theorem disciplined_of_unnoted {A : Abort → Prop} (hp : Confined Unnoted A p) :
    Disciplined W n p fun n' _ => n' = n := by
  have hkeep : wp (notesEnv W) (Demand W) p (fun _ n' => n' = n) n := by
    refine hp.wp_invariant ?_ ?_ rfl
    · intro o n₁ ho _
      cases o with
      | mem o => cases o <;> first | exact ho.elim | trivial
      | net o =>
        cases o with
        | call p req =>
          have hop : req.op = .free := ho
          exact ⟨by simp [hop], by simp [hop]⟩
        | _ => trivial
    · rintro o n₁ r n₂ ho rfl he
      cases o with
      | mem o => cases o <;> first | exact ho.elim | exact he
      | net o =>
        cases o with
        | call p req =>
          have hop : req.op = .free := ho
          cases r with
          | response resp =>
            simp only [notesEnv, notesCall, hop] at he
            simpa using he
          | _ => exact he
        | _ => exact he
  exact wp_mono hkeep fun _ n' he => ⟨he ▸ .refl _, fun _ _ => he⟩

end Rules

section Placing

variable {W : ℕ → Byte → Prop} {n : Notes} {size : ℕ}

theorem unnoted_background : Background Unnoted := by
  constructor
  · trivial
  · intro o ho
    cases o with
    | call p req => exact absurd rfl (ho p req)
    | _ => trivial

theorem unnoted_freeRemote (a : RemoteAllocation) :
    Confined Unnoted (fun _ => True) (freeRemote a) :=
  confined_freeRemote unnoted_background fun _ _ _ => rfl

theorem disciplined_tryAlloc (p : ℕ) (hsize : size ≠ 0) :
    Disciplined W n (tryAlloc p size) fun n' r =>
      n'.inHand = (r.map fun remoteHandle => (p, remoteHandle)).toList ++ n.inHand := by
  have hdemand (id : ℕ) : Demand W (.net (.call p (allocRequest size id))) n :=
    ⟨fun _ => hsize, nofun⟩
  -- the exception of a timeout leaves the notes as they are, which `Disciplined` does not say
  refine wp_tryCatch.mpr (wp_bind.mpr ⟨trivial, fun id n₁ h₁ => ?_⟩)
  obtain rfl : n = n₁ := h₁.symm
  refine ⟨hdemand id, fun r n' hr => ?_⟩
  cases r with
  | timeout =>
    obtain rfl : n = n' := hr.symm
    exact ⟨.refl n, by rintro _ ⟨⟩; rfl⟩
  | empty =>
    obtain rfl : n = n' := hr.symm
    exact ⟨.refl n, by rintro _ ⟨⟩; rfl⟩
  | response resp =>
    change wp _ _ (if resp.status = .ok then _ else _) _ n'
    by_cases hok : resp.status = .ok
    · obtain rfl : { n with inHand := (p, resp.handle) :: n.inHand } = n' := by
        simpa [notesEnv, notesCall, allocRequest, hok, eq_comm] using hr
      rw [if_pos hok]
      exact ⟨fun _ _ h => h, by rintro _ ⟨⟩; rfl⟩
    · obtain rfl : n = n' := by
        simpa [notesEnv, notesCall, allocRequest, hok, eq_comm] using hr
      rw [if_neg hok]
      exact ⟨.refl n, by rintro _ ⟨⟩; rfl⟩

theorem disciplined_allocateSingle (hsize : size ≠ 0) (candidates : List ℕ) :
    Disciplined W n (allocateSingle size candidates) fun n' r =>
      ∀ x, r = some x → x ∈ n'.inHand := by
  induction candidates generalizing n with
  | nil => exact disciplined_pure nofun
  | cons p candidates ih =>
    apply disciplined_ask (by nofun)
    intro peer
    split_ifs
    · refine (disciplined_tryAlloc p hsize).bind fun n₁ r _ hr => ?_
      cases r with
      | none => exact ih
      | some remoteHandle =>
        apply disciplined_pure
        rintro _ ⟨⟩
        rw [hr]
        exact List.mem_cons_self
    · exact ih

theorem disciplined_allocateStripes (candidates : List ℕ) (remaining currentOffset : ℕ)
    {xs : List Stripe} (hx : (xs.map Stripe.ref).Subperm n.inHand) :
    Disciplined W n (allocateStripes candidates remaining currentOffset xs) fun n' r =>
      (r.1.map Stripe.ref).Subperm n'.inHand := by
  induction candidates generalizing n remaining currentOffset xs with
  | nil => exact disciplined_pure hx
  | cons p candidates ih =>
    unfold allocateStripes
    split_ifs
    · exact disciplined_pure hx
    apply disciplined_ask (by simp)
    intro peer
    dsimp only
    split_ifs with hzero
    · exact ih _ _ hx
    refine (disciplined_tryAlloc p hzero).bind fun n₁ r _ hr => ?_
    cases r with
    | none => exact ih _ _ (hr ▸ hx)
    | some remoteHandle =>
      apply ih
      rw [hr, List.map_append]
      exact List.perm_append_comm.subperm.trans ((List.subperm_cons (p, remoteHandle)).mpr hx)

theorem disciplined_joinStripes {xs : List Stripe} (hx : (xs.map Stripe.ref).Subperm n.inHand)
    (remaining : ℕ) :
    Disciplined W n (joinStripes size xs remaining) fun n' r => ∀ a, r = some a →
      a.size = size ∧ a.refs.Subperm n'.inHand := by
  unfold joinStripes
  split_ifs
  · apply disciplined_pure
    rintro _ ⟨⟩
    exact ⟨rfl, hx⟩
  · exact (disciplined_of_unnoted (unnoted_freeRemote _)).bind fun _ _ _ _ => disciplined_pure nofun
  · exact disciplined_pure nofun

theorem disciplined_place (hsize : size ≠ 0) (candidates : List ℕ) :
    Disciplined W n (place size candidates) fun n' r => ∀ a, r = some a →
      a.size = size ∧ a.refs.Subperm n'.inHand := by
  refine (disciplined_allocateSingle hsize candidates).bind fun n₁ r _ hr => ?_
  cases r with
  | some x =>
    apply disciplined_pure
    rintro _ ⟨⟩
    exact ⟨rfl, List.singleton_subperm_iff.mpr (hr x rfl)⟩
  | none =>
    dsimp only
    split_ifs
    · have hnone : (([] : List Stripe).map Stripe.ref).Subperm n₁.inHand := List.nil_subperm
      apply (disciplined_allocateStripes candidates size 0 hnone).bind
      exact fun n₂ r _ hr => disciplined_joinStripes hr _
    · exact disciplined_pure nofun

theorem disciplined_allocateRemote (handle : ℕ) (hsize : size ≠ 0) :
    Disciplined W n (allocateRemote handle size) fun _ _ => True := by
  have hawait : Confined Unnoted (fun _ => True) awaitPeer := by
    apply Confined.bind (confined_perform trivial)
    intro peers
    split_ifs
    · exact .bind (confined_perform trivial) fun _ => trivial
    · trivial
  refine (disciplined_of_unnoted hawait).bind fun n₁ _ _ _ => ?_
  apply disciplined_ask (by nofun)
  intro candidates
  refine (disciplined_place hsize candidates).bind fun n₂ r _ hr => ?_
  cases r with
  | none => exact disciplined_throw _
  | some a =>
    obtain ⟨rfl, ha⟩ := hr a rfl
    apply disciplined_mem (f := Pure.pure)
    · exact ⟨Nat.pos_of_ne_zero hsize, ha⟩
    · exact fun _ _ _ => disciplined_pure trivial

end Placing

section Transfers

variable {W : ℕ → Byte → Prop} {n : Notes} {h : ℕ} {a : RemoteAllocation}

theorem disciplined_store {p remoteHandle : ℕ} {data : List Byte} (hx : n.known (p, remoteHandle) h)
    (hd : ∀ b ∈ data, W h b) (offset : ℕ) :
    Disciplined W n (store p remoteHandle offset data) fun _ _ => True := by
  have hdemand (id : ℕ) : Demand W (.net (.call p (writeRequest remoteHandle offset data id))) n :=
    ⟨nofun, fun _ => ⟨h, data, hx, rfl, hd⟩⟩
  exact (disciplined_syncRemoteCall hdemand).bind fun _ _ _ _ => disciplined_pure trivial

theorem disciplined_writePass {xs : List Stripe} {data : List Byte}
    (hx : ∀ x ∈ xs, n.known x.ref h) (hd : ∀ b ∈ data, W h b) (offset dataOffset : ℕ) :
    Disciplined W n (writePass offset data xs dataOffset) fun _ _ => True := by
  induction xs generalizing n dataOffset with
  | nil => exact disciplined_pure trivial
  | cons x xs ih =>
    obtain ⟨hx₁, hxs⟩ := List.forall_mem_cons.mp hx
    unfold writePass
    split_ifs
    · exact disciplined_pure trivial
    · have hslice (writeSize : ℕ) : ∀ b ∈ slice data dataOffset writeSize, W h b :=
        fun b hb => hd b (mem_of_mem_slice hb)
      have hstore (writeOffset writeSize : ℕ) :=
        disciplined_store hx₁ (hslice writeSize) writeOffset
      refine ((hstore _ _).tryCatch fun _ _ _ => disciplined_throw _).bind fun n₁ _ hext _ => ?_
      exact ih (fun y hy => hext _ _ (hxs y hy)) _
    · exact ih hxs _

theorem disciplined_writePasses {xs : List Stripe} {data : List Byte}
    (hx : ∀ x ∈ xs, n.known x.ref h) (hd : ∀ b ∈ data, W h b) (offset passes dataOffset : ℕ) :
    Disciplined W n (writePasses offset data xs passes dataOffset) fun _ _ => True := by
  induction passes generalizing n dataOffset with
  | zero => exact disciplined_abort _
  | succ passes ih =>
    unfold writePasses
    split_ifs
    · refine (disciplined_writePass hx hd offset dataOffset).bind fun n₁ _ hext _ => ?_
      exact ih (fun y hy => hext _ _ (hx y hy)) _
    · exact disciplined_pure trivial

theorem disciplined_requirePeer (hs : a.isStriped = false) (hx : ∀ x ∈ a.refs, n.known x h) :
    Disciplined W n (requirePeer a) fun n' p => n'.known (p, a.remoteHandle) h := by
  unfold requirePeer
  cases hp : a.peer with
  | none => exact disciplined_throw _
  | some p =>
    apply disciplined_ask (by nofun)
    intro peer
    split_ifs
    · exact disciplined_pure (hx _ (by simp [RemoteAllocation.refs, RemoteAllocation.parts, hs, hp,
        Stripe.ref]))
    · exact disciplined_throw _

theorem disciplined_writeRemote {data : List Byte} (hx : ∀ x ∈ a.refs, n.known x h)
    (hd : ∀ b ∈ data, W h b) (offset : ℕ) :
    Disciplined W n (writeRemote a offset data) fun _ _ => True := by
  unfold writeRemote
  split_ifs with hs
  · apply disciplined_writePasses _ hd
    intro x hm
    exact hx x.ref (List.mem_map_of_mem (by rwa [RemoteAllocation.parts, if_pos hs]))
  · refine (disciplined_requirePeer (by simpa using hs) hx).bind fun n₁ p _ hp => ?_
    exact disciplined_store hp hd offset

theorem disciplined_fetch {p remoteHandle : ℕ} (hx : n.known (p, remoteHandle) h)
    (offset size : ℕ) :
    Disciplined W n (fetch p remoteHandle offset size) fun _ data => BytesOf W h data := by
  have hdemand (id : ℕ) : Demand W (.net (.call p (readRequest remoteHandle offset size id))) n :=
    ⟨nofun, nofun⟩
  refine (disciplined_syncRemoteCall hdemand).bind fun n₁ r _ hr => ?_
  cases r with
  | none => exact disciplined_throw _
  | some resp =>
    obtain ⟨id, hr⟩ := hr
    unfold responseData
    dsimp only
    split
    next data hok hdata =>
      simp only [notesCall, readRequest, reduceCtorEq, false_and, if_false] at hr
      exact disciplined_pure (hr.2 trivial hok data hdata h hx)
    next => exact disciplined_throw _

theorem unnoted_releaseAfter (rel : Bool) (p remoteHandle : ℕ) :
    Confined Unnoted (fun _ => True) (releaseAfter rel p remoteHandle) :=
  confined_releaseAfter unnoted_background fun _ _ => rfl

theorem disciplined_readPass {xs : List Stripe} {result : List Byte}
    (hx : ∀ x ∈ xs, n.known x.ref h) (hd : ∀ b ∈ result, W h b) (offset size : ℕ) (rel : Bool)
    (resultOffset : ℕ) :
    Disciplined W n (readPass offset size rel xs result resultOffset) fun _ out =>
      out.1.length = result.length ∧ ∀ b ∈ out.1, W h b := by
  induction xs generalizing n result resultOffset with
  | nil => exact disciplined_pure ⟨rfl, hd⟩
  | cons x xs ih =>
    obtain ⟨hx₁, hxs⟩ := List.forall_mem_cons.mp hx
    unfold readPass
    split_ifs
    · exact disciplined_pure ⟨rfl, hd⟩
    · have hstripe (readOffset readSize : ℕ) :
          Disciplined W n (readStripe x readOffset readSize rel result resultOffset) fun _ data =>
            data.length = result.length ∧ ∀ b ∈ data, W h b := by
        refine (disciplined_fetch hx₁ readOffset readSize).bind fun n₁ data _ hdata => ?_
        split_ifs with hlen
        · exact disciplined_abort _
        refine (disciplined_of_unnoted (unnoted_releaseAfter _ _ _)).bind fun n₂ _ _ _ => ?_
        refine disciplined_pure ⟨length_splice (by omega), fun b hb => ?_⟩
        exact (mem_of_mem_splice hb).elim (hd b) (hdata.2 b)
      refine ((hstripe _ _).tryCatch fun _ _ _ => disciplined_throw _).bind ?_
      rintro n₁ data hext ⟨hlen, hdata⟩
      rw [← hlen]
      exact ih (fun y hy => hext _ _ (hxs y hy)) hdata _
    · exact ih hxs hd _

theorem disciplined_readPasses {xs : List Stripe} {result : List Byte}
    (hx : ∀ x ∈ xs, n.known x.ref h) (hd : ∀ b ∈ result, W h b) (offset size : ℕ) (rel : Bool)
    (passes resultOffset : ℕ) :
    Disciplined W n (readPasses offset size rel xs passes result resultOffset) fun _ data =>
      data.length = result.length ∧ ∀ b ∈ data, W h b := by
  induction passes generalizing n result resultOffset with
  | zero => exact disciplined_abort _
  | succ passes ih =>
    unfold readPasses
    split_ifs
    · apply (disciplined_readPass hx hd offset size rel resultOffset).bind
      rintro n₁ ⟨data, pos⟩ hext ⟨hlen, hdata⟩
      rw [← hlen]
      exact ih (fun y hy => hext _ _ (hx y hy)) hdata _
    · exact disciplined_pure ⟨rfl, hd⟩

theorem disciplined_readRemote (hzero : W h 0) (hx : ∀ x ∈ a.refs, n.known x h)
    (offset size : ℕ) (rel : Bool) :
    Disciplined W n (readRemote a offset size rel) fun _ data =>
      (0 < size → data ≠ []) ∧ ∀ b ∈ data, W h b := by
  unfold readRemote
  split_ifs with hs
  · have hx' : ∀ x ∈ a.stripes, n.known x.ref h := by
      intro x hm
      exact hx x.ref (List.mem_map_of_mem (by rwa [RemoteAllocation.parts, if_pos hs]))
    have hd : ∀ b ∈ List.replicate size (0 : Byte), W h b := fun b hb =>
      List.eq_of_mem_replicate hb ▸ hzero
    apply (disciplined_readPasses hx' hd offset size rel _ _).mono
    rintro n₁ data - ⟨hlen, hdata⟩
    refine ⟨fun hpos => ?_, hdata⟩
    rintro rfl
    rw [List.length_nil, List.length_replicate] at hlen
    omega
  · refine (disciplined_requirePeer (by simpa using hs) hx).bind fun n₁ p _ hp => ?_
    refine (disciplined_fetch hp offset size).bind fun n₂ data _ hdata => ?_
    refine (disciplined_of_unnoted (unnoted_releaseAfter _ _ _)).bind fun n₃ _ _ _ => ?_
    exact disciplined_pure ⟨fun _ => hdata.1, hdata.2⟩

end Transfers

section Calls

variable {W : ℕ → Byte → Prop} {n : Notes} {h size : ℕ}

theorem disciplined_rollback {evicted : CacheBlock} (hb : BytesOf W evicted.handle evicted.data)
    (e : Err) : Disciplined W n (rollback evicted e) fun _ _ => True := by
  have hdrop : Confined Unnoted (fun _ => True) (dropReservation evicted.handle) := by
    apply Confined.bind (confined_perform trivial)
    rintro (- | orphan)
    · trivial
    · exact .tryCatch (unnoted_freeRemote orphan) fun _ => trivial
  refine (disciplined_of_unnoted hdrop).bind fun n₁ _ _ _ => ?_
  apply disciplined_mem
  · exact hb
  · exact fun _ _ _ => disciplined_throw e

theorem disciplined_pushOut {evicted : CacheBlock} (hb : BytesOf W evicted.handle evicted.data) :
    Disciplined W n (pushOut evicted) fun _ _ => True := by
  have hsize : evicted.data.length ≠ 0 := by simpa using hb.1
  refine Disciplined.tryCatch ?_ fun _ e _ => disciplined_rollback hb e
  refine (disciplined_allocateRemote evicted.handle hsize).bind fun n₁ _ _ _ => ?_
  apply disciplined_mem
  · trivial
  rintro n₂ r ⟨-, -, hr⟩
  cases r with
  | none => exact disciplined_throw _
  | some a => exact disciplined_writeRemote (hr a rfl).2 hb.2 0

theorem disciplined_evictRounds (sizeNeeded : ℕ) (pressure : Bool) (rounds : ℕ) :
    Disciplined W n (evictRounds sizeNeeded pressure rounds) fun _ _ => True := by
  induction rounds generalizing n with
  | zero => exact disciplined_abort _
  | succ rounds ih =>
    apply disciplined_mem
    · trivial
    rintro _ needs rfl
    split_ifs
    swap
    · exact disciplined_pure trivial
    apply disciplined_mem
    · trivial
    rintro _ r ⟨rfl, hr⟩
    cases r with
    | none => exact disciplined_pure trivial
    | some evicted => exact (disciplined_pushOut (hr evicted rfl)).bind fun _ _ _ _ => ih

theorem disciplined_evictIfNeeded (sizeNeeded : ℕ) :
    Disciplined W n (evictIfNeeded sizeNeeded) fun _ _ => True := by
  apply disciplined_ask (by nofun)
  intro bytes
  apply disciplined_mem
  · trivial
  rintro _ blocks rfl
  exact disciplined_evictRounds _ _ _

theorem disciplined_loadToLocal (hzero : W h 0) :
    Disciplined W n (loadToLocal h) fun _ _ => True := by
  apply disciplined_mem
  · trivial
  rintro n₁ r ⟨-, -, hr⟩
  cases r with
  | none => exact disciplined_throw _
  | some a =>
    obtain ⟨hpos, hx⟩ := hr a rfl
    refine (disciplined_evictIfNeeded a.size).bind fun n₂ _ hext _ => ?_
    refine (disciplined_readRemote hzero (fun x hm => hext _ _ (hx x hm)) 0 a.size true).bind ?_
    rintro n₃ data - ⟨hne, hd⟩
    apply disciplined_mem
    · trivial
    rintro _ _ rfl
    apply disciplined_mem (f := fun _ => Pure.pure ())
    · exact ⟨hne hpos, hd⟩
    · exact fun _ _ _ => disciplined_pure trivial

/-- What `read` and `write` have in common: the block is in the cache, too large for it, or
loaded. -/
theorem disciplined_access {α : Type} {k : List Byte → ClientM α} {f : RemoteAllocation → ClientM α}
    {V : Notes → α → Prop} (hzero : W h 0)
    (hk : ∀ n data, BytesOf W h data → Disciplined W n (k data) V)
    (hf : ∀ n a, (∀ x ∈ a.refs, n.known x h) → Disciplined W n (f a) V) :
    Disciplined W n (do
      match ← mem (.cacheGet h) with
      | some data => k data
      | none =>
        match ← oversizedRemoteAlloc h with
        | some remote => f remote
        | none => do
          loadToLocal h
          match ← mem (.cacheGet h) with
          | none => MonadExcept.throw (.runtimeError "Failed to load block from remote")
          | some data => k data) V := by
  have hoversized (n : Notes) : Disciplined W n (oversizedRemoteAlloc h) fun n' r =>
      ∀ a, r = some a → ∀ x ∈ a.refs, n'.known x h := by
    apply disciplined_mem
    · trivial
    rintro n₁ r ⟨-, -, hr⟩
    cases r with
    | none => exact disciplined_pure nofun
    | some a =>
      apply disciplined_mem
      · trivial
      rintro _ maxSize rfl
      split_ifs
      · exact disciplined_pure nofun
      · apply disciplined_pure
        rintro _ ⟨⟩
        exact (hr a rfl).2
  apply disciplined_mem
  · trivial
  rintro _ r ⟨rfl, hr⟩
  cases r with
  | some data => exact hk _ data (hr data rfl)
  | none =>
    refine (hoversized _).bind fun n₁ remote _ hremote => ?_
    cases remote with
    | some a => exact hf n₁ a (hremote a rfl)
    | none =>
      refine (disciplined_loadToLocal hzero).bind fun n₂ _ _ _ => ?_
      apply disciplined_mem
      · trivial
      rintro _ r ⟨rfl, hr⟩
      cases r with
      | none => exact disciplined_throw _
      | some data => exact hk _ data (hr data rfl)

theorem disciplined_read (hzero : W h 0) (offset size : ℕ) :
    Disciplined W n (MemoryClient.read h offset size) fun _ data => ∀ b ∈ data, W h b := by
  apply disciplined_access hzero
  · intro n data hd
    unfold readLocal
    split_ifs
    · exact disciplined_throw _
    · exact disciplined_pure fun b hb => hd.2 b (mem_of_mem_slice hb)
  · intro n a hx
    split_ifs
    · exact disciplined_throw _
    · exact (disciplined_readRemote hzero hx offset size false).mono fun _ _ _ hd => hd.2

theorem disciplined_write {data : List Byte} (hzero : W h 0) (hd : ∀ b ∈ data, W h b) (offset : ℕ) :
    Disciplined W n (MemoryClient.write h offset data) fun _ _ => True := by
  apply disciplined_access hzero
  · intro n block hblock
    unfold writeLocal
    split_ifs with hout
    · exact disciplined_throw _
    apply disciplined_mem (f := fun _ => Pure.pure ())
    · constructor
      · have hlen : (splice block offset data).length = block.length :=
          length_splice (by unfold OutOfBounds at hout; omega)
        rw [← List.length_pos_iff, hlen, List.length_pos_iff]
        exact hblock.1
      · exact fun b hb => (mem_of_mem_splice hb).elim (hblock.2 b) (hd b)
    · exact fun _ _ _ => disciplined_pure trivial
  · intro n a hx
    split_ifs
    · exact disciplined_throw _
    · exact disciplined_writeRemote hx hd offset

theorem disciplined_allocate (hzero : ∀ h, W h 0) (hsize : size ≠ 0) :
    Disciplined W n (allocate size) fun _ _ => True := by
  apply disciplined_mem
  · trivial
  rintro _ handle rfl
  apply disciplined_mem
  · trivial
  rintro _ maxSize rfl
  split_ifs
  · exact (disciplined_allocateRemote handle hsize).bind fun _ _ _ _ => disciplined_pure trivial
  · refine (disciplined_evictIfNeeded size).bind fun n₁ _ _ _ => ?_
    apply disciplined_mem
    · exact ⟨by simpa using hsize, fun b hb => List.eq_of_mem_replicate hb ▸ hzero handle⟩
    rintro n₂ put -
    split_ifs
    · exact disciplined_pure trivial
    · exact disciplined_throw _

theorem disciplined_free (h : ℕ) : Disciplined W n (MemoryClient.free h) fun _ _ => True := by
  apply disciplined_mem
  · trivial
  rintro _ removed rfl
  split_ifs
  · exact disciplined_pure trivial
  apply disciplined_mem
  · trivial
  rintro n₁ r -
  cases r with
  | none => exact disciplined_pure trivial
  | some a =>
    refine (disciplined_of_unnoted (unnoted_freeRemote a)).bind fun n₂ _ _ _ => ?_
    apply disciplined_mem (f := fun _ => Pure.pure ())
    · trivial
    · exact fun _ _ _ => disciplined_pure trivial

/-- The blocks that the call asks for are not empty, and the bytes that it writes may be
those of the handle. -/
def Call.Supplies (W : ℕ → Byte → Prop) : Call → Prop
  | .allocate size => size ≠ 0
  | .write h _ data => ∀ b ∈ data, W h b
  | _ => True

/-- The bytes that the call returns may be those of the handle. -/
def Call.Returns (W : ℕ → Byte → Prop) (call : Call) (out : Outcome Err Value) : Prop :=
  ∀ h offset size data, call = .read h offset size → out = .ok (.bytes data) → ∀ b ∈ data, W h b

theorem disciplined_exec {call : Call} (hzero : ∀ h, W h 0) (hcall : call.Supplies W) :
    Disciplined W n call.exec fun _ v => call.Returns W (.ok v) := by
  cases call with
  | allocate size =>
    exact (disciplined_allocate hzero hcall).bind fun _ _ _ _ => disciplined_pure nofun
  | free h => exact (disciplined_free h).bind fun _ _ _ _ => disciplined_pure nofun
  | write h offset data =>
    exact (disciplined_write (hzero h) hcall offset).bind fun _ _ _ _ => disciplined_pure nofun
  | read h offset size =>
    refine (disciplined_read (hzero h) offset size).bind fun n₁ data _ hd => disciplined_pure ?_
    rintro h offset size _ ⟨⟩ ⟨⟩
    exact hd

end Calls

end MemInfo
