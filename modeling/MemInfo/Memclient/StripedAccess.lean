import MemInfo.Memclient.Answering
import MemInfo.Memclient.Calls
import MemInfo.Memclient.Traces

/-! # Accesses to a striped block

A block in stripes behaves as one array of bytes under `write_remote` and `read_remote`, among
peers that answer. No request goes beyond its stripe, and a read that releases the block frees
each stripe once.
-/

namespace MemInfo

open Lib Prog MemoryClient

/-- The range of the access is inside a block of `n` bytes. -/
def Access.InBounds (n : ℕ) : Access → Prop
  | .read offset size => offset + size ≤ n
  | .write offset data => offset + data.length ≤ n

instance (n : ℕ) : DecidablePred (Access.InBounds n)
  | .read offset size => inferInstanceAs (Decidable (offset + size ≤ n))
  | .write offset data => inferInstanceAs (Decidable (offset + data.length ≤ n))

/-- The accesses one after the other, with the results of the reads. -/
def MemoryClient.access (alloc : RemoteAllocation) : List Access → ClientM (List (List Byte))
  | [] => Pure.pure []
  | .write offset data :: rest => do
    writeRemote alloc offset data
    access alloc rest
  | .read offset size :: rest => do
    let data ← readRemote alloc offset size false
    let results ← access alloc rest
    Pure.pure (data :: results)

/-- The same accesses to one array: the results of the reads, and the array afterwards. -/
def accessFlat : List Byte → List Access → List (List Byte) × List Byte
  | bs, [] => ([], bs)
  | bs, .write offset data :: rest => accessFlat (splice bs offset data) rest
  | bs, .read offset size :: rest =>
    (slice bs offset size :: (accessFlat bs rest).1, (accessFlat bs rest).2)

/-- A request is a READ or a WRITE inside a stripe of the block. -/
def Inside (a : RemoteAllocation) : Effect → Prop
  | .net (.call p req) => ∃ x ∈ a.stripes, x.ref = (p, req.handle) ∧
      (req.op = .read ∧ req.offset + req.size ≤ x.length ∨
        req.op = .write ∧ ∃ data, req.data = some data ∧ req.offset + data.length ≤ x.length)
  | _ => True

section Requests

variable {P : Effect → Prop} {A : Abort → Prop} {a : RemoteAllocation} {ys : List Piece}
  {data : List Byte} {hi : ℕ} {ans : (o : Effect) → o.Res → Prop} {tr : Log} {bs : List Byte}

theorem confined_readPieces {rel : Bool} (hb : Background P)
    (hr : ∀ y ∈ ys, ∀ id, P (.net (.call y.stripe.peer
      (readRequest y.stripe.remoteHandle y.start y.length id))))
    (hf : rel = true → ∀ y ∈ ys, Frees P y.stripe.ref) (result : List Byte) (done : ℕ) :
    Confined P (fun _ => True) (readPieces rel ys result done) := by
  induction ys generalizing result done with
  | nil => trivial
  | cons y ys ih =>
    rw [List.forall_mem_cons] at hr
    apply Confined.bind
    · refine .tryCatch ?_ fun _ => trivial
      apply Confined.bind (confined_fetch hb hr.1)
      intro stripeData
      split_ifs
      · trivial
      · apply Confined.bind (confined_releaseAfter hb fun hrel => hf hrel y List.mem_cons_self)
        exact fun _ => trivial
    · intro result
      exact ih hr.2 (fun hrel z hz => hf hrel z (List.mem_cons_of_mem _ hz)) _ _

theorem confined_writePieces (hb : Background P)
    (hw : ∀ y ∈ ys, ∀ data id, data.length ≤ y.length → P (.net (.call y.stripe.peer
      (writeRequest y.stripe.remoteHandle y.start data id)))) (done : ℕ) :
    Confined P A (writePieces data ys done) := by
  induction ys generalizing done with
  | nil => trivial
  | cons y ys ih =>
    rw [List.forall_mem_cons] at hw
    have hlen : (slice data done y.length).length ≤ y.length := by
      rw [length_slice]
      exact Nat.min_le_left _ _
    apply Confined.bind
    · refine .tryCatch ?_ fun _ => trivial
      exact confined_store hb fun id => hw.1 _ id hlen
    · exact fun _ => ih hw.2 _

theorem inside_background (a : RemoteAllocation) : Background (Inside a) where
  requestId := trivial
  ask o ho := by
    cases o with
    | call p req => exact absurd rfl (ho p req)
    | _ => trivial

theorem inside_read {y : Piece} {offset size : ℕ} (hy : y ∈ pieces offset size a.stripes)
    (id : ℕ) :
    Inside a (.net (.call y.stripe.peer
      (readRequest y.stripe.remoteHandle y.start y.length id))) := by
  obtain ⟨hx, hle, -⟩ := mem_pieces hy
  exact ⟨y.stripe, hx, rfl, .inl ⟨rfl, hle⟩⟩

theorem confined_access {as : List Access} (hs : a.isStriped = true)
    (hx : Consecutive 0 a.stripes hi) (hlt : hi < 2 ^ 64) (hin : ∀ x ∈ as, x.InBounds hi) :
    Confined (Inside a) (fun _ => True) (access a as) := by
  have hb := inside_background a
  induction as with
  | nil => trivial
  | cons x rest ih =>
    rw [List.forall_mem_cons] at hin
    have ih := ih hin.2
    cases x with
    | write offset data =>
      apply Confined.bind _ fun _ => ih
      rw [writeRemote_striped hs hx hin.1 hlt]
      apply confined_writePieces hb
      intro y hy data id hlen
      obtain ⟨hx, hle, -⟩ := mem_pieces hy
      have hend : y.start + data.length ≤ y.stripe.length :=
        Nat.le_trans (Nat.add_le_add_left hlen _) hle
      exact ⟨y.stripe, hx, rfl, .inr ⟨rfl, data, rfl, hend⟩⟩
    | read offset size =>
      apply Confined.bind
      · rw [readRemote_striped hs hx hin.1 hlt]
        apply confined_readPieces hb
        · exact fun y hy => inside_read hy
        · exact nofun
      · intro data
        exact ih.bind fun _ => trivial

theorem inside_of_not_freed {rel : Bool} {offset size done : ℕ} {result : List Byte}
    {out : Outcome Err (List Byte)}
    (he : Emits ans (readPieces rel (pieces offset size a.stripes) result done) out tr) :
    ∀ e ∈ tr, freed e = none → Inside a e.1 := by
  have hb : Background fun o =>
      Inside a o ∨ ∃ p req, o = .net (.call p req) ∧ req.op = .free := by
    constructor
    · exact .inl trivial
    · exact fun o ho => .inl ((inside_background a).ask o ho)
  intro e hm hfree
  have heff := he.effects (confined_readPieces hb (fun y hy id => .inl (inside_read hy id))
    (fun _ y _ id => .inr ⟨_, _, rfl, rfl⟩) _ _) e hm
  rcases heff with hin | ⟨p, req, ho, hop⟩
  · exact hin
  · obtain ⟨o, r⟩ := e
    obtain rfl : o = .net (.call p req) := ho
    exact absurd hfree (by simp [freed, hop])

theorem frees_eq_nil (h : ∀ e ∈ tr, freed e = none) : frees tr = [] :=
  List.filterMap_eq_nil_iff.mpr h

theorem frees_fetch {p remoteHandle offset size : ℕ} {out : Outcome Err (List Byte)}
    (he : Emits ans (fetch p remoteHandle offset size) out tr) : frees tr = [] := by
  have hb : Background fun o => ∀ r, freed ⟨o, r⟩ = none := by
    constructor
    · exact fun _ => rfl
    · intro o ho r
      cases o with
      | call p req => exact absurd rfl (ho p req)
      | _ => rfl
  have hc : Confined (fun o => ∀ r, freed ⟨o, r⟩ = none) (fun _ => True)
      (fetch p remoteHandle offset size) := confined_fetch hb fun _ _ => rfl
  exact frees_eq_nil fun e hm => he.effects hc e hm e.2

theorem frees_release {p remoteHandle : ℕ} {out : Outcome Err Unit}
    (he : Emits ans (release p remoteHandle) out tr) : frees tr = [(p, remoteHandle)] := by
  obtain ⟨id, tr₁, -, ⟨r, tr₂, -, he, rfl⟩, rfl⟩ := he
  have hend : tr₂ = [] := by
    cases r with
    | response resp => exact he.2
    | empty => exact he.2
    | timeout => exact he.2
  rw [hend]
  rfl

theorem frees_readPieces {result : List Byte} {done : ℕ}
    (he : Emits ans (readPieces true ys result done) (.ok bs) tr) :
    frees tr = ys.map fun y => y.stripe.ref := by
  induction ys generalizing result done tr with
  | nil =>
    obtain ⟨-, rfl⟩ := he
    rfl
  | cons y ys ih =>
    obtain ⟨result₁, tr₁, tr₂, h₁, h₂, rfl⟩ := emits_bind_ok he
    obtain ⟨e, tr₃, tr₄, -, h₄, -⟩ | ⟨h₁, -⟩ := emits_tryCatch h₁
    · cases h₄.1
    obtain ⟨data, tr₃, tr₄, h₃, h₄, rfl⟩ := emits_bind_ok h₁
    split_ifs at h₄ with hfit
    · cases h₄.1
    obtain ⟨u, tr₅, tr₆, h₅, ⟨-, rfl⟩, rfl⟩ := emits_bind_ok h₄
    rw [frees_append, frees_append, frees_append, frees_fetch h₃, frees_release h₅, ih h₂]
    rfl

end Requests

section Bytes

variable {maxPayload offset : ℕ} {s : Client × Peers} {a : RemoteAllocation} {bs data : List Byte}
  {ys : List Piece}

theorem meets_writePieces {Q : Outcome Err Unit → Client × Peers → Prop} {done : ℕ}
    (hy : Adjacent (offset + done) ys (offset + data.length))
    (hle : offset + data.length ≤ bs.length) (hsub : ∀ y ∈ ys, y.stripe ∈ a.parts)
    (hfit : ∀ y ∈ ys, y.length ≤ maxPayload)
    (hp : Placed s.2 a (splice bs offset (data.take done)))
    (h : ∀ s', Kept s s' → Placed s'.2 a (splice bs offset data) → Q (.ok ()) s') :
    Meets maxPayload (writePieces data ys done) Q s := by
  induction ys generalizing s done with
  | nil =>
    have hdone : offset + done = offset + data.length := hy
    obtain rfl : done = data.length := by omega
    rw [List.take_length] at hp
    exact h s (.refl s) hp
  | cons y ys ih =>
    obtain ⟨hstart, hlen, hpos, hy⟩ := hy
    have hend := hy.le
    rw [List.forall_mem_cons] at hsub hfit
    have hchunk : (slice data done y.length).length = y.length := by
      rw [length_slice]
      omega
    have hblock : (splice bs offset (data.take done)).length = bs.length := by
      apply length_splice
      rw [List.length_take]
      omega
    have hyin := (hp.consecutive.bounds hsub.1).2
    have hslen : (slice (splice bs offset (data.take done)) y.stripe.offset
        y.stripe.length).length = y.stripe.length := by
      rw [length_slice]
      omega
    apply wp_bind.mpr
    apply wp_tryCatch.mpr
    apply meets_store (hp.joined _ hsub.1) (List.length_pos_iff.mp (by omega))
      (by rw [hchunk]; exact hfit.1) (hp.stored _ hsub.1) (by rw [hchunk, hslen]; exact hlen)
    intro s₁ hk₁ hs₁
    have hat : y.start = offset + done - y.stripe.offset := by omega
    rw [hat] at hs₁
    have hp₁ := hp.write hsub.1 (by omega) (by omega) hk₁.joined hs₁
    rw [splice_splice_slice hle (by omega)] at hp₁
    apply ih (by rwa [← Nat.add_assoc]) hsub.2 hfit.2 hp₁
    exact fun s' hk' hp' => h s' (hk₁.trans hk') hp'

theorem piece_fits {size : ℕ} {y : Piece} (hfit : ∀ x ∈ a.stripes, x.length ≤ maxPayload)
    (hy : y ∈ pieces offset size a.stripes) : y.length ≤ maxPayload := by
  obtain ⟨hx, hle, -⟩ := mem_pieces hy
  have hlong := hfit _ hx
  omega

section Ranges

variable (hp : Placed s.2 a bs) (hs : a.isStriped = true) (hlt : bs.length < 2 ^ 64)
  (hfit : ∀ x ∈ a.stripes, x.length ≤ maxPayload)

include hp hs hlt hfit

theorem Placed.meets_write {Q : Outcome Err Unit → Client × Peers → Prop}
    (hle : offset + data.length ≤ bs.length)
    (h : ∀ s', Kept s s' → Placed s'.2 a (splice bs offset data) → Q (.ok ()) s') :
    Meets maxPayload (writeRemote a offset data) Q s := by
  have hparts := RemoteAllocation.parts_striped hs
  have hx : Consecutive 0 a.stripes bs.length := hparts ▸ hp.consecutive
  have hadj : Adjacent (offset + 0) (pieces offset data.length a.stripes) (offset + data.length) :=
    adjacent_range hx hle
  have hnone : splice bs offset (data.take 0) = bs := by simp [splice]
  rw [writeRemote_striped hs hx hle hlt]
  apply meets_writePieces hadj hle
  · exact fun y hy => hparts ▸ (mem_pieces hy).1
  · exact fun y hy => piece_fits hfit hy
  · rwa [hnone]
  · exact h

theorem Placed.meets_read {size : ℕ} {Q : Outcome Err (List Byte) → Client × Peers → Prop}
    (rel : Bool) (hle : offset + size ≤ bs.length)
    (h : ∀ s', Kept s s' → (rel = false → s'.2.store = s.2.store) →
      Q (.ok (slice bs offset size)) s') :
    Meets maxPayload (readRemote a offset size rel) Q s := by
  have hparts := RemoteAllocation.parts_striped hs
  apply meets_readStriped rel hs (hparts ▸ hp.consecutive) hp.nodup hle hlt
  · exact hparts ▸ hp.joined
  · exact hparts ▸ hp.stored
  · exact fun _ => h
  · rintro ⟨y, hy, hlong⟩
    exact absurd (piece_fits hfit hy) hlong

end Ranges

theorem meets_access {as : List Access} (hs : a.isStriped = true) (hp : Placed s.2 a bs)
    (hlt : bs.length < 2 ^ 64) (hfit : ∀ x ∈ a.stripes, x.length ≤ maxPayload)
    (hin : ∀ x ∈ as, x.InBounds bs.length) :
    Meets maxPayload (access a as) (fun out s' =>
      out = .ok (accessFlat bs as).1 ∧ Placed s'.2 a (accessFlat bs as).2) s := by
  induction as generalizing s bs with
  | nil => exact ⟨rfl, hp⟩
  | cons x rest ih =>
    rw [List.forall_mem_cons] at hin
    cases x with
    | write offset data =>
      apply wp_bind.mpr
      apply hp.meets_write hs hlt hfit hin.1
      intro s₁ _ hp₁
      have hlen : (splice bs offset data).length = bs.length := length_splice hin.1
      apply ih hp₁ (hlen ▸ hlt)
      rw [hlen]
      exact hin.2
    | read offset size =>
      apply wp_bind.mpr
      apply hp.meets_read hs hlt hfit false hin.1
      intro s₁ hk₁ hs₁
      have hp₁ : Placed s₁.2 a bs := hp.mono hk₁.joined fun r _ => congrFun (hs₁ rfl) r
      apply wp_bind.mpr
      apply wp_mono (ih hp₁ hlt hin.2)
      rintro out s' ⟨rfl, hp'⟩
      exact ⟨rfl, hp'⟩

/-- The client gets the result in every run among such peers, the log is as `T` says, and there
is such a run. -/
def Returns (maxPayload : ℕ) {α : Type} (p : ClientM α) (s : Client × Peers) (result : α)
    (T : Log → Prop) : Prop :=
  (∃ s' log, Runs (logged (clientEnv (answeringNet maxPayload))) p (s, []) (.ok result)
    (s', log)) ∧
  ∀ out s' log, Runs (logged (clientEnv (answeringNet maxPayload))) p (s, []) out (s', log) →
    out = .ok result ∧ T log

theorem Meets.returns {α : Type} {p : ClientM α} {result : α} {T : Log → Prop}
    (hm : Meets maxPayload p (fun out _ => out = .ok result) s)
    (hT : ∀ tr, Emits (fun _ _ => True) p (.ok result) tr → T tr) :
    Returns maxPayload p s result T := by
  have hall : ∀ out s' log, Runs (logged (clientEnv (answeringNet maxPayload))) p (s, []) out
      (s', log) → out = .ok result ∧ T log := by
    intro out s' log hrun
    obtain ⟨tr, rfl, he⟩ := hrun.emits_any
    obtain rfl := (wp_iff.mp hm).2 out s' (always_true.logged hrun).1
    exact ⟨rfl, hT _ he⟩
  refine ⟨?_, hall⟩
  have hlogged (o : Effect) (t : (Client × Peers) × Log) :
      ∃ r t', logged (clientEnv (answeringNet maxPayload)) o t r t' := by
    obtain ⟨r, s', he⟩ := exists_answering maxPayload o t.1
    exact ⟨r, (s', t.2 ++ [⟨o, r⟩]), he, rfl⟩
  obtain ⟨out, ⟨s', log⟩, hrun⟩ := exists_runs hlogged p (s, [])
  obtain ⟨rfl, -⟩ := hall out s' log hrun
  exact ⟨s', log, hrun⟩

/-- For the client a striped block is one array of bytes. Its requests stay inside the stripes, and
a read of all of it with release frees each stripe once. -/
theorem striped_access_flat {as : List Access} (hs : a.isStriped = true) (hp : Placed s.2 a bs)
    (hlt : bs.length < 2 ^ 64) (hfit : ∀ x ∈ a.stripes, x.length ≤ maxPayload)
    (hin : ∀ x ∈ as, x.InBounds bs.length) :
    Returns maxPayload (access a as) s (accessFlat bs as).1 (fun log => ∀ e ∈ log, Inside a e.1) ∧
    Returns maxPayload (readRemote a 0 a.size) s bs (fun log =>
      frees log = a.stripes.map Stripe.ref ∧ ∀ e ∈ log, freed e = none → Inside a e.1) := by
  have hx : Consecutive 0 a.stripes bs.length :=
    RemoteAllocation.parts_striped hs ▸ hp.consecutive
  constructor
  · apply Meets.returns
    · exact wp_mono (meets_access hs hp hlt hfit hin) fun _ _ h => h.1
    · exact fun tr he => he.effects (confined_access hs hx hlt hin)
  · have hsize : 0 + a.size ≤ bs.length := by rw [Nat.zero_add, hp.size]
    have hall : slice bs 0 a.size = bs := by simp [slice, hp.size]
    apply Meets.returns
    · apply hp.meets_read hs hlt hfit true hsize
      intro s' _ _
      rw [hall]
    · intro tr he
      rw [readRemote_striped hs hx hsize hlt] at he
      constructor
      · rw [frees_readPieces he, hp.size, pieces_whole hx, List.map_map]
        rfl
      · exact inside_of_not_freed he

def twoStripes : RemoteAllocation :=
  { size := 2, stripes := [⟨1, 0, 1, 0⟩, ⟨1, 1, 1, 1⟩], isStriped := true }

def onTwoPeers : Client × Peers :=
  (Client.new 0,
    ⟨fun r => if r = (0, 1) then some [7] else if r = (1, 1) then some [8] else none, Set.univ⟩)

theorem placed_twoStripes : Placed onTwoPeers.2 twoStripes [7, 8] where
  size := rfl
  consecutive := by simp [RemoteAllocation.parts, twoStripes, Consecutive]
  nodup := by simp [RemoteAllocation.refs, RemoteAllocation.parts, twoStripes, Stripe.ref]
  joined _ _ := trivial
  stored := by simp [RemoteAllocation.parts, twoStripes, onTwoPeers, Stripe.ref, slice]

theorem striped_access_across :
    Returns 1 (access twoStripes [.write 0 [1, 2], .read 0 2, .read 1 1]) onTwoPeers [[1, 2], [2]]
      (fun log => ∀ e ∈ log, Inside twoStripes e.1) ∧
    Returns 1 (readRemote twoStripes 0 2) onTwoPeers [7, 8] (fun log =>
      frees log = [(0, 1), (1, 1)] ∧ ∀ e ∈ log, freed e = none → Inside twoStripes e.1) :=
  striped_access_flat rfl placed_twoStripes (by decide) (by decide) (by decide)

end Bytes

end MemInfo
