import MemInfo.Memclient.Striping
import MemInfo.Memclient.World

/-! # Peers that answer

memoryd as the client sees it, requests about no bytes included. Such peers answer every request
whose frame fits.
-/

namespace MemInfo

open Lib Prog MemoryClient

def OfNoBytes (req : MemoryRequest) : Prop :=
  match req.op with
  | .alloc => req.size = 0
  | .read => req.size = 0
  | .write => req.data = some []
  | _ => False

instance (req : MemoryRequest) : Decidable (OfNoBytes req) := by
  unfold OfNoBytes
  split <;> infer_instance

/-- A request as memoryd answers it. One about no bytes is answered without a look at the
handle, and with neither a handle nor data. -/
def Responds (st : Stores) (p : ℕ) (req : MemoryRequest) (r : MemoryResponse) (st' : Stores) :
    Prop :=
  if OfNoBytes req then r.status = .ok ∧ r.handle = 0 ∧ r.data = none ∧ st' = st
  else Served st p req r st'

/-- Peers that stay connected and answer as memoryd does. A request whose frame does not fit is
not executed, and what the client gets for it, if anything, is not an OK. -/
def answeringNet (maxPayload : ℕ) : (o : NetOp) → Peers → o.Res → Peers → Prop
  | .call p req, w, r, w' => w.joined ⊆ w'.joined ∧
      (p ∈ w'.joined ∧ FrameFits maxPayload req →
        ∃ resp, r = .response resp ∧ Responds w.store p req resp w'.store) ∧
      (¬ (p ∈ w'.joined ∧ FrameFits maxPayload req) →
        w'.store = w.store ∧ ∀ resp, r = .response resp → resp.status ≠ .ok)
  | o, w, r, w' => servingNet maxPayload o w r w'

def refusingPeer (st : Stores) (p : ℕ) (req : MemoryRequest) : MemoryResponse × Stores :=
  if OfNoBytes req then ({}, st)
  else match req.op with
    | .alloc => ({ status := .outOfMemory }, st)
    | .free =>
      ({ status := if (st (p, req.handle)).isSome then .ok else .invalidHandle },
        Function.update st (p, req.handle) none)
    | .write =>
      match st (p, req.handle), req.data with
      | some bs, some data =>
        if req.offset + data.length ≤ bs.length then
          ({}, Function.update st (p, req.handle) (some (splice bs req.offset data)))
        else ({ status := .errorGeneric }, st)
      | _, _ => ({ status := .errorGeneric }, st)
    | .read =>
      match st (p, req.handle) with
      | some bs =>
        if req.offset + req.size ≤ bs.length then
          ({ data := some (slice bs req.offset req.size) }, st)
        else ({ status := .errorGeneric }, st)
      | none => ({ status := .errorGeneric }, st)
    | _ => ({}, st)

theorem responds_refusingPeer (st : Stores) (p : ℕ) (req : MemoryRequest) :
    Responds st p req (refusingPeer st p req).1 (refusingPeer st p req).2 := by
  by_cases hno : OfNoBytes req
  · rw [Responds, refusingPeer, if_pos hno, if_pos hno]
    exact ⟨rfl, rfl, rfl, rfl⟩
  rw [Responds, refusingPeer, if_neg hno, if_neg hno]
  unfold Served
  cases req.op with
  | alloc => exact .inl ⟨nofun, rfl⟩
  | free =>
    refine ⟨?_, rfl⟩
    cases st (p, req.handle) with
    | none => simp
    | some bs => simp
  | write =>
    cases st (p, req.handle) with
    | none => exact ⟨nofun, rfl⟩
    | some bs =>
      cases req.data with
      | none => exact ⟨nofun, rfl⟩
      | some data =>
        dsimp only
        split_ifs
        · exact ⟨rfl, rfl⟩
        · exact ⟨nofun, rfl⟩
  | read =>
    cases st (p, req.handle) with
    | none => exact ⟨rfl, nofun⟩
    | some bs =>
      dsimp only
      split_ifs
      · exact ⟨rfl, rfl, rfl⟩
      · exact ⟨rfl, nofun⟩
  | ping => rfl
  | other code => rfl

section Daemons

variable {maxPayload p s : ℕ} {m m' : ByteMap} {st st' : Stores} {req : MemoryRequest}
  {r : MemoryResponse}

theorem ByteMap.Answers.responds (ha : m.Answers s req r m') (ho : AllOwned m)
    (hversion : req.protocolVersion = protocolVersion) (hfits : FrameFits maxPayload req)
    (hdata : req.op = .write → ∃ data, req.data = some data ∧ req.checksum = crc32c data)
    (hmax : maxPayload ≤ maxMessageSize)
    (hst : ∀ h, st (p, h) = m.owned s h) (hst' : ∀ h, st' (p, h) = m'.owned s h)
    (hother : ∀ q h, q ≠ p → st' (q, h) = st (q, h)) : Responds st p req r st' := by
  unfold Responds
  split_ifs with hno
  · have hidle : r = MemoryProtocol.buildResponse req .ok "OK" ∧ m' = m := by
      rw [Answers, if_neg (not_not.mpr hversion)] at ha
      unfold OfNoBytes at hno
      cases hop : req.op with
      | alloc =>
        simp only [hop] at ha hno
        rwa [if_pos hno] at ha
      | read =>
        simp only [hop] at ha hno
        rw [hno, if_neg (by decide), if_pos rfl] at ha
        exact ⟨ha.2, ha.1⟩
      | write =>
        obtain ⟨data, hd, hcrc⟩ := hdata hop
        simp only [hop] at ha hno
        obtain rfl := Option.some.inj (hd.symm.trans hno)
        simpa [hd, hcrc] using ha
      | free => simp only [hop] at hno
      | ping => simp only [hop] at hno
      | other code => simp only [hop] at hno
    obtain ⟨rfl, rfl⟩ := hidle
    refine ⟨rfl, rfl, rfl, ?_⟩
    ext1 ⟨q, h⟩
    by_cases hq : q = p
    · rw [hq, hst', hst]
    · exact hother q h hq
  · apply ha.served ho _ hmax hst hst' hother
    refine ⟨hversion, hfits, fun hop hz => hno ?_, fun hop => ?_⟩
    · unfold OfNoBytes
      rcases hop with hop | hop
      · simpa only [hop] using hz
      · simpa only [hop] using hz
    · obtain ⟨data, hd, hcrc⟩ := hdata hop
      refine ⟨data, hd, fun hz => hno ?_, hcrc⟩
      unfold OfNoBytes
      simp only [hop]
      rw [hd, hz]

/-- A request of the client, processed by the daemon of a peer. -/
theorem World.Sound.request_responds {w w' : World} {resp : MemoryResponse} (hw : w.Sound)
    (hreq : (some resp, w') = w.request p req) (hb : ∀ p, (w'.daemons p).granted < 2 ^ 64)
    (hversion : req.protocolVersion = protocolVersion) (hfits : FrameFits maxPayload req)
    (hdata : req.op = .write → ∃ data, req.data = some data ∧ req.checksum = crc32c data)
    (hmax : maxPayload ≤ maxMessageSize) :
    Responds w.peers.store p req resp w'.peers.store := by
  obtain ⟨-, hother, hsession, ha⟩ := hw.answered hreq hb
  apply ha.responds (hw p).allOwned hversion hfits hdata hmax
  · exact fun _ => rfl
  · intro h
    simp only [peers, hsession]
  · intro q h hq
    simp only [peers, hother q hq]

end Daemons

section Peers

variable {maxPayload p size offset remoteHandle : ℕ} {s : Client × Peers} {bs : List Byte}

theorem Responds.frame {st st' : Stores} {req : MemoryRequest} {resp : MemoryResponse} {r : Ref}
    (hv : Responds st p req resp st') (hr : st r ≠ none)
    (hs : req.op = .write ∨ req.op = .free → r ≠ (p, req.handle)) : st' r = st r := by
  unfold Responds at hv
  split_ifs at hv
  · rw [hv.2.2.2]
  · exact hv.frame hr hs

theorem exists_answering (maxPayload : ℕ) (o : Effect) (s : Client × Peers) :
    ∃ r s', clientEnv (answeringNet maxPayload) o s r s' := by
  cases o with
  | mem o => exact ⟨_, ((s.1.perform o).2, s.2), rfl, rfl⟩
  | net o =>
    cases o with
    | availableBytes => exact ⟨0, s, rfl, subset_rfl, rfl⟩
    | connectedPeers => exact ⟨[], s, rfl, subset_rfl, rfl⟩
    | waitForConnectedPeer => exact ⟨true, s, rfl, subset_rfl, rfl⟩
    | candidates => exact ⟨[], s, rfl, subset_rfl, rfl, nofun⟩
    | peer p => exact ⟨{ connected := true }, s, rfl, subset_rfl, rfl, fun _ => rfl⟩
    | call p req =>
      by_cases hp : p ∈ s.2.joined ∧ FrameFits maxPayload req
      · refine ⟨.response (refusingPeer s.2.store p req).1,
          (s.1, { s.2 with store := (refusingPeer s.2.store p req).2 }), rfl, subset_rfl, ?_, ?_⟩
        · exact fun _ => ⟨_, rfl, responds_refusingPeer _ _ _⟩
        · exact fun hno => absurd hp hno
      · exact ⟨.timeout, s, rfl, subset_rfl, fun hyes => absurd hyes hp, fun _ => ⟨rfl, nofun⟩⟩

abbrev Meets (maxPayload : ℕ) {α : Type} (p : ClientM α)
    (Q : Outcome Err α → Client × Peers → Prop) (s : Client × Peers) : Prop :=
  wp (clientEnv (answeringNet maxPayload)) (fun _ _ => True) p Q s

theorem meets_call {request : ℕ → MemoryRequest}
    {Q : Outcome Err (Option MemoryResponse) → Client × Peers → Prop} (hp : p ∈ s.2.joined)
    (hf : ∀ id, FrameFits maxPayload (request id))
    (h : ∀ id resp s', Kept s s' → Responds s.2.store p (request id) resp s'.2.store →
      Q (.ok (some resp)) s') :
    Meets maxPayload (syncRemoteCall p request) Q s := by
  apply wp_bind_mem trivial
  apply wp_bind_net trivial
  rintro r w ⟨hj, hyes, -⟩
  obtain ⟨resp, rfl, hv⟩ := hyes ⟨hj hp, hf _⟩
  exact h _ resp _ ⟨⟨_, rfl⟩, hj⟩ hv

theorem meets_fetch {Q : Outcome Err (List Byte) → Client × Peers → Prop} (hp : p ∈ s.2.joined)
    (hpos : 0 < size) (hfit : size ≤ maxPayload) (hst : s.2.store (p, remoteHandle) = some bs)
    (hle : offset + size ≤ bs.length)
    (h : ∀ s', Kept s s' → s'.2.store = s.2.store → Q (.ok (slice bs offset size)) s') :
    Meets maxPayload (fetch p remoteHandle offset size) Q s := by
  apply wp_bind.mpr
  apply meets_call hp fun id => ⟨Nat.zero_le _, fun _ => hfit⟩
  intro id resp s' hk hv
  have hno : ¬ OfNoBytes (readRequest remoteHandle offset size id) := Nat.ne_of_gt hpos
  rw [Responds, if_neg hno] at hv
  obtain ⟨he, hok, hd⟩ := served_read hv hst hle
  dsimp only [andThen]
  rw [responseData_of_ok hok hd]
  exact h s' hk he

theorem meets_fetch_fails {Q : Outcome Err (List Byte) → Client × Peers → Prop}
    (hp : p ∈ s.2.joined) (hbad : ¬ (0 < size ∧ size ≤ maxPayload))
    (h : ∀ e s', Q (.threw e) s') :
    Meets maxPayload (fetch p remoteHandle offset size) Q s := by
  by_cases hfit : size ≤ maxPayload
  · obtain rfl : size = 0 := by omega
    apply wp_bind.mpr
    apply meets_call hp fun id => ⟨Nat.zero_le _, fun _ => hfit⟩
    intro id resp s' _ hv
    have hno : OfNoBytes (readRequest remoteHandle offset 0 id) := rfl
    rw [Responds, if_pos hno] at hv
    dsimp only [andThen]
    rw [responseData_of_not_ok fun _ => hv.2.2.1]
    exact h _ s'
  · apply wp_bind.mpr
    apply wp_bind_mem trivial
    apply wp_bind_net trivial
    rintro r w ⟨-, -, hno⟩
    have hbig (id : ℕ) : ¬ (p ∈ w.joined ∧
        FrameFits maxPayload (readRequest remoteHandle offset size id)) :=
      fun hq => hfit (hq.2.2 rfl)
    cases r with
    | timeout => exact h _ _
    | empty => exact h _ _
    | response resp =>
      have hstatus := (hno (hbig _)).2 resp rfl
      change Meets maxPayload (responseData (some resp)) _ _
      rw [responseData_of_not_ok fun h => absurd h hstatus]
      exact h _ _

theorem meets_store {data : List Byte} {Q : Outcome Err Unit → Client × Peers → Prop}
    (hp : p ∈ s.2.joined) (hd : data ≠ []) (hfit : data.length ≤ maxPayload)
    (hst : s.2.store (p, remoteHandle) = some bs) (hle : offset + data.length ≤ bs.length)
    (h : ∀ s', Kept s s' → s'.2.store =
      Function.update s.2.store (p, remoteHandle) (some (splice bs offset data)) →
        Q (.ok ()) s') :
    Meets maxPayload (store p remoteHandle offset data) Q s := by
  apply wp_bind.mpr
  apply meets_call hp
  · exact fun id => ⟨hfit, nofun⟩
  · intro id resp s' hk hv
    have hno : ¬ OfNoBytes (writeRequest remoteHandle offset data id) :=
      fun he => hd (Option.some.inj he)
    rw [Responds, if_neg hno] at hv
    exact h s' hk (served_write hv hst hle).2

theorem meets_releaseAfter {Q : Outcome Err Unit → Client × Peers → Prop} (rel : Bool)
    (hp : p ∈ s.2.joined)
    (h : ∀ s', Kept s s' → (∀ r ≠ (p, remoteHandle), s'.2.store r = s.2.store r) →
      (rel = false → s'.2.store = s.2.store) → Q (.ok ()) s') :
    Meets maxPayload (releaseAfter rel p remoteHandle) Q s := by
  unfold releaseAfter
  split_ifs with hrel
  · apply wp_bind.mpr
    apply meets_call hp
    · exact fun _ => ⟨Nat.zero_le _, nofun⟩
    · intro requestId resp s' hk hv
      have hno : ¬ OfNoBytes (freeRequest remoteHandle requestId) := not_false
      rw [Responds, if_neg hno] at hv
      apply h s' hk
      · intro r hne
        rw [hv.2]
        exact Function.update_of_ne hne _ _
      · exact fun hno => absurd (hrel.symm.trans hno) nofun
  · exact h s (.refl s) (fun _ _ => rfl) fun _ => rfl

theorem meets_readPieces {Q : Outcome Err (List Byte) → Client × Peers → Prop} {ys : List Piece}
    {done : ℕ} (rel : Bool)
    (hy : Adjacent (offset + done) ys (offset + size)) (hle : offset + size ≤ bs.length)
    (hnd : (ys.map fun y => y.stripe.ref).Nodup) (hj : ∀ y ∈ ys, y.stripe.peer ∈ s.2.joined)
    (hin : ∀ y ∈ ys, y.stripe.offset + y.stripe.length ≤ bs.length)
    (hst : ∀ y ∈ ys,
      s.2.store y.stripe.ref = some (slice bs y.stripe.offset y.stripe.length))
    (hok : (∀ y ∈ ys, y.length ≤ maxPayload) → ∀ s', Kept s s' →
      (rel = false → s'.2.store = s.2.store) → Q (.ok (slice bs offset size)) s')
    (hthrow : (∃ y ∈ ys, ¬ y.length ≤ maxPayload) → ∀ e s', Q (.threw e) s') :
    Meets maxPayload (readPieces rel ys
      (slice bs offset done ++ List.replicate (size - done) 0) done) Q s := by
  induction ys generalizing s done with
  | nil =>
    have hdone : offset + done = offset + size := hy
    obtain rfl : done = size := by omega
    rw [Nat.sub_self, List.replicate_zero, List.append_nil]
    exact hok nofun s (.refl s) fun _ => rfl
  | cons y ys ih =>
    obtain ⟨hstart, hlen, hpos, hy⟩ := hy
    have hend := hy.le
    have hyin := hin y List.mem_cons_self
    apply wp_bind.mpr
    apply wp_tryCatch.mpr
    apply wp_bind.mpr
    by_cases hfit : y.length ≤ maxPayload
    swap
    · apply meets_fetch_fails (hj y List.mem_cons_self) fun h => hfit h.2
      exact fun e s' => hthrow ⟨y, List.mem_cons_self, hfit⟩ _ s'
    have hslen : (slice bs y.stripe.offset y.stripe.length).length = y.stripe.length := by
      rw [length_slice]
      omega
    apply meets_fetch (hj y List.mem_cons_self) hpos hfit (hst y List.mem_cons_self)
      (by rw [hslen]; exact hlen)
    intro s₁ hk₁ hs₁
    have hread : slice (slice bs y.stripe.offset y.stripe.length) y.start y.length =
        slice bs (offset + done) y.length := by
      rw [slice_slice hlen, hstart]
    have hclen : (slice bs (offset + done) y.length).length = y.length := by
      rw [length_slice]
      omega
    have hres :
        (slice bs offset done ++ List.replicate (size - done) (0 : Byte)).length = size := by
      rw [List.length_append, length_slice, List.length_replicate]
      omega
    dsimp only [andThen]
    rw [hread, if_neg (by omega)]
    apply wp_bind.mpr
    apply meets_releaseAfter rel (hk₁.joined (hj y List.mem_cons_self))
    intro s₂ hk₂ hs₂ hkeep
    dsimp only [andThen]
    rw [splice_fill 0 hle (by omega)]
    have hk := hk₁.trans hk₂
    rw [List.map_cons, List.nodup_cons] at hnd
    apply ih (by rwa [← Nat.add_assoc]) hnd.2
    · exact fun z hz => hk.joined (hj z (List.mem_cons_of_mem _ hz))
    · exact fun z hz => hin z (List.mem_cons_of_mem _ hz)
    · intro z hz
      have hne : z.stripe.ref ≠ y.stripe.ref :=
        fun he => hnd.1 (List.mem_map.mpr ⟨z, hz, he⟩)
      rw [hs₂ _ hne, hs₁]
      exact hst z (List.mem_cons_of_mem _ hz)
    · intro hall s' hk' hkeep'
      apply hok (List.forall_mem_cons.mpr ⟨hfit, hall⟩) s' (hk.trans hk')
      exact fun hrel => ((hkeep' hrel).trans (hkeep hrel)).trans hs₁
    · rintro ⟨z, hz, hbad⟩
      exact hthrow ⟨z, List.mem_cons_of_mem _ hz, hbad⟩

theorem meets_readStriped {a : RemoteAllocation}
    {Q : Outcome Err (List Byte) → Client × Peers → Prop} (rel : Bool)
    (hs : a.isStriped = true) (hx : Consecutive 0 a.stripes bs.length) (hnd : a.refs.Nodup)
    (hle : offset + size ≤ bs.length) (hlt : bs.length < 2 ^ 64)
    (hj : ∀ x ∈ a.stripes, x.peer ∈ s.2.joined)
    (hst : ∀ x ∈ a.stripes, s.2.store x.ref = some (slice bs x.offset x.length))
    (hok : (∀ y ∈ pieces offset size a.stripes, y.length ≤ maxPayload) → ∀ s', Kept s s' →
      (rel = false → s'.2.store = s.2.store) → Q (.ok (slice bs offset size)) s')
    (hthrow : (∃ y ∈ pieces offset size a.stripes, ¬ y.length ≤ maxPayload) →
      ∀ e s', Q (.threw e) s') :
    Meets maxPayload (readRemote a offset size rel) Q s := by
  have hempty : List.replicate size (0 : Byte) =
      slice bs offset 0 ++ List.replicate (size - 0) 0 := by simp [slice]
  have hadj : Adjacent (offset + 0) (pieces offset size a.stripes) (offset + size) :=
    adjacent_range hx hle
  rw [readRemote_striped hs hx hle hlt, hempty]
  apply meets_readPieces rel hadj hle
  · rw [RemoteAllocation.refs, RemoteAllocation.parts_striped hs] at hnd
    exact nodup_pieces hnd
  · exact fun y hy => hj _ (mem_pieces hy).1
  · exact fun y hy => (hx.bounds (mem_pieces hy).1).2
  · exact fun y hy => hst _ (mem_pieces hy).1
  · exact hok
  · exact hthrow

end Peers

end MemInfo
