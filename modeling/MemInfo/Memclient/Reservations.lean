import MemInfo.Memclient.Refinement
import MemInfo.Memclient.Upkeep

/-! # Reservations

Among daemons that answer every request, the pieces in the client's table are the blocks
that its sessions own, with the same sizes.
-/

namespace MemInfo

open Lib Prog MemoryClient

/-- Daemons that are never lost. A request goes to a peer with a connection and is answered,
so its bytes were no more than a frame takes; other peers give no answer. -/
def steadyNet : (o : NetOp) → World → o.Res → World → Prop
  | .call p req, w, r, w' => ∃ w₁, w.Moves w₁ ∧ (req.data.getD []).length ≤ maxMessageSize ∧
      (p ∈ w₁.joined → ∃ resp, r = .response resp ∧ (some resp, w') = w₁.request p req) ∧
      (p ∉ w₁.joined → (∀ resp, r ≠ .response resp) ∧ w' = w₁)
  | o, w, r, w' => daemonNet maxMessageSize o w r w'

/-- Such daemons as long as their handles do not wrap around. -/
def countedNet (o : NetOp) (w : World) (r : o.Res) (w' : World) : Prop :=
  steadyNet o w r w' ∧ ∀ p, (w'.daemons p).granted < 2 ^ 64

structure Corresponds (xs : List Stripe) (st : Stores) : Prop where
  nodup : (xs.map Stripe.ref).Nodup
  owned : ∀ r n, (st r).map List.length = some n ↔ ∃ x ∈ xs, x.ref = r ∧ x.length = n

namespace Corresponds

variable {xs ys : List Stripe} {x : Stripe} {st st' : Stores} {bs : List Byte}

theorem empty : Corresponds [] fun _ => none := ⟨List.nodup_nil, by simp⟩

theorem perm (hc : Corresponds xs st) (hp : xs.Perm ys) : Corresponds ys st := by
  constructor
  · exact (hp.map Stripe.ref).nodup_iff.mp hc.nodup
  · intro r n
    rw [hc.owned]
    simp only [hp.mem_iff]

theorem congr (hc : Corresponds xs st)
    (hs : ∀ r, (st' r).map List.length = (st r).map List.length) : Corresponds xs st' :=
  ⟨hc.nodup, fun r n => by rw [hs, hc.owned]⟩

theorem stored (hc : Corresponds xs st) (hx : x ∈ xs) :
    ∃ bs, st x.ref = some bs ∧ bs.length = x.length :=
  Option.map_eq_some_iff.mp ((hc.owned x.ref x.length).mpr ⟨x, hx, rfl, rfl⟩)

theorem grant (hc : Corresponds xs st) (hfree : st x.ref = none) (hlen : bs.length = x.length) :
    Corresponds (x :: xs) (Function.update st x.ref (some bs)) := by
  have hnew : ∀ y ∈ xs, y.ref ≠ x.ref := by
    intro y hy he
    obtain ⟨bs', hst, -⟩ := hc.stored hy
    rw [he, hfree] at hst
    cases hst
  constructor
  · rw [List.map_cons, List.nodup_cons]
    refine ⟨fun hm => ?_, hc.nodup⟩
    obtain ⟨y, hy, he⟩ := List.mem_map.mp hm
    exact hnew y hy he
  · intro r n
    rw [Function.update_apply]
    split_ifs with hr
    · subst hr
      simp only [Option.map_some, Option.some.injEq, List.exists_mem_cons_iff, true_and, hlen]
      exact ⟨.inl, fun h => h.elim id fun ⟨y, hy, he, _⟩ => absurd he (hnew y hy)⟩
    · rw [hc.owned, List.exists_mem_cons_iff]
      exact ⟨.inr, fun h => h.elim (fun h => absurd h.1.symm hr) id⟩

theorem release (hc : Corresponds (x :: xs) st) :
    Corresponds xs (Function.update st x.ref none) := by
  obtain ⟨hx, hxs⟩ := List.nodup_cons.mp hc.nodup
  refine ⟨hxs, fun r n => ?_⟩
  rw [Function.update_apply]
  split_ifs with hr
  · subst hr
    simp only [Option.map_none, reduceCtorEq, false_iff]
    rintro ⟨y, hy, he, -⟩
    exact hx (he ▸ List.mem_map_of_mem hy)
  · rw [hc.owned, List.exists_mem_cons_iff]
    exact ⟨fun h => h.elim (fun h => absurd h.1.symm hr) id, .inr⟩

end Corresponds

theorem ByteMap.Outcome.length_owned {m m' : ByteMap} {s : ℕ} {req : MemoryRequest}
    {r : MemoryResponse} (hop : req.op = .read ∨ req.op = .write) (hout : Outcome m s req r m')
    (h : ℕ) : (m'.owned s h).map List.length = (m.owned s h).map List.length := by
  cases hout with
  | granted _ ha => simp [ha] at hop
  | freed _ hf => simp [hf] at hop
  | @stored b data _ _ _ hm hp hle =>
    rw [owned_update]
    split_ifs with hk
    · rw [hk, owned_of_some hm, Option.bind_some]
      split_ifs
      · rw [Option.map_some, Option.map_some, length_splice hle]
      · rfl
    · rfl
  | _ => rfl

/-- The state of the daemons when the client has the pieces `xs`. -/
structure Accounted (xs : List Stripe) (w : World) : Prop where
  sound : w.Sound
  joined : ∀ x ∈ xs, x.peer ∈ w.joined
  corresponds : Corresponds xs w.peers.store

namespace Accounted

variable {xs ys : List Stripe} {x : Stripe} {w w₁ w' : World} {p size id : ℕ} {req : MemoryRequest}
  {r : CallResult} {resp : MemoryResponse}

theorem perm (ha : Accounted xs w) (hp : xs.Perm ys) : Accounted ys w :=
  ⟨ha.sound, fun x hx => ha.joined x (hp.mem_iff.mpr hx), ha.corresponds.perm hp⟩

theorem moves (ha : Accounted xs w) (hm : w.Moves w') (hb : ∀ p, (w'.daemons p).granted < 2 ^ 64) :
    Accounted xs w' := by
  obtain ⟨hw, hst⟩ := ha.sound.moves hm hb
  exact ⟨hw, fun x hx => hm.1 (ha.joined x hx), hst ▸ ha.corresponds⟩

theorem ask {o : NetOp} {r : o.Res} (ho : ∀ p req, o ≠ .call p req) (ha : Accounted xs w)
    (he : countedNet o w r w') : Accounted xs w' := by
  obtain ⟨he, hb⟩ := he
  cases o with
  | call p req => exact absurd rfl (ho p req)
  | candidates => exact ha.moves he.1 hb
  | peer p => exact ha.moves he.1 hb
  | _ => exact ha.moves he hb

theorem call (ha : Accounted xs w) (he : countedNet (.call p req) w r w') :
    ∃ w₁, Accounted xs w₁ ∧ w'.joined = w₁.joined ∧
      (p ∈ w₁.joined ∧ (∃ resp, r = .response resp ∧ (some resp, w') = w₁.request p req) ∨
        p ∉ w₁.joined ∧ (∀ resp, r ≠ .response resp) ∧ w' = w₁) := by
  obtain ⟨⟨w₁, hm, -, hyes, hno⟩, hb⟩ := he
  by_cases hp : p ∈ w₁.joined
  · obtain ⟨resp, hr, hreq⟩ := hyes hp
    have hw' : w' = (w₁.request p req).2 := (Prod.mk.inj hreq).2
    have hb₁ : ∀ q, (w₁.daemons q).granted < 2 ^ 64 := fun q =>
      Nat.lt_of_le_of_lt (w₁.granted_le_request p req q) (hw' ▸ hb q)
    exact ⟨w₁, ha.moves hm hb₁, by rw [hw']; rfl, .inl ⟨hp, resp, hr, hreq⟩⟩
  · obtain ⟨hr, rfl⟩ := hno hp
    exact ⟨w', ha.moves hm hb, rfl, .inr ⟨hp, hr, rfl⟩⟩

theorem served (ha : Accounted xs w) (hp : p ∈ xs.map Stripe.peer)
    (hreq : Proper maxMessageSize req) (he : countedNet (.call p req) w r w') :
    ∃ w₁ resp, Accounted xs w₁ ∧ r = .response resp ∧ w'.Sound ∧ w'.joined = w₁.joined ∧
      Served w₁.peers.store p req resp w'.peers.store := by
  obtain ⟨x, hx, rfl⟩ := List.mem_map.mp hp
  obtain ⟨w₁, ha₁, hj, ⟨-, resp, hr, hw⟩ | ⟨hno, -⟩⟩ := ha.call he
  · obtain ⟨hw', -, hs⟩ := ha₁.sound.request (Nat.le_refl _) hw he.2
    exact ⟨w₁, resp, ha₁, hr, hw', hj, hs hreq⟩
  · exact absurd (ha₁.joined x hx) hno

theorem transfer (hop : req.op = .read ∨ req.op = .write) (ha : Accounted xs w)
    (he : countedNet (.call p req) w r w') : Accounted xs w' := by
  obtain ⟨w₁, ha₁, hj, ⟨-, resp, -, hw⟩ | ⟨-, -, rfl⟩⟩ := ha.call he
  · obtain ⟨hw', hother, hsession, hans⟩ := ha₁.sound.answered hw he.2
    refine ⟨hw', fun x hx => hj ▸ ha₁.joined x hx, ha₁.corresponds.congr ?_⟩
    rintro ⟨q, h⟩
    by_cases hq : q = p
    · subst hq
      simp only [World.peers, hsession]
      exact hans.outcome.length_owned hop h
    · simp only [World.peers, hother q hq]
  · exact ha₁

theorem refused (ha : Accounted xs w) (hpos : 0 < size)
    (he : countedNet (.call p (allocRequest size id)) w r w')
    (hno : ∀ resp, r = .response resp → resp.status ≠ .ok) : Accounted xs w' := by
  obtain ⟨w₁, ha₁, hj, ⟨-, resp, hr, hw⟩ | ⟨-, -, rfl⟩⟩ := ha.call he
  · obtain ⟨hw', -, hs⟩ := ha₁.sound.request (Nat.le_refl _) hw he.2
    obtain ⟨-, hst⟩ | ⟨hok, -⟩ := hs (proper_allocRequest hpos)
    · exact ⟨hw', fun x hx => hj ▸ ha₁.joined x hx, hst ▸ ha₁.corresponds⟩
    · exact absurd hok (hno resp hr)
  · exact ha₁

theorem granted (ha : Accounted xs w) (hpos : 0 < size)
    (he : countedNet (.call p (allocRequest size id)) w (.response resp) w')
    (hok : resp.status = .ok) (offset : ℕ) :
    Accounted (⟨resp.handle, offset, size, p⟩ :: xs) w' := by
  obtain ⟨w₁, ha₁, hj, ⟨hp, resp', hr, hw⟩ | ⟨-, hno, -⟩⟩ := ha.call he
  · obtain rfl : resp = resp' := by simpa using hr
    obtain ⟨hw', -, hs⟩ := ha₁.sound.request (Nat.le_refl _) hw he.2
    obtain ⟨hno, -⟩ | ⟨-, hfree, hst⟩ := hs (proper_allocRequest hpos)
    · exact absurd hok hno
    · refine ⟨hw', ?_, hst ▸ ha₁.corresponds.grant hfree List.length_replicate⟩
      rw [List.forall_mem_cons, hj]
      exact ⟨hp, ha₁.joined⟩
  · exact absurd rfl (hno resp)

theorem free (ha : Accounted (x :: xs) w)
    (he : countedNet (.call x.peer (freeRequest x.remoteHandle id)) w r w') : Accounted xs w' := by
  obtain ⟨w₁, resp, ha₁, -, hw', hj, -, hst⟩ :=
    ha.served List.mem_cons_self proper_freeRequest he
  refine ⟨hw', fun y hy => hj ▸ ha₁.joined y (List.mem_cons_of_mem _ hy), ?_⟩
  exact hst ▸ ha₁.corresponds.release

theorem fetched (ha : Accounted (x :: xs) w) (hpos : 0 < x.length)
    (hfit : x.length ≤ maxMessageSize)
    (he : countedNet (.call x.peer (readRequest x.remoteHandle 0 x.length id)) w r w') :
    ∃ resp data, r = .response resp ∧ resp.status = .ok ∧ resp.data = some data ∧
      data.length = x.length := by
  obtain ⟨w₁, resp, ha₁, hr, -, -, hs⟩ :=
    ha.served List.mem_cons_self (proper_readRequest hpos hfit) he
  obtain ⟨bs, hst, hlen⟩ := ha₁.corresponds.stored List.mem_cons_self
  have hle : 0 + x.length ≤ bs.length := by omega
  obtain ⟨-, hok, hdata⟩ := served_read hs hst hle
  refine ⟨resp, _, hr, hok, hdata, ?_⟩
  rw [length_slice]
  omega

theorem connected {peer : RemotePeer} (ha : Accounted (x :: xs) w)
    (he : countedNet (.peer x.peer) w peer w') : peer.connected = true :=
  he.1.2 (he.1.1.1 (ha.joined x List.mem_cons_self))

end Accounted

section Transfers

variable {lo hi : ℕ} {x : Stripe} {xs ys : List Stripe} {a : RemoteAllocation}
  {data result : List Byte} {s : Client × World} {α : Type}

theorem covers_first (hx : Consecutive lo (x :: xs) hi) (hlt : hi < 2 ^ 64) :
    wrap (0 + lo) = x.offset ∧ Covers x x.offset ∧ lo < hi ∧ x.length ≤ hi - lo := by
  obtain ⟨rfl, hpos, hrest⟩ := hx
  have hle := hrest.le
  rw [Nat.zero_add, wrap_of_lt (by omega), Covers, wrap_of_lt (by omega)]
  omega

theorem readPass_whole (hx : Consecutive lo (x :: xs) hi) (hlt : hi < 2 ^ 64) (rel : Bool)
    (result : List Byte) :
    readPass 0 hi rel (x :: xs) result lo =
      (tryCatch (readStripe x 0 x.length rel result lo)
        fun e => MonadExcept.throw (.runtimeError ("Failed to read stripe: " ++ e.what))) >>=
      fun result => readPass 0 hi rel xs result (lo + x.length) := by
  obtain ⟨hwrap, hcov, hlo, hle⟩ := covers_first hx hlt
  rw [readPass, if_neg (Nat.not_le.mpr hlo), hwrap, if_pos hcov, Nat.sub_self]
  dsimp only
  rw [Nat.sub_zero, Nat.min_eq_right hle]

theorem writePass_whole (hx : Consecutive lo (x :: xs) data.length) (hlt : data.length < 2 ^ 64) :
    writePass 0 data (x :: xs) lo =
      (tryCatch (store x.peer x.remoteHandle 0 (slice data lo x.length))
        fun e => MonadExcept.throw (.runtimeError ("Failed to write stripe: " ++ e.what))) >>=
      fun _ => writePass 0 data xs (lo + x.length) := by
  obtain ⟨hwrap, hcov, hlo, hle⟩ := covers_first hx hlt
  rw [writePass, if_neg (Nat.not_le.mpr hlo), hwrap, if_pos hcov, Nat.sub_self]
  dsimp only
  rw [Nat.sub_zero, Nat.min_eq_right hle]

theorem tends_fetch {Q : Outcome Err (List Byte) → Client × World → Prop}
    (ha : Accounted (x :: xs) s.2) (hpos : 0 < x.length) (hfit : x.length ≤ maxMessageSize)
    (h : ∀ data s', data.length = x.length → Accounted (x :: xs) s'.2 → Q (.ok data) s') :
    Tends countedNet (fetch x.peer x.remoteHandle 0 x.length) Q s := by
  apply wp_bind.mpr
  apply Upkeep.tends_mem_bind
  refine fun _ => ⟨trivial, ?_⟩
  rintro r s' ⟨⟨-, he⟩, -⟩
  obtain ⟨resp, data, rfl, hok, hdata, hlen⟩ := ha.fetched hpos hfit he
  change wp _ _ (responseData (some resp)) Q s'
  rw [responseData_of_ok hok hdata]
  exact h data s' hlen (ha.transfer (.inl rfl) he)

theorem tends_release {Q : Outcome Err Unit → Client × World → Prop}
    (ha : Accounted (x :: xs) s.2) (h : ∀ s', Accounted xs s'.2 → Q (.ok ()) s') :
    Tends countedNet (release x.peer x.remoteHandle) Q s := by
  apply wp_bind.mpr
  apply Upkeep.tends_mem_bind
  refine fun _ => ⟨trivial, ?_⟩
  rintro r s' ⟨⟨-, he⟩, -⟩
  obtain ⟨-, resp, -, rfl, -⟩ := ha.served List.mem_cons_self proper_freeRequest he
  exact h s' (ha.free he)

theorem tends_readStripe {Q : Outcome Err (List Byte) → Client × World → Prop}
    (ha : Accounted (x :: xs) s.2) (hpos : 0 < x.length) (hfit : x.length ≤ maxMessageSize)
    (hle : lo + x.length ≤ result.length)
    (h : ∀ data s', data.length = result.length → Accounted xs s'.2 → Q (.ok data) s') :
    Tends countedNet (readStripe x 0 x.length true result lo) Q s := by
  refine wp_bind.mpr (tends_fetch ha hpos hfit fun data s₁ hlen ha₁ => ?_)
  have hin : ¬ lo + data.length > result.length := by omega
  change wp _ _ (if lo + data.length > result.length then _ else _) _ _
  rw [if_neg hin]
  refine wp_bind.mpr (tends_release ha₁ fun s₂ ha₂ => h _ s₂ ?_ ha₂)
  exact length_splice (by omega)

theorem tends_readPass {Q : Outcome Err (List Byte × ℕ) → Client × World → Prop}
    (hx : Consecutive lo xs hi) (hlt : hi < 2 ^ 64) (hfit : ∀ x ∈ xs, x.length ≤ maxMessageSize)
    (ha : Accounted (xs ++ ys) s.2) (hlen : result.length = hi)
    (h : ∀ data s', data.length = hi → Accounted ys s'.2 → Q (.ok (data, hi)) s') :
    Tends countedNet (readPass 0 hi true xs result lo) Q s := by
  induction xs generalizing s lo result with
  | nil =>
    obtain rfl : lo = hi := hx
    exact h result s hlen ha
  | cons x xs ih =>
    obtain ⟨-, hpos, hrest⟩ := id hx
    obtain ⟨hx₁, hfit₁⟩ := List.forall_mem_cons.mp hfit
    rw [readPass_whole hx hlt]
    refine wp_bind.mpr (wp_tryCatch.mpr (tends_readStripe ha hpos hx₁ ?_ fun data s₁ hd ha₁ => ?_))
    · rw [hlen]
      exact hrest.le
    · exact ih hrest hfit₁ ha₁ (hd.trans hlen)

theorem tends_readPasses {Q : Outcome Err (List Byte) → Client × World → Prop}
    (hx : Consecutive 0 xs hi) (hpos : 0 < hi) (hlt : hi < 2 ^ 64)
    (hfit : ∀ x ∈ xs, x.length ≤ maxMessageSize) (ha : Accounted (xs ++ ys) s.2)
    (h : ∀ data s', data.length = hi → Accounted ys s'.2 → Q (.ok data) s') :
    Tends countedNet (readPasses 0 hi true xs (hi + 1) (List.replicate hi 0) 0) Q s := by
  rw [readPasses, if_pos hpos]
  refine wp_bind.mpr (tends_readPass hx hlt hfit ha List.length_replicate fun data s₁ hd ha₁ => ?_)
  -- the second pass finds nothing left to read
  change wp _ _ (readPasses 0 hi true xs hi data hi) Q s₁
  rw [readPasses_done _ _ _ _ _ hpos]
  exact h data s₁ hd ha₁

theorem tends_readRemote {Q : Outcome Err (List Byte) → Client × World → Prop}
    (hx : Consecutive 0 a.parts a.size) (hpos : 0 < a.size) (hlt : a.size < 2 ^ 64)
    (hfit : ∀ x ∈ a.parts, x.length ≤ maxMessageSize) (ha : Accounted (a.parts ++ xs) s.2)
    (h : ∀ data s', data.length = a.size → Accounted xs s'.2 → Q (.ok data) s') :
    Tends countedNet (readRemote a 0 a.size) Q s := by
  unfold readRemote
  split_ifs with hs
  · have hparts : a.parts = a.stripes := by rw [RemoteAllocation.parts, if_pos hs]
    rw [hparts] at hx hfit ha
    exact tends_readPasses hx hpos hlt hfit ha h
  · obtain ⟨p, hp, hparts⟩ := a.parts_single hs hx hpos
    rw [hparts] at hfit ha
    have hfit₁ := hfit _ List.mem_cons_self
    rw [requirePeer, hp]
    refine wp_bind.mpr ⟨trivial, ?_⟩
    rintro peer s₁ ⟨⟨-, he⟩, -⟩
    change wp _ _ (if peer.connected then _ else _) _ _
    rw [if_pos (ha.connected he)]
    have ha₁ := ha.ask (by simp) he
    refine wp_bind.mpr (tends_fetch ha₁ hpos hfit₁ fun data s₂ hlen ha₂ => ?_)
    exact wp_bind.mpr (tends_release ha₂ fun s' ha' => h data s' hlen ha')

theorem tends_writePass (hx : Consecutive lo xs data.length) (hlt : data.length < 2 ^ 64) :
    Tends countedNet (writePass 0 data xs lo) (fun out _ =>
      ∀ n, out = .ok n → n = data.length ∧ ∀ x ∈ xs, x.length ≤ maxMessageSize) s := by
  induction xs generalizing s lo with
  | nil =>
    rintro n hn
    obtain rfl : lo = n := Outcome.ok.inj hn
    exact ⟨hx, nofun⟩
  | cons x xs ih =>
    obtain ⟨-, hpos, hrest⟩ := id hx
    have hle := hrest.le
    have hlen : (slice data lo x.length).length = x.length := by
      rw [length_slice]
      omega
    rw [writePass_whole hx hlt]
    refine wp_bind.mpr
      (wp_tryCatch.mpr (wp_bind.mpr (Upkeep.tends_mem_bind fun _ => ⟨trivial, ?_⟩)))
    rintro r s₁ ⟨⟨-, he⟩, -⟩
    obtain ⟨⟨w₁, -, hfit, -⟩, -⟩ := he
    change (slice data lo x.length).length ≤ maxMessageSize at hfit
    rw [hlen] at hfit
    have hgo : Tends countedNet (writePass 0 data xs (lo + x.length)) (fun out _ =>
        ∀ n, out = .ok n → n = data.length ∧ ∀ y ∈ x :: xs, y.length ≤ maxMessageSize) s₁ :=
      wp_mono (ih hrest) fun out _ hq n hn =>
        ⟨(hq n hn).1, List.forall_mem_cons.mpr ⟨hfit, (hq n hn).2⟩⟩
    cases r with
    | response resp => exact hgo
    | empty => exact hgo
    | timeout => exact nofun

theorem tends_writeRemote (hsize : a.size = data.length) (hpos : 0 < data.length)
    (hlt : data.length < 2 ^ 64) (hx : Consecutive 0 a.parts data.length) :
    Tends countedNet (writeRemote a 0 data)
      (fun out _ => out = .ok () → ∀ x ∈ a.parts, x.length ≤ maxMessageSize) s := by
  unfold writeRemote
  split_ifs with hs
  · have hparts : a.parts = a.stripes := by rw [RemoteAllocation.parts, if_pos hs]
    rw [hparts] at hx ⊢
    rw [writePasses, if_pos hpos]
    refine wp_bind.mpr (wp_mono (tends_writePass hx hlt) fun out s₁ hq => ?_)
    cases out with
    | ok m =>
      obtain ⟨rfl, hfit⟩ := hq m rfl
      change wp _ _ (writePasses 0 data a.stripes data.length data.length) _ _
      rw [writePasses_done _ _ _ hpos]
      exact fun _ => hfit
    | threw e => rintro ⟨⟩
    | aborted e => rintro ⟨⟩
  · obtain ⟨p, hp, hparts⟩ := a.parts_single hs (hsize.symm ▸ hx) (hsize.symm ▸ hpos)
    rw [hparts, List.forall_mem_singleton, requirePeer, hp]
    refine wp_bind.mpr ⟨trivial, ?_⟩
    rintro peer s₁ -
    change wp _ _ (if peer.connected then _ else _) _ _
    split_ifs
    swap
    · rintro ⟨⟩
    refine wp_bind.mpr (Upkeep.tends_mem_bind fun _ => ⟨trivial, ?_⟩)
    rintro r s₂ ⟨⟨-, ⟨w₁, -, hfit, -⟩, -⟩, -⟩
    change data.length ≤ maxMessageSize at hfit
    rw [hsize]
    cases r with
    | response resp => exact fun _ => hfit
    | empty => exact fun _ => hfit
    | timeout => rintro ⟨⟩

end Transfers

/-- The sizes of blocks: not empty, and of type `size_t`. -/
def BlockSize (n : ℕ) : Prop := 0 < n ∧ n < 2 ^ 64

/-- The allocations in the table of a client with `M` bytes of cache. The pieces of those
that can be loaded came in frames. -/
structure Loadable (M : ℕ) (a : RemoteAllocation) : Prop where
  size : BlockSize a.size
  consecutive : Consecutive 0 a.parts a.size
  fits : a.size ≤ M → ∀ x ∈ a.parts, x.length ≤ maxMessageSize

theorem upkeep_countedNet (M : ℕ) : Upkeep countedNet M BlockSize (Loadable M) Accounted where
  size hm hpos hle := ⟨hpos, Nat.lt_of_le_of_lt hle hm.2⟩
  entry ha := ha.size
  perm hp ha := ha.perm hp
  ask ho ha he := ha.ask ho he
  transfer hop ha he := ha.transfer hop he
  refused ha hsize he hno := ha.refused hsize.1 he hno
  granted ha hsize he hok offset := ha.granted hsize.1 he hok offset
  free ha he := ha.free he
  skip ha he hno := absurd (ha.connected he) (by simp [hno])
  oversized hM hsize hx := ⟨hsize, hx hsize.1, fun hle => absurd hM (Nat.not_lt.mpr hle)⟩
  written hsize hn hx := by
    refine wp_mono (tends_writeRemote hsize hn.1 hn.2 (hx hn.1)) fun out _ hq hok => ?_
    exact ⟨hsize ▸ hn, hsize ▸ hx hn.1, fun _ => hq hok⟩
  loaded hl hle ha :=
    tends_readRemote hl.consecutive hl.size.1 hl.size.2 (hl.fits hle) ha
      fun _ _ hlen ha' => ⟨hlen, ha'⟩

theorem World.Started.accounted {w : World} (hw : w.Started) : Accounted [] w := by
  refine ⟨hw.sound, nofun, ?_⟩
  have hnone : w.peers.store = fun _ => none := by
    ext1 r
    obtain ⟨-, -, _, _, _, slab, -, ht⟩ := hw r.1
    simp [World.peers, ByteMap.owned, ht, PageTracker.view, PageTracker.new]
  exact hnone ▸ .empty

/-- For every sequence of calls with blocks that are not empty among daemons that are never
lost, as long as no 64-bit counter wraps around: after each call the pieces in the client's
table are the blocks that its sessions own, one for one and with the same sizes. -/
theorem reservations_agree {maxLocalBytes : ℕ} {w : World} {s : Client × World}
    {tr : List (Call × Outcome Err Value)} (hw : w.Started) (hsize : ∀ e ∈ tr, e.1.Sized BlockSize)
    (hdone : ∀ e ∈ tr, Completed e.2)
    (hrun : CallRuns (rangedEnv countedNet) (Client.new maxLocalBytes, w) tr s) :
    Corresponds s.1.held s.2.peers.store :=
  ((upkeep_countedNet maxLocalBytes).tended_new hw.accounted hsize hdone hrun).held.corresponds

section Wrapped

variable {w w' : World} {R : AList fun _ : ℕ => RemoteAllocation} {k id : ℕ} {resp : MemoryResponse}

/-- A client without a cache, after `k` handles and `id` requests. -/
def cacheless (R : AList fun _ : ℕ => RemoteAllocation) (k id : ℕ) : Client :=
  { cache := LRUCache.new 0, remoteHandles := R, nextLocalHandle := k, nextRequestId := id }

theorem runs_granted {env : (o : Effect) → Client × World → o.Res → Client × World → Prop}
    (henv : ∀ o s r R k' id' w₁, k' ≤ k + 1 → w₁ = w ∨ w₁ = w' →
      clientEnv steadyNet o s r (cacheless R k' id', w₁) → env o s r (cacheless R k' id', w₁))
    (hj : 0 ∈ w.joined) (hreq : (some resp, w') = w.request 0 (allocRequest 1 (wrap id)))
    (hok : resp.status = .ok) :
    Runs env (Call.allocate 1).exec (cacheless R k id, w) (.ok (.handle (wrap k)))
      (cacheless (R.insert (wrap k) { size := 1, remoteHandle := resp.handle, peer := some 0 })
        (k + 1) (id + 1), w') := by
  have hm := World.Moves.refl w
  -- the handle, and the size of the cache
  refine ⟨_, _, henv _ _ _ R (k + 1) id w (by omega) (.inl rfl) ⟨rfl, rfl⟩, ?_⟩
  refine ⟨_, _, henv _ _ _ R (k + 1) id w (by omega) (.inl rfl) ⟨rfl, rfl⟩, ?_⟩
  -- the peers
  refine ⟨[0], _, henv _ _ _ R (k + 1) id w (by omega) (.inl rfl) ⟨rfl, hm⟩, ?_⟩
  refine ⟨[0], _, henv _ _ _ R (k + 1) id w (by omega) (.inl rfl)
    ⟨rfl, hm, List.forall_mem_singleton.mpr hj⟩, ?_⟩
  refine ⟨{ connected := true }, _, henv _ _ _ R (k + 1) id w (by omega) (.inl rfl)
    ⟨rfl, hm, fun _ => rfl⟩, ?_⟩
  -- the request
  refine ⟨_, _, henv _ _ _ R (k + 1) (id + 1) w (by omega) (.inl rfl) ⟨rfl, rfl⟩, ?_⟩
  refine ⟨.response resp, _, henv _ _ _ R (k + 1) (id + 1) w' (by omega) (.inr rfl)
    ⟨rfl, w, hm, Nat.zero_le _, fun _ => ⟨resp, rfl, hreq⟩, fun hno => absurd hj hno⟩, ?_⟩
  cases resp
  cases hok
  exact ⟨_, _, henv _ _ _ _ (k + 1) (id + 1) w' (by omega) (.inr rfl) ⟨rfl, rfl⟩, rfl, rfl⟩

def refusedByte : Call × Outcome Err Value :=
  (.allocate 1,
    .threw (.runtimeError "Failed to allocate on any peer: out of memory on all peers"))

theorem runs_refusedByte (R : AList fun _ : ℕ => RemoteAllocation) (w : World) (id k : ℕ) :
    Runs (clientEnv steadyNet) refusedByte.1.exec (cacheless R k id, w) refusedByte.2
      (cacheless R (k + 1) id, w) := by
  have hm := World.Moves.refl w
  refine ⟨_, (cacheless R (k + 1) id, w), ⟨rfl, rfl⟩, _, (cacheless R (k + 1) id, w), ⟨rfl, rfl⟩,
    ?_⟩
  exact ⟨[0], _, ⟨rfl, hm⟩, [], _, ⟨rfl, hm, nofun⟩, rfl, rfl⟩

def oneBlock : World := (oneDaemon.request 0 (allocRequest 1 1)).2

def twoBlocks : World := (oneBlock.request 0 (allocRequest 1 2)).2

theorem oneBlock_request : (some { requestId := 1, handle := 1, message := "OK" }, oneBlock) =
    oneDaemon.request 0 (allocRequest 1 (wrap 1)) :=
  Prod.ext (by decide +kernel) rfl

theorem twoBlocks_request : (some { requestId := 2, handle := 2, message := "OK" }, twoBlocks) =
    oneBlock.request 0 (allocRequest 1 (wrap 2)) :=
  Prod.ext (by decide +kernel) rfl

theorem reservations_agree_one_block : ∃ s : Client × World,
    CallRuns (rangedEnv countedNet) (Client.new 0, oneDaemon) [(.allocate 1, .ok (.handle 1))] s ∧
    Corresponds s.1.held s.2.peers.store := by
  have hbound (w : World) (hw : w = oneDaemon ∨ w = oneBlock) (p : ℕ) :
      (w.daemons p).granted < 2 ^ 64 := by
    rcases hw with rfl | rfl
    · exact Nat.two_pow_pos 64
    · by_cases hp : p = 0
      · rw [hp]
        decide +kernel
      · simp only [oneBlock, World.request, Function.update_of_ne hp]
        exact Nat.two_pow_pos 64
  have henv (o : Effect) (s : Client × World) (r : o.Res) (R : AList fun _ : ℕ => RemoteAllocation)
      (k id : ℕ) (w : World) (hk : k ≤ 1 + 1) (hw : w = oneDaemon ∨ w = oneBlock)
      (he : clientEnv steadyNet o s r (cacheless R k id, w)) :
      rangedEnv countedNet o s r (cacheless R k id, w) := by
    have hc : InRange (cacheless R k id) :=
      ⟨Nat.le_trans hk (by decide), Nat.two_pow_pos 64⟩
    cases o with
    | mem o => exact ⟨he, hc⟩
    | net o => exact ⟨⟨he.1, he.2, hbound w hw⟩, hc⟩
  have hcall := runs_granted (R := ∅) henv (Set.mem_singleton 0) oneBlock_request rfl
  have hrun : CallRuns (rangedEnv countedNet) (Client.new 0, oneDaemon)
      [(.allocate 1, .ok (.handle 1))] _ := .cons hcall (.nil _)
  exact ⟨_, hrun, reservations_agree oneDaemon_started (by simp [Call.Sized, BlockSize])
    (by simp [Completed]) hrun⟩

/-- After `2 ^ 64` allocations the handle of a block on a peer is given out once more. Its
entry is replaced, and no entry names the block. -/
theorem block_stranded_after_wrap : ∃ w mid s, World.Started w ∧
    CallRuns (clientEnv steadyNet) (Client.new 0, w)
      ((.allocate 1, .ok (.handle 1)) :: (mid ++ [(.allocate 1, .ok (.handle 1))])) s ∧
    (∀ e ∈ mid, e = refusedByte) ∧ ¬ Corresponds s.1.held s.2.peers.store := by
  -- the number of calls stays a variable, so that nothing unfolds their list
  obtain ⟨n, hn⟩ : ∃ n, n = 2 ^ 64 - 1 := ⟨_, rfl⟩
  have hone : wrap (2 + n) = 1 := by rw [hn]; rfl
  have hfirst : Runs (clientEnv steadyNet) (Call.allocate 1).exec (Client.new 0, oneDaemon)
      (.ok (.handle 1)) _ :=
    runs_granted (fun _ _ _ _ _ _ _ _ _ he => he) (Set.mem_singleton 0) oneBlock_request rfl
  have hmid (R : AList fun _ : ℕ => RemoteAllocation) : CallRuns (clientEnv steadyNet)
      (cacheless R 2 2, oneBlock) (List.replicate n refusedByte)
      (cacheless R (2 + n) 2, oneBlock) :=
    .replicate (a := fun k => (cacheless R k 2, oneBlock)) (runs_refusedByte R oneBlock 2) n 2
  have hlast (R : AList fun _ : ℕ => RemoteAllocation) : Runs (clientEnv steadyNet)
      (Call.allocate 1).exec (cacheless R (2 + n) 2, oneBlock) (.ok (.handle (wrap (2 + n)))) _ :=
    runs_granted (fun _ _ _ _ _ _ _ _ _ he => he) (Set.mem_singleton 0) twoBlocks_request rfl
  rw [hone] at hlast
  refine ⟨oneDaemon, _, _, oneDaemon_started,
    .cons hfirst ((hmid _).append (.cons (hlast _) (.nil _))),
    fun e he => List.eq_of_mem_replicate he, fun hc => ?_⟩
  have hfirst : (twoBlocks.peers.store (0, 1)).map List.length = some 1 := by decide +kernel
  obtain ⟨x, hx, hr, -⟩ := (hc.owned (0, 1) 1).mp hfirst
  change x ∈ [⟨2, 0, 1, 0⟩] at hx
  obtain rfl := List.mem_singleton.mp hx
  exact absurd hr (by decide)

end Wrapped

end MemInfo
