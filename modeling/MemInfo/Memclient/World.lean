import MemInfo.Memclient.Operations
import MemInfo.Memoryd.Isolation

/-! # The client among daemons

Peers that run memoryd: each has a page tracker of its own, serves the client's session and
any other sessions, and never loses a connection. Among them the client finds the peers
that `servingNet` describes.
-/

namespace MemInfo

open Lib Prog

structure Daemon where
  tracker : PageTracker
  /-- The id of the client's session. -/
  session : ℕ
  /-- The allocations granted so far, to whatever session. -/
  granted : ℕ

def Daemon.serve (d : Daemon) (ev : Event) : Option MemoryResponse × Daemon :=
  let r := d.tracker.serve ev
  (r.1, { d with tracker := r.2, granted := d.granted + if isGranted (ev, r.1) then 1 else 0 })

def Daemon.Elsewhere (d d' : Daemon) : Prop :=
  ∃ evs, (∀ ev ∈ evs, 1 ≤ ev.session ∧ ev.session ≠ d.session) ∧ d' = (run Daemon.serve d evs).2

structure World where
  daemons : ℕ → Daemon
  joined : Set ℕ

def World.Moves (w w' : World) : Prop :=
  w.joined ⊆ w'.joined ∧ ∀ p, (w.daemons p).Elsewhere (w'.daemons p)

theorem World.Moves.refl (w : World) : w.Moves w := ⟨subset_rfl, fun _ => ⟨[], nofun, rfl⟩⟩

/-- A request of the client, processed by the daemon of peer `p`. -/
def World.request (w : World) (p : ℕ) (req : MemoryRequest) : Option MemoryResponse × World :=
  let r := (w.daemons p).serve (.request (w.daemons p).session req)
  (r.1, { w with daemons := Function.update w.daemons p r.2 })

/-- The daemons answer every request whose frame fits. The readings of the memory monitor,
the order of the candidates and the capacities that discovery reports are left open. -/
def daemonNet (maxPayload : ℕ) : (o : NetOp) → World → o.Res → World → Prop
  | .call p req, w, r, w' => ∃ w₁, w.Moves w₁ ∧
      (p ∈ w₁.joined ∧ FrameFits maxPayload req →
        ∃ resp, r = .response resp ∧ (some resp, w') = w₁.request p req) ∧
      (¬ (p ∈ w₁.joined ∧ FrameFits maxPayload req) → w' = w₁)
  | .candidates, w, r, w' => w.Moves w' ∧ ∀ p ∈ r, p ∈ w'.joined
  | .peer p, w, r, w' => w.Moves w' ∧ (p ∈ w'.joined → r.connected = true)
  | _, w, _, w' => w.Moves w'

def World.peers (w : World) : Peers where
  store r := ByteMap.owned (w.daemons r.1).tracker.view (w.daemons r.1).session r.2
  joined := w.joined

structure Daemon.Sound (d : Daemon) : Prop where
  reached : d.tracker.Reached d.granted
  allOwned : ByteMap.AllOwned d.tracker.view
  session : d.session ≠ 0

namespace ByteMap

variable {m m' : ByteMap} {s h offset n : ℕ} {what : String}

/-- If every block has an owner, the accesses of a session that are not refused are those
within what it owns. -/
theorem refusal_cases (ho : AllOwned m) (s h offset n : ℕ) (what : String) :
    (∃ bs, m.owned s h = some bs ∧ offset + n ≤ bs.length ∧
      m.refusal h offset n s what = none) ∨
    (∀ bs, m.owned s h = some bs → ¬ offset + n ≤ bs.length) ∧
      ∃ e, m.refusal h offset n s what = some e := by
  cases hr : m.refusal h offset n s what with
  | none =>
    obtain ⟨b, hm, hp, hle⟩ := refusal_eq_none hr
    exact .inl ⟨b.bytes, by rw [owned_of_some hm, if_pos (owner_eq ho hm hp)], hle, rfl⟩
  | some e =>
    refine .inr ⟨fun bs hb hle => ?_, e, rfl⟩
    obtain ⟨b, hm, hb⟩ := Option.bind_eq_some_iff.mp hb
    split_ifs at hb with howner
    obtain rfl := Option.some.inj hb
    simp [refusal, hm, Block.Permits, howner, hle] at hr

theorem bytes_of_owned {bs : List Byte} (hb : m.owned s h = some bs) :
    m.bytes h = bs := by
  obtain ⟨b, hm, hb⟩ := Option.bind_eq_some_iff.mp hb
  split_ifs at hb
  simpa [bytes, hm] using hb

theorem owned_update (v : Option Block) (k : ℕ) :
    owned (Function.update m h v) s k =
      if k = h then v.bind fun b => if b.owner = s then some b.bytes else none
      else m.owned s k := by
  unfold owned
  rw [Function.update_apply]
  split_ifs <;> rfl

theorem owned_setBytes {bs : List Byte} (hb : m.owned s h = some bs) (ds : List Byte) (k : ℕ) :
    owned (m.setBytes h ds) s k = if k = h then some ds else m.owned s k := by
  obtain ⟨b, hm, hb⟩ := Option.bind_eq_some_iff.mp hb
  split_ifs at hb with howner
  simp [setBytes, owned_update, hm, howner]

end ByteMap

section Serving

variable {maxPayload p s : ℕ} {m m' : ByteMap} {st st' : Stores} {req : MemoryRequest}
  {r : MemoryResponse}

/-- The blocks that a session owns on peer `p` are served as `Served` says. -/
theorem ByteMap.Answers.served (ha : m.Answers s req r m') (ho : AllOwned m)
    (hreq : Proper maxPayload req) (hmax : maxPayload ≤ maxMessageSize)
    (hst : ∀ h, st (p, h) = m.owned s h) (hst' : ∀ h, st' (p, h) = m'.owned s h)
    (hother : ∀ q h, q ≠ p → st' (q, h) = st (q, h)) : Served st p req r st' := by
  -- a change of the block of one handle
  have hupdate (h : ℕ) (v : Option (List Byte))
      (hm : ∀ k, m'.owned s k = if k = h then v else m.owned s k) :
      st' = Function.update st (p, h) v := by
    ext1 ⟨q, k⟩
    rw [Function.update_apply]
    by_cases hq : q = p
    · subst hq
      rw [hst', hm, hst]
      simp only [Prod.mk.injEq, true_and]
    · rw [if_neg (fun he => hq (Prod.mk.inj he).1), hother q k hq]
  have hsame (hm : m' = m) : st' = st := by
    ext1 ⟨q, k⟩
    by_cases hq : q = p
    · rw [hq, hst', hm, hst]
    · exact hother q k hq
  rw [Answers, if_neg (not_not.mpr hreq.version)] at ha
  unfold Served
  cases hop : req.op with
  | alloc =>
    simp only [hop, if_neg (hreq.size (.inl hop))] at ha
    dsimp only
    obtain ⟨rfl, hm⟩ | ⟨h, -, hfree, rfl, rfl⟩ := ha
    · exact .inl ⟨status_failure req _, hsame hm⟩
    · refine .inr ⟨rfl, ?_, hupdate h _ fun k => ?_⟩
      · exact (hst h).trans (by simp [owned, hfree])
      · simp [owned_update]
  | free =>
    simp only [hop] at ha
    dsimp only
    rw [hst]
    obtain ⟨bs, hb, -, hf⟩ | ⟨hout, e, hf⟩ := refusal_cases ho s req.handle 0 0 ""
    · simp only [hf] at ha
      obtain ⟨rfl, rfl⟩ := ha
      exact ⟨by simp [hb], hupdate _ _ fun k => by simp [owned_update]⟩
    · simp only [hf] at ha
      obtain ⟨rfl, hm⟩ := ha
      have hnone : m.owned s req.handle = none :=
        Option.eq_none_iff_forall_ne_some.mpr fun bs hb => hout bs hb (Nat.zero_le _)
      refine ⟨by simp [hnone, status_failure], hupdate _ _ fun k => ?_⟩
      rw [hm]
      split_ifs with hk
      · rw [hk, hnone]
      · rfl
  | write =>
    obtain ⟨data, hd, hne, hcrc⟩ := hreq.data hop
    simp only [hop, hd, hcrc, ne_eq, not_true_eq_false, if_false, hne] at ha
    dsimp only
    rw [hst, hd]
    obtain ⟨bs, hb, hle, hf⟩ | ⟨hout, e, hf⟩ :=
      refusal_cases ho s req.handle req.offset data.length "Write exceeds allocation size"
    · simp only [hf, bytes_of_owned hb] at ha
      obtain ⟨rfl, rfl⟩ := ha
      rw [hb]
      dsimp only
      rw [if_pos hle]
      exact ⟨rfl, hupdate _ _ (owned_setBytes hb _)⟩
    · simp only [hf] at ha
      obtain ⟨rfl, hm⟩ := ha
      cases hb : m.owned s req.handle with
      | none => exact ⟨status_failure req e, hsame hm⟩
      | some bs =>
        dsimp only
        rw [if_neg (hout bs hb)]
        exact ⟨status_failure req e, hsame hm⟩
  | read =>
    have hsize := hreq.size (.inr hop)
    have hfit : ¬ req.size > maxMessageSize :=
      Nat.not_lt.mpr (Nat.le_trans (hreq.fits.2 hop) hmax)
    simp only [hop, if_neg hfit, if_neg hsize] at ha
    obtain ⟨hm, ha⟩ := ha
    dsimp only
    refine ⟨hsame hm, ?_⟩
    rw [hst]
    obtain ⟨bs, hb, hle, hf⟩ | ⟨hout, e, hf⟩ :=
      refusal_cases ho s req.handle req.offset req.size "Read exceeds allocation size"
    · simp only [hf, bytes_of_owned hb] at ha
      subst ha
      have hlen : 0 < (slice bs req.offset req.size).length := by
        rw [length_slice]
        omega
      rw [hb]
      dsimp only
      rw [if_pos hle]
      exact ⟨rfl, if_pos hlen⟩
    · simp only [hf] at ha
      subst ha
      cases hb : m.owned s req.handle with
      | none => exact status_failure req e
      | some bs =>
        dsimp only
        rw [if_neg (hout bs hb)]
        exact status_failure req e
  | ping =>
    simp only [hop] at ha
    exact hsame ha.2
  | other code =>
    simp only [hop] at ha
    exact hsame ha.2

theorem ByteMap.Serves.owned_other {ev : Event} {o : Option MemoryResponse} (ho : AllOwned m)
    (hsv : m.Serves ev o m') (hne : ev.session ≠ s) (h : ℕ) : m'.owned s h = m.owned s h := by
  cases ev with
  | request s' req =>
    obtain ⟨resp, -, ha⟩ := hsv
    exact ha.outcome.owned_other ho (Ne.symm hne)
  | disconnect s' ord =>
    obtain ⟨-, rfl⟩ := hsv
    split_ifs
    · rfl
    · rw [owned_filter]
      exact if_neg (Ne.symm hne)

namespace Daemon

variable {d d' : Daemon}

theorem Sound.serve {ev : Event} (hd : d.Sound) (hs : ev.session ≠ 0)
    (hb : (d.serve ev).2.granted < 2 ^ 64) :
    (d.serve ev).2.Sound ∧
      ByteMap.Serves d.tracker.view ev (d.serve ev).1 (d.serve ev).2.tracker.view := by
  have hsound := PageTracker.serve_sound hd.reached ev
  have hsv := hsound.serves hb
  exact ⟨⟨hsound.reached, hsv.allOwned hs hd.allOwned, hd.session⟩, hsv⟩

theorem granted_run_le (d : Daemon) (evs : List Event) :
    d.granted ≤ (run serve d evs).2.granted := by
  induction evs generalizing d with
  | nil => exact Nat.le_refl _
  | cons ev evs ih => exact Nat.le_trans (Nat.le_add_right _ _) (ih (d.serve ev).2)

theorem Sound.elsewhere (hd : d.Sound) (he : d.Elsewhere d') (hb : d'.granted < 2 ^ 64) :
    d'.Sound ∧ d'.session = d.session ∧
      ∀ h, ByteMap.owned d'.tracker.view d'.session h =
        ByteMap.owned d.tracker.view d.session h := by
  obtain ⟨evs, hs, rfl⟩ := he
  induction evs generalizing d with
  | nil => exact ⟨hd, rfl, fun _ => rfl⟩
  | cons ev evs ih =>
    obtain ⟨hpos, hne⟩ := hs ev List.mem_cons_self
    have hb₁ := Nat.lt_of_le_of_lt ((d.serve ev).2.granted_run_le evs) hb
    obtain ⟨hd₁, hsv⟩ := hd.serve (Nat.one_le_iff_ne_zero.mp hpos) hb₁
    obtain ⟨hd', hs', hown⟩ := ih hd₁ (fun e he => hs e (List.mem_cons_of_mem _ he)) hb
    exact ⟨hd', hs', fun h => (hown h).trans (hsv.owned_other hd.allOwned hne h)⟩

end Daemon

/-- The bounds of the 64-bit counters: the client's handles and cached bytes, and the
handles of each daemon. -/
def InBounds (s : Client × World) : Prop :=
  InRange s.1 ∧ ∀ p, (s.2.daemons p).granted < 2 ^ 64

def daemonEnv (maxPayload : ℕ) : (o : Effect) → Client × World → o.Res → Client × World → Prop :=
  clientEnv (daemonNet maxPayload)

/-- The client among daemons, as long as no counter wraps around. -/
def boundedEnv (maxPayload : ℕ) (o : Effect) (s : Client × World) (r : o.Res)
    (s' : Client × World) : Prop :=
  daemonEnv maxPayload o s r s' ∧ InBounds s'

def World.Sound (w : World) : Prop := ∀ p, (w.daemons p).Sound

namespace World

variable {w w' : World}

theorem Sound.moves (hw : w.Sound) (hm : w.Moves w') (hb : ∀ p, (w'.daemons p).granted < 2 ^ 64) :
    w'.Sound ∧ w'.peers.store = w.peers.store := by
  refine ⟨fun p => ((hw p).elsewhere (hm.2 p) (hb p)).1, ?_⟩
  ext1 ⟨p, h⟩
  exact ((hw p).elsewhere (hm.2 p) (hb p)).2.2 h

theorem granted_le_request (w : World) (p : ℕ) (req : MemoryRequest) (q : ℕ) :
    (w.daemons q).granted ≤ ((w.request p req).2.daemons q).granted := by
  by_cases hq : q = p
  · subst hq
    simp only [request, Function.update_self]
    exact Nat.le_add_right _ _
  · simp only [request, Function.update_of_ne hq]
    exact Nat.le_refl _

/-- What a request does to the daemon that serves it. -/
theorem Sound.answered {resp : MemoryResponse} (hw : w.Sound)
    (hreq : (some resp, w') = w.request p req) (hb : ∀ p, (w'.daemons p).granted < 2 ^ 64) :
    w'.Sound ∧ (∀ q ≠ p, w'.daemons q = w.daemons q) ∧
      (w'.daemons p).session = (w.daemons p).session ∧
      ByteMap.Answers (w.daemons p).tracker.view (w.daemons p).session req resp
        (w'.daemons p).tracker.view := by
  obtain ⟨hresp, rfl⟩ : some resp = (w.request p req).1 ∧ w' = (w.request p req).2 :=
    Prod.mk.inj hreq
  have hb := hb p
  have hself : (w.request p req).2.daemons p =
      ((w.daemons p).serve (.request (w.daemons p).session req)).2 := Function.update_self ..
  have hother (q : ℕ) (hq : q ≠ p) : (w.request p req).2.daemons q = w.daemons q :=
    Function.update_of_ne hq ..
  rw [hself] at hb ⊢
  have hs : (Event.request (w.daemons p).session req).session ≠ 0 := (hw p).session
  obtain ⟨hd, resp', hr, ha⟩ := (hw p).serve hs hb
  obtain rfl := Option.some.inj (hresp.trans hr)
  refine ⟨fun q => ?_, hother, rfl, ha⟩
  by_cases hq : q = p
  · rw [hq, hself]
    exact hd
  · rw [hother q hq]
    exact hw q

theorem Sound.request {resp : MemoryResponse} (hw : w.Sound) (hmax : maxPayload ≤ maxMessageSize)
    (hreq : (some resp, w') = w.request p req) (hb : ∀ p, (w'.daemons p).granted < 2 ^ 64) :
    w'.Sound ∧ w'.joined = w.joined ∧
      (Proper maxPayload req → Served w.peers.store p req resp w'.peers.store) := by
  obtain ⟨hw', hother, hsession, ha⟩ := hw.answered hreq hb
  have hj : w' = (w.request p req).2 := (Prod.mk.inj hreq).2
  refine ⟨hw', by rw [hj]; rfl, fun hproper => ?_⟩
  apply ha.served (hw p).allOwned hproper hmax
  · exact fun _ => rfl
  · intro h
    simp only [peers, hsession]
  · intro q h hq
    simp only [peers, hother q hq]

end World

theorem boundedEnv_serving {o : Effect} {s s' : Client × World} {r : o.Res}
    (hmax : maxPayload ≤ maxMessageSize) (hw : s.2.Sound) (he : boundedEnv maxPayload o s r s') :
    s'.2.Sound ∧ servingEnv maxPayload o (s.1, s.2.peers) r (s'.1, s'.2.peers) := by
  obtain ⟨he, hrange, hb⟩ := he
  obtain ⟨c, w⟩ := s
  obtain ⟨c', w'⟩ := s'
  cases o with
  | mem o =>
    obtain ⟨hr, rfl⟩ := he
    exact ⟨hw, ⟨hr, rfl⟩, hrange⟩
  | net o =>
    obtain ⟨rfl, hn⟩ := he
    -- most questions leave the daemons to the other sessions
    have hidle (hm : w.Moves w') : w'.Sound ∧ w.peers.joined ⊆ w'.peers.joined ∧
        w'.peers.store = w.peers.store := by
      obtain ⟨hw', hs⟩ := hw.moves hm hb
      exact ⟨hw', hm.1, hs⟩
    cases o with
    | availableBytes =>
      obtain ⟨hw', hj, hs⟩ := hidle hn
      exact ⟨hw', ⟨rfl, hj, hs⟩, hrange⟩
    | connectedPeers =>
      obtain ⟨hw', hj, hs⟩ := hidle hn
      exact ⟨hw', ⟨rfl, hj, hs⟩, hrange⟩
    | waitForConnectedPeer =>
      obtain ⟨hw', hj, hs⟩ := hidle hn
      exact ⟨hw', ⟨rfl, hj, hs⟩, hrange⟩
    | candidates =>
      obtain ⟨hw', hj, hs⟩ := hidle hn.1
      exact ⟨hw', ⟨rfl, hj, hs, hn.2⟩, hrange⟩
    | peer p =>
      obtain ⟨hw', hj, hs⟩ := hidle hn.1
      exact ⟨hw', ⟨rfl, hj, hs, fun hp => hn.2 (hj hp)⟩, hrange⟩
    | call p req =>
      obtain ⟨w₁, hm, hyes, hno⟩ := hn
      by_cases hp : p ∈ w₁.joined ∧ FrameFits maxPayload req
      · obtain ⟨resp, rfl, hreq⟩ := hyes hp
        have hw₂ : w' = (w₁.request p req).2 := (Prod.mk.inj hreq).2
        have hb₁ : ∀ q, (w₁.daemons q).granted < 2 ^ 64 := fun q =>
          Nat.lt_of_le_of_lt (w₁.granted_le_request p req q) (hw₂ ▸ hb q)
        obtain ⟨hw₁, hs₁⟩ := hw.moves hm hb₁
        obtain ⟨hw', hj, hserved⟩ := hw₁.request hmax hreq hb
        refine ⟨hw', ⟨rfl, ?_, fun _ hproper => ⟨resp, rfl, ?_⟩⟩, hrange⟩
        · intro q hq
          exact hj.symm.subset (hm.1 hq)
        · exact hs₁ ▸ hserved hproper
      · obtain rfl := hno hp
        obtain ⟨hw', hj, -⟩ := hidle hm
        exact ⟨hw', ⟨rfl, hj, fun hp' hproper => absurd ⟨hj hp', hproper.fits⟩ hp⟩, hrange⟩

end Serving

end MemInfo
