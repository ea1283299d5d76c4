import Mathlib.Data.List.Induction
import MemInfo.Memclient.Requests

/-! # Requests to different peers

A peer that loses its connection fails the requests of all peers, because the table of pending
requests does not say who was asked. Requests are kept apart exactly as long as no other peer
has one in flight when that happens.
-/

namespace MemInfo

open Lib

namespace Requests

section Routing

variable {decode : List Byte → Option MemoryResponse} {r r' : Requests} {n : ℕ} {P : ℕ → Prop}
  [DecidablePred P] {d : Delivery}

/-- A request that was sent to a peer, and neither answered nor given up since. -/
def InFlight (decode : List Byte → Option MemoryResponse) (events : List RequestEvent)
    (peer requestId : ℕ) : Prop :=
  ∃ before after, events = before ++ .call peer requestId :: after ∧
    requestId ∈ (run decode {} before).drawn ∧
    (∀ p bytes resp, .frame p bytes ∈ after → decode bytes = some resp →
      resp.requestId ≠ requestId) ∧
    ∀ p, .disconnect p ∉ after

theorem inFlight_nil {peer id : ℕ} : ¬ InFlight decode [] peer id := by
  rintro ⟨before, after, h, -⟩
  simp at h

theorem inFlight_concat {events : List RequestEvent} {e : RequestEvent} {peer id : ℕ} :
    InFlight decode (events ++ [e]) peer id ↔
      (e = .call peer id ∧ id ∈ (run decode {} events).drawn) ∨
        InFlight decode events peer id ∧
          (∀ p bytes resp, e = .frame p bytes → decode bytes = some resp → resp.requestId ≠ id) ∧
            ∀ p, e ≠ .disconnect p := by
  constructor
  · rintro ⟨before, after, heq, hdrawn, hframe, hdisc⟩
    rcases List.eq_nil_or_concat after with rfl | ⟨after, x, rfl⟩
    · obtain ⟨rfl, he⟩ := List.append_inj' heq rfl
      exact .inl ⟨(List.cons.inj he).1, hdrawn⟩
    · rw [List.concat_eq_append, ← List.cons_append, ← List.append_assoc] at heq
      rw [List.concat_eq_append] at hframe hdisc
      obtain ⟨rfl, he⟩ := List.append_inj' heq rfl
      obtain rfl := (List.cons.inj he).1
      refine .inr ⟨⟨before, after, rfl, hdrawn, ?_, ?_⟩, ?_, ?_⟩
      · exact fun p b resp hm => hframe p b resp (List.mem_append_left _ hm)
      · exact fun p hm => hdisc p (List.mem_append_left _ hm)
      · rintro p b resp rfl
        exact hframe p b resp (List.mem_append_right _ List.mem_cons_self)
      · rintro p rfl
        exact hdisc p (List.mem_append_right _ List.mem_cons_self)
  · rintro (⟨rfl, hdrawn⟩ | ⟨⟨before, after, rfl, hdrawn, hframe, hdisc⟩, hf, hd⟩)
    · exact ⟨events, [], rfl, hdrawn, by simp, by simp⟩
    · refine ⟨before, after ++ [e], by simp, hdrawn, ?_, ?_⟩
      · intro p b resp hm
        rcases List.mem_append.mp hm with hm | hm
        · exact hframe p b resp hm
        · exact hf p b resp (List.mem_singleton.mp hm).symm
      · intro p hm
        rcases List.mem_append.mp hm with hm | hm
        · exact hdisc p hm
        · exact hd p (List.mem_singleton.mp hm).symm

def Waits (r : Requests) (peer id : ℕ) : Prop :=
  ∃ i c, r.pendingRequests.lookup id = some i ∧ r.contexts[i]? = some c ∧ c.peer = peer

theorem Inv.not_mem_drawn (h : Inv decode n r) {i : ℕ} {c : RequestContext}
    (hc : r.contexts[i]? = some c) : c.requestId ∉ r.drawn := by
  intro hm
  have hmem := List.mem_map_of_mem (f := RequestContext.requestId) (List.mem_of_getElem? hc)
  exact (List.nodup_append.mp h.ids).2.2 _ hmem _ hm rfl

theorem Inv.waits_settles (h : Inv decode n r) (hs : Settles P d r r') {peer id : ℕ} :
    r'.Waits peer id ↔ r.Waits peer id ∧ ¬ P id := by
  constructor
  · rintro ⟨i, c', hl, hc', rfl⟩
    rw [hs.pending] at hl
    split_ifs at hl with hp
    obtain ⟨c, hc, ⟨-, -, rfl⟩ | ⟨-, rfl⟩⟩ := hs.cases hc'
    · exact ⟨⟨i, c, hl, hc, rfl⟩, hp⟩
    · exact ⟨⟨i, c', hl, hc, rfl⟩, hp⟩
  · rintro ⟨⟨i, c, hl, hc, rfl⟩, hp⟩
    obtain ⟨c₀, hc₀, rfl, -⟩ := h.pending _ _ hl
    rw [hc] at hc₀
    obtain rfl := Option.some.inj hc₀
    refine ⟨i, c, by rw [hs.pending, if_neg hp, hl], ?_, rfl⟩
    rw [hs.contexts, hc, Option.map_some, if_neg fun hcon => hp hcon.2]

theorem Inv.waits_step (h : Inv decode n r) (e : RequestEvent) {peer id : ℕ} :
    (r.step decode e).Waits peer id ↔
      (e = .call peer id ∧ id ∈ r.drawn) ∨ r.Waits peer id ∧
        (∀ p bytes resp, e = .frame p bytes → decode bytes = some resp → resp.requestId ≠ id) ∧
          ∀ p, e ≠ .disconnect p := by
  cases e with
  | draw =>
    rw [or_iff_right (by simp), and_iff_left (by simp)]
    rfl
  | call p k =>
    rw [and_iff_left (show _ ∧ _ by simp), Requests.step]
    split_ifs with hk
    · constructor
      · rintro ⟨i, c, hl, hc, hp⟩
        rw [Requests.register, Dict.lookup_insert_iff] at hl
        split_ifs at hl with hid
        · obtain rfl := Option.some.inj hl
          rw [Requests.register, List.getElem?_concat_length] at hc
          obtain rfl := Option.some.inj hc
          exact .inl ⟨by rw [hid, ← hp], hid ▸ hk⟩
        · obtain ⟨c₀, hc₀, -⟩ := h.pending _ _ hl
          have hc' : (r.contexts ++ [{ requestId := k, peer := p }])[i]? = some c := hc
          rw [List.getElem?_append_left (List.getElem?_eq_some_iff.mp hc₀).1] at hc'
          exact .inr ⟨i, c, hl, hc', hp⟩
      · rintro (⟨he, -⟩ | ⟨i, c, hl, hc, hp⟩)
        · obtain ⟨rfl, rfl⟩ := RequestEvent.call.inj he
          refine ⟨r.contexts.length, { requestId := k, peer := p }, ?_, ?_, rfl⟩
          · exact AList.lookup_insert _
          · exact List.getElem?_concat_length
        · have hid : id ≠ k := by
            rintro rfl
            obtain ⟨c₀, hc₀, rfl, -⟩ := h.pending _ _ hl
            exact h.not_mem_drawn hc₀ hk
          refine ⟨i, c, ?_, ?_, hp⟩
          · exact (AList.lookup_insert_ne hid).trans hl
          · exact (List.getElem?_append_left (List.getElem?_eq_some_iff.mp hc).1).trans hc
    · rw [or_iff_right]
      rintro ⟨he, hid⟩
      exact hk ((RequestEvent.call.inj he).2 ▸ hid)
  | frame p bytes =>
    rw [or_iff_right (by simp), Requests.step]
    cases hd : decode bytes with
    | none =>
      rw [Requests.dispatch, hd, and_iff_left]
      refine ⟨?_, by simp⟩
      rintro p' b' resp he hb
      obtain ⟨rfl, rfl⟩ := RequestEvent.frame.inj he
      rw [hd] at hb
      cases hb
    | some resp =>
      rw [h.waits_settles (h.dispatch hd p)]
      apply and_congr_right'
      constructor
      · intro hne
        refine ⟨?_, by simp⟩
        rintro p' b' resp' he hb hid
        obtain ⟨rfl, rfl⟩ := RequestEvent.frame.inj he
        rw [hd] at hb
        obtain rfl := Option.some.inj hb
        exact hne hid.symm
      · exact fun hall hid => hall.1 p bytes resp rfl hd hid.symm
  | disconnect p =>
    rw [or_iff_right (by simp), Requests.step, h.waits_settles (h.failPendingRequests p)]
    simp
  | wake i =>
    rw [or_iff_right (by simp), and_iff_left (by simp), Requests.step]
    constructor
    · rintro ⟨j, c', hl, hc', hp⟩
      obtain ⟨f, hf, -⟩ := getElem?_wake (r := r) i j
      rw [hf, Option.map_eq_some_iff] at hc'
      obtain ⟨c, hc, rfl⟩ := hc'
      exact ⟨j, c, hl, hc, hp⟩
    · rintro ⟨j, c, hl, hc, hp⟩
      obtain ⟨f, hf, -⟩ := getElem?_wake (r := r) i j
      exact ⟨j, { c with caller := f c }, hl, by rw [hf, hc, Option.map_some], hp⟩

theorem inFlight_iff {events : List RequestEvent} (hn : draws events < 2 ^ 64) {peer id : ℕ} :
    InFlight decode events peer id ↔ (run decode {} events).Waits peer id := by
  induction events using List.reverseRecOn with
  | nil =>
    apply iff_of_false inFlight_nil
    rintro ⟨i, c, hl, -⟩
    simp at hl
  | append_singleton es e ih =>
    have hn' : draws es < 2 ^ 64 := by
      rw [draws_append] at hn
      omega
    rw [inFlight_concat, ih hn', run_append, run_cons, run_nil, (inv_run decode hn').waits_step]

def Honest (decode : List Byte → Option MemoryResponse) (events : List RequestEvent) : Prop :=
  ∀ before p bytes after resp, events = before ++ .frame p bytes :: after →
    decode bytes = some resp → ∀ q, InFlight decode before q resp.requestId → q = p

/-- When a peer disconnects, only requests to it are in flight. -/
def Alone (decode : List Byte → Option MemoryResponse) (events : List RequestEvent) : Prop :=
  ∀ before p after, events = before ++ .disconnect p :: after →
    ∀ q id, InFlight decode before q id → q = p

/-- A disconnect fails only the requests to the peer that is gone, and the answer of a peer
that stays reaches the one who asked. -/
structure Isolated (decode : List Byte → Option MemoryResponse) (events : List RequestEvent) :
    Prop where
  failed : ∀ c ∈ (run decode {} events).contexts, ∀ p, .empty p ∈ c.values → c.peer = p
  answered : ∀ before peer id during bytes resp after,
    events = before ++ .call peer id :: (during ++ .frame peer bytes :: after) →
    id ∈ (run decode {} before).drawn → .disconnect peer ∉ during →
    decode bytes = some resp → resp.requestId = id →
    ∃ c answer, (run decode {} events).contexts[(run decode {} before).contexts.length]? = some c ∧
      c.requestId = id ∧ c.peer = peer ∧ c.values = [.frame peer answer] ∧
      Answers decode id (.frame peer answer)

theorem Honest.of_append {es fs : List RequestEvent} (h : Honest decode (es ++ fs)) :
    Honest decode es := by
  rintro before p bytes after resp rfl
  exact h before p bytes (after ++ fs) resp (by simp)

theorem Alone.of_append {es fs : List RequestEvent} (h : Alone decode (es ++ fs)) :
    Alone decode es := by
  rintro before p after rfl
  exact h before p (after ++ fs) (by simp)

theorem failed_of_alone {events : List RequestEvent} (hn : draws events < 2 ^ 64)
    (ha : Alone decode events) :
    ∀ c ∈ (run decode {} events).contexts, ∀ p, .empty p ∈ c.values → c.peer = p := by
  induction events using List.reverseRecOn with
  | nil => simp
  | append_singleton es e ih =>
    have hn' : draws es < 2 ^ 64 := by
      rw [draws_append] at hn
      omega
    have hinv := inv_run decode hn'
    replace ih := ih hn' ha.of_append
    intro c' hc' q hq
    rw [run_append, run_cons, run_nil] at hc'
    obtain ⟨j, hj⟩ := List.mem_iff_getElem?.mp hc'
    cases e with
    | draw => exact ih c' hc' q hq
    | call p k =>
      rw [Requests.step] at hc'
      split_ifs at hc'
      · rcases List.mem_append.mp hc' with hc' | hc'
        · exact ih c' hc' q hq
        · obtain rfl := List.mem_singleton.mp hc'
          cases hq
      · exact ih c' hc' q hq
    | frame p bytes =>
      rw [Requests.step] at hj
      cases hd : decode bytes with
      | none =>
        rw [Requests.dispatch, hd] at hj
        exact ih c' (List.mem_of_getElem? hj) q hq
      | some resp =>
        obtain ⟨c, hc, ⟨-, -, rfl⟩ | ⟨-, rfl⟩⟩ := (hinv.dispatch hd p).cases hj
        · simp at hq
        · exact ih c' (List.mem_of_getElem? hc) q hq
    | disconnect p =>
      obtain ⟨c, hc, ⟨hl, -, rfl⟩ | ⟨-, rfl⟩⟩ := (hinv.failPendingRequests p).cases hj
      · obtain rfl : q = p := by simpa using hq
        exact ha es q [] rfl _ c.requestId ((inFlight_iff hn').mpr ⟨j, c, hl, hc, rfl⟩)
      · exact ih c' (List.mem_of_getElem? hc) q hq
    | wake i =>
      obtain ⟨f, hf, -⟩ := getElem?_wake (r := run decode {} es) i j
      rw [Requests.step, hf, Option.map_eq_some_iff] at hj
      obtain ⟨c, hc, rfl⟩ := hj
      exact ih c (List.mem_of_getElem? hc) q hq

theorem Inv.values_eq (h : Inv decode n r) {c : RequestContext} (hc : c ∈ r.contexts)
    (hv : [d] <+: c.values) : c.values = [d] := by
  rcases h.values c hc with h₀ | ⟨d', h₁, -⟩
  · rw [h₀] at hv
    simp at hv
  · rw [h₁, List.cons_prefix_cons] at hv
    rw [h₁, hv.1]

structure Asked (r : Requests) (i peer id : ℕ) (c : RequestContext) : Prop where
  context : r.contexts[i]? = some c
  requestId : c.requestId = id
  sentTo : c.peer = peer
  values : r.pendingRequests.lookup id = some i ∧ c.values = [] ∨
    ∃ answer, c.values = [.frame peer answer]

theorem asked_run {before during : List RequestEvent} {peer id : ℕ}
    (hn : draws (before ++ .call peer id :: during) < 2 ^ 64)
    (hh : Honest decode (before ++ .call peer id :: during))
    (ha : Alone decode (before ++ .call peer id :: during))
    (hid : id ∈ (run decode {} before).drawn) (hd : .disconnect peer ∉ during) :
    ∃ c, Asked (run decode {} (before ++ .call peer id :: during))
      (run decode {} before).contexts.length peer id c := by
  induction during using List.reverseRecOn with
  | nil =>
    refine ⟨{ requestId := id, peer }, ?_, rfl, rfl, .inl ⟨?_, rfl⟩⟩
    all_goals
      rw [run_append, run_cons, run_nil, Requests.step, if_pos hid, Requests.register]
    · exact List.getElem?_concat_length
    · exact AList.lookup_insert _
  | append_singleton es e ih =>
    rw [← List.cons_append, ← List.append_assoc] at hn hh ha ⊢
    have hn' : draws (before ++ .call peer id :: es) < 2 ^ 64 := by
      rw [draws_append (_ ++ _)] at hn
      omega
    obtain ⟨c, hc⟩ := ih hn' hh.of_append ha.of_append
      fun hm => hd (List.mem_append_left _ hm)
    have hinv := inv_run decode hn'
    rw [run_append (before ++ _), run_cons, run_nil]
    rcases hc.values with ⟨hl, hv⟩ | ⟨answer, hv⟩
    swap
    · obtain ⟨c', hc', hid', hp', hv'⟩ := hinv.step_context e hc.context
      refine ⟨c', hc', hid'.trans hc.requestId, hp'.trans hc.sentTo, .inr ⟨answer, ?_⟩⟩
      have hinv' := inv_run decode hn
      rw [run_append (before ++ _), run_cons, run_nil] at hinv'
      exact hinv'.values_eq (List.mem_of_getElem? hc') (hv ▸ hv')
    have hflight := (inFlight_iff hn').mpr ⟨_, c, hl, hc.context, hc.sentTo⟩
    cases e with
    | draw => exact ⟨c, hc.context, hc.requestId, hc.sentTo, hc.values⟩
    | call p k =>
      rw [Requests.step]
      split_ifs with hk
      · have hne : id ≠ k := by
          rintro rfl
          exact hinv.not_mem_drawn hc.context (hc.requestId.symm ▸ hk)
        refine ⟨c, ?_, hc.requestId, hc.sentTo, .inl ⟨?_, hv⟩⟩
        · rw [Requests.register,
            List.getElem?_append_left (List.getElem?_eq_some_iff.mp hc.context).1]
          exact hc.context
        · exact (AList.lookup_insert_ne hne).trans hl
      · exact ⟨c, hc⟩
    | frame p bytes =>
      rw [Requests.step]
      cases hdec : decode bytes with
      | none =>
        rw [Requests.dispatch, hdec]
        exact ⟨c, hc⟩
      | some resp =>
        have hs := hinv.dispatch hdec p
        by_cases hr : resp.requestId = id
        · obtain rfl : peer = p := hh _ p bytes [] resp rfl hdec peer (hr ▸ hflight)
          refine ⟨{ c with values := [.frame peer bytes] }, ?_, hc.requestId, hc.sentTo,
            .inr ⟨bytes, rfl⟩⟩
          rw [hs.contexts, hc.context, Option.map_some, hc.requestId, if_pos ⟨hl, hr.symm⟩]
        · refine ⟨c, ?_, hc.requestId, hc.sentTo, .inl ⟨?_, hv⟩⟩
          · rw [hs.contexts, hc.context, Option.map_some, hc.requestId,
              if_neg fun hcon => hr hcon.2.symm]
          · rw [hs.pending, if_neg fun hcon => hr hcon.symm, hl]
    | disconnect p =>
      obtain rfl := ha _ p [] rfl peer id hflight
      exact absurd (List.mem_append_right _ List.mem_cons_self) hd
    | wake i =>
      obtain ⟨f, hf, -⟩ := getElem?_wake (r := run decode {} (before ++ .call peer id :: es)) i
        (run decode {} before).contexts.length
      refine ⟨{ c with caller := f c }, ?_, hc.requestId, hc.sentTo, .inl ⟨hl, hv⟩⟩
      rw [Requests.step, hf, hc.context, Option.map_some]

/-- The answers reach their requests, and only lost requests fail, exactly if no peer
disconnects while another has a request to answer. -/
theorem isolated_iff_alone {decode : List Byte → Option MemoryResponse}
    {events : List RequestEvent} (hn : draws events < 2 ^ 64) (hh : Honest decode events) :
    Isolated decode events ↔ Alone decode events := by
  constructor
  · rintro h before p after rfl q id hflight
    have hn' : draws before < 2 ^ 64 := by
      rw [draws_append] at hn
      omega
    obtain ⟨i, c, hl, hc, rfl⟩ := (inFlight_iff hn').mp hflight
    have hinv := inv_run decode hn'
    have hs := hinv.failPendingRequests p
    obtain ⟨c₀, hc₀, rfl, -⟩ := hinv.pending _ _ hl
    rw [hc] at hc₀
    obtain rfl := Option.some.inj hc₀
    have hc₁ : (failPendingRequests (run decode {} before) p).contexts[i]? =
        some { c with values := [.empty p] } := by
      rw [hs.contexts, hc, Option.map_some, if_pos ⟨hl, trivial⟩]
    -- the promise stays set
    have hn₁ : draws before + draws after < 2 ^ 64 := by
      rw [draws_append, draws, draws, List.count_cons_of_ne (by simp)] at hn
      exact hn
    obtain ⟨c', hc', -, hp', hv'⟩ :=
      (hinv.settles hs fun _ _ => trivial).run_context hn₁ hc₁
    have hmem : c' ∈ (run decode {} (before ++ .disconnect p :: after)).contexts := by
      rw [run_append, run_cons]
      exact List.mem_of_getElem? hc'
    exact hp'.symm.trans (h.failed c' hmem p (hv'.subset List.mem_cons_self))
  · intro ha
    refine ⟨failed_of_alone hn ha, ?_⟩
    rintro before peer id during bytes resp after rfl hid hd hdec hr
    have hsplit : before ++ .call peer id :: (during ++ .frame peer bytes :: after) =
        before ++ .call peer id :: (during ++ [.frame peer bytes]) ++ after := by simp
    rw [hsplit] at hn hh ha ⊢
    have hn' : draws (before ++ .call peer id :: (during ++ [.frame peer bytes])) < 2 ^ 64 := by
      rw [draws_append (_ ++ _)] at hn
      omega
    obtain ⟨c, hc⟩ := asked_run hn' hh.of_append ha.of_append hid (by simpa using hd)
    obtain ⟨answer, hv⟩ : ∃ answer, c.values = [.frame peer answer] := by
      refine hc.values.resolve_left fun ⟨hl, _⟩ => ?_
      have hflight := (inFlight_iff hn').mpr ⟨_, c, hl, hc.context, hc.sentTo⟩
      rw [← List.cons_append, ← List.append_assoc, inFlight_concat] at hflight
      rcases hflight with ⟨he, -⟩ | ⟨-, hframe, -⟩
      · cases he
      · exact hframe peer bytes resp rfl hdec hr
    rw [draws_append] at hn
    obtain ⟨c', hc', hid', hp', hv'⟩ := (inv_run decode hn').run_context hn hc.context
    have hinv := (inv_run decode hn').run after hn
    rw [run_append (_ ++ _)]
    have hmem := List.mem_of_getElem? hc'
    have hv₁ := hinv.values_eq hmem (hv ▸ hv')
    refine ⟨c', answer, hc', hid'.trans hc.requestId, hp'.trans hc.sentTo, hv₁, ?_⟩
    rcases hinv.values c' hmem with hnil | ⟨d, hd', hans⟩
    · rw [hnil] at hv₁
      cases hv₁
    · obtain rfl := List.singleton_inj.mp (hd'.symm.trans hv₁)
      rwa [hid', hc.requestId] at hans

/-- Two requests to two peers; the one that stays answers before the other disconnects. -/
theorem isolated_answered_first :
    Isolated (fun bytes => bytes.head?.map fun b => { requestId := b.toNat })
      [.draw, .call 0 1, .draw, .call 1 2, .frame 1 [2], .disconnect 0] := by
  refine (isolated_iff_alone (by decide) ?_).mpr ?_
  · intro before p bytes after resp h hd q hf
    obtain ⟨rfl, rfl, rfl, rfl⟩ : before = [.draw, .call 0 1, .draw, .call 1 2] ∧ p = 1 ∧
        bytes = [2] ∧ after = [.disconnect 0] := by
      simp only [List.cons_eq_append_iff] at h
      aesop
    obtain rfl := Option.some.inj hd
    obtain ⟨i, c, hl, hc, rfl⟩ := (inFlight_iff (by decide)).mp hf
    obtain rfl : 1 = i := Option.some.inj hl
    obtain rfl := Option.some.inj hc
    rfl
  · intro before p after h q id hf
    obtain ⟨rfl, rfl, rfl⟩ : before = [.draw, .call 0 1, .draw, .call 1 2, .frame 1 [2]] ∧
        p = 0 ∧ after = [] := by
      simp only [List.cons_eq_append_iff] at h
      aesop
    obtain ⟨i, c, hl, hc, rfl⟩ := (inFlight_iff (by decide)).mp hf
    have hm := Dict.mem_entries_iff.mpr hl
    obtain ⟨rfl, rfl⟩ := Sigma.mk.inj_iff.mp (List.mem_singleton.mp hm)
    obtain rfl := Option.some.inj hc
    rfl

/-- The disconnect of peer 0 fails the request to peer 1, and its answer is dropped. -/
theorem other_request_failed :
    let decode (bytes : List Byte) : Option MemoryResponse :=
      bytes.head?.map fun b => { requestId := b.toNat }
    let events : List RequestEvent :=
      [.draw, .call 0 1, .draw, .call 1 2, .disconnect 0, .frame 1 [2], .wake 1]
    (run decode {} events).contexts[1]? =
        some ⟨2, 1, [.empty 0], .returned (.empty 0)⟩ ∧ ¬ Isolated decode events := by
  refine ⟨rfl, fun h => ?_⟩
  have := h.failed ⟨2, 1, [.empty 0], .returned (.empty 0)⟩ (by decide) 0 (by decide)
  cases this

end Routing

end Requests

end MemInfo
