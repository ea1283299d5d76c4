import MemInfo.Common.Messages
import MemInfo.Lib.Dict

/-! # Requests in flight

`sync_remote_call` registers a context in `pending_requests_` and waits for its promise. The
network thread sets the promise when a frame with the request id arrives, and sets all of
them when a peer disconnects.
-/

namespace MemInfo

open Lib

/-- What a promise is set to, and the peer on whose connection that happened. -/
inductive Delivery where
  | empty (source : ℕ)
  | frame (source : ℕ) (bytes : List Byte)
  deriving DecidableEq, Repr

inductive Caller where
  | waiting
  | returned (d : Delivery)
  | timedOut
  deriving DecidableEq, Repr

/-- A `RequestContext`, with the peer that the request was sent to. -/
structure RequestContext where
  requestId : ℕ
  peer : ℕ
  /-- The arguments of the calls of `set_value`. -/
  values : List Delivery := []
  caller : Caller := .waiting
  deriving DecidableEq, Repr

structure Requests where
  nextRequestId : ℕ := 1
  /-- The ids that threads have drawn and not used yet. -/
  drawn : List ℕ := []
  /-- All contexts that were ever made; a pointer to one is its place in the list. -/
  contexts : List RequestContext := []
  pendingRequests : Dict ℕ ℕ := ∅

/-- What the threads do with the requests, in the order of the locks they take. -/
inductive RequestEvent where
  | draw
  | call (peer requestId : ℕ)
  | frame (peer : ℕ) (bytes : List Byte)
  | disconnect (peer : ℕ)
  | wake (context : ℕ)
  deriving DecidableEq, Repr

namespace Requests

/-- `next_request_id_++`. -/
def draw (r : Requests) : Requests :=
  { r with
    drawn := r.drawn ++ [r.nextRequestId]
    nextRequestId := (r.nextRequestId + 1) % 2 ^ 64 }

/-- `sync_remote_call` up to the wait. -/
def register (r : Requests) (peer requestId : ℕ) : Requests :=
  { r with
    drawn := r.drawn.erase requestId
    contexts := r.contexts ++ [{ requestId, peer }]
    pendingRequests := r.pendingRequests.insert requestId r.contexts.length }

def setValue (contexts : List RequestContext) (i : ℕ) (d : Delivery) : List RequestContext :=
  contexts.modify i fun c => { c with values := c.values ++ [d] }

/-- What `on_peer_read` does with a frame that is complete. -/
def dispatch (decode : List Byte → Option MemoryResponse) (r : Requests) (peer : ℕ)
    (bytes : List Byte) : Requests :=
  match decode bytes with
  | none => r
  | some resp =>
    match r.pendingRequests.lookup resp.requestId with
    | none => r
    | some i =>
      { r with
        pendingRequests := r.pendingRequests.erase resp.requestId
        contexts := setValue r.contexts i (.frame peer bytes) }

def failPendingRequests (r : Requests) (peer : ℕ) : Requests :=
  { r with
    pendingRequests := ∅
    contexts := r.pendingRequests.entries.foldl
      (fun contexts entry => setValue contexts entry.2 (.empty peer)) r.contexts }

/-- The end of `sync_remote_call`. A context that timed out stays in the table. -/
def wake (r : Requests) (i : ℕ) : Requests :=
  { r with contexts := r.contexts.modify i fun c =>
      match c.caller, c.values with
      | .waiting, [] => { c with caller := .timedOut }
      | .waiting, d :: _ => { c with caller := .returned d }
      | _, _ => c }

def step (decode : List Byte → Option MemoryResponse) (r : Requests) : RequestEvent → Requests
  | .draw => r.draw
  | .call peer requestId => if requestId ∈ r.drawn then r.register peer requestId else r
  | .frame peer bytes => r.dispatch decode peer bytes
  | .disconnect peer => r.failPendingRequests peer
  | .wake i => r.wake i

def run (decode : List Byte → Option MemoryResponse) (r : Requests) (events : List RequestEvent) :
    Requests := events.foldl (step decode) r

section Routing

variable {decode : List Byte → Option MemoryResponse} {r : Requests} {n : ℕ}

@[simp] theorem run_nil : r.run decode [] = r := rfl

@[simp] theorem run_cons (e : RequestEvent) (es : List RequestEvent) :
    r.run decode (e :: es) = (r.step decode e).run decode es := rfl

theorem run_append (es fs : List RequestEvent) :
    r.run decode (es ++ fs) = (r.run decode es).run decode fs := List.foldl_append

/-- An answer with the id of the request, or the empty buffer. -/
def Answers (decode : List Byte → Option MemoryResponse) (requestId : ℕ) : Delivery → Prop
  | .empty _ => True
  | .frame _ bytes => ∃ resp, decode bytes = some resp ∧ resp.requestId = requestId

/-- The ids that are in use after `n` of them were drawn. -/
structure Inv (decode : List Byte → Option MemoryResponse) (n : ℕ) (r : Requests) : Prop where
  next : r.nextRequestId = (n + 1) % 2 ^ 64
  ids : (r.contexts.map RequestContext.requestId ++ r.drawn).Nodup
  range : ∀ id ∈ r.contexts.map RequestContext.requestId ++ r.drawn, 0 < id ∧ id ≤ n
  pending : ∀ id i, r.pendingRequests.lookup id = some i →
    ∃ c, r.contexts[i]? = some c ∧ c.requestId = id ∧ c.values = []
  values : ∀ c ∈ r.contexts, c.values = [] ∨ ∃ d, c.values = [d] ∧ Answers decode c.requestId d
  caller : ∀ c ∈ r.contexts, ∀ d, c.caller = .returned d → d ∈ c.values

theorem inv_new (decode : List Byte → Option MemoryResponse) : Inv decode 0 {} := by
  constructor <;> simp

structure Settles (P : ℕ → Prop) [DecidablePred P] (d : Delivery) (r r' : Requests) : Prop where
  next : r'.nextRequestId = r.nextRequestId
  drawn : r'.drawn = r.drawn
  contexts : ∀ j, r'.contexts[j]? = r.contexts[j]?.map fun c =>
    if r.pendingRequests.lookup c.requestId = some j ∧ P c.requestId then
      { c with values := [d] } else c
  pending : ∀ id, r'.pendingRequests.lookup id =
    if P id then none else r.pendingRequests.lookup id

theorem getElem?_setValue (cs : List RequestContext) (i j : ℕ) (d : Delivery) :
    (setValue cs i d)[j]? =
      cs[j]?.map fun c => if i = j then { c with values := c.values ++ [d] } else c := by
  rw [setValue, List.getElem?_modify]
  split_ifs <;> simp

/-- A frame resolves the request with its id. -/
theorem Inv.dispatch (h : Inv decode n r) {bytes : List Byte} {resp : MemoryResponse}
    (hd : decode bytes = some resp) (peer : ℕ) :
    Settles (· = resp.requestId) (.frame peer bytes) r (r.dispatch decode peer bytes) := by
  unfold Requests.dispatch
  rw [hd]
  dsimp only
  cases hl : r.pendingRequests.lookup resp.requestId with
  | none =>
    refine ⟨rfl, rfl, fun j => ?_, fun id => ?_⟩
    · have hne (c : RequestContext) : ¬ (r.pendingRequests.lookup c.requestId = some j ∧
          c.requestId = resp.requestId) := by
        rintro ⟨hc, he⟩
        rw [he, hl] at hc
        cases hc
      simp [hne]
    · split_ifs with he
      · rw [he, hl]
      · rfl
  | some i =>
    obtain ⟨c, hc, hid, hv⟩ := h.pending _ _ hl
    refine ⟨rfl, rfl, fun j => ?_, fun id => Dict.lookup_erase_iff⟩
    dsimp only
    rw [getElem?_setValue]
    by_cases hij : i = j
    · subst hij
      rw [hc, Option.map_some, Option.map_some, if_pos rfl, if_pos ⟨by rw [hid, hl], hid⟩, hv]
      rfl
    · apply Option.map_congr
      intro c' _
      rw [if_neg hij, if_neg]
      rintro ⟨hj, he⟩
      rw [he, hl] at hj
      exact hij (Option.some.inj hj)

theorem getElem?_foldl_setValue {es : List (Sigma fun _ : ℕ => ℕ)} {cs : List RequestContext}
    (d : Delivery) (hk : (es.map Sigma.fst).Nodup)
    (he : ∀ e ∈ es, ∃ c, cs[e.2]? = some c ∧ c.requestId = e.1 ∧ c.values = []) (j : ℕ) :
    (es.foldl (fun cs e => setValue cs e.2 d) cs)[j]? =
      cs[j]?.map fun c => if j ∈ es.map Sigma.snd then { c with values := [d] } else c := by
  induction es generalizing cs with
  | nil => simp
  | cons e es ih =>
    obtain ⟨c, hc, hid, hv⟩ := he e List.mem_cons_self
    rw [List.map_cons, List.nodup_cons] at hk
    -- two entries do not share a context, since they differ in the id
    have hne (e' : Sigma fun _ : ℕ => ℕ) (hm : e' ∈ es) : e.2 ≠ e'.2 := by
      intro heq
      obtain ⟨c', hc', hid', -⟩ := he e' (List.mem_cons_of_mem _ hm)
      rw [← heq, hc] at hc'
      obtain rfl := Option.some.inj hc'
      exact hk.1 (hid ▸ hid' ▸ List.mem_map_of_mem hm)
    rw [List.foldl_cons, ih hk.2, getElem?_setValue, Option.map_map]
    · by_cases hj : e.2 = j
      · subst hj
        have hnot : e.2 ∉ es.map Sigma.snd := by
          rintro hm
          obtain ⟨e', hm', he'⟩ := List.mem_map.mp hm
          exact hne e' hm' he'.symm
        simp [hc, hv, hnot]
      · apply Option.map_congr
        intro c' _
        have hmem : j ∈ (e :: es).map Sigma.snd ↔ j ∈ es.map Sigma.snd := by
          rw [List.map_cons, List.mem_cons, or_iff_right fun h => hj h.symm]
        simp only [Function.comp, if_neg hj, hmem]
    · intro e' hm
      obtain ⟨c', hc', hid', hv'⟩ := he e' (List.mem_cons_of_mem _ hm)
      exact ⟨c', by simp [getElem?_setValue, hc', hne e' hm], hid', hv'⟩

/-- A disconnect resolves all requests. -/
theorem Inv.failPendingRequests (h : Inv decode n r) (peer : ℕ) :
    Settles (fun _ => True) (.empty peer) r (r.failPendingRequests peer) := by
  have hmem {e : Sigma fun _ : ℕ => ℕ} (he : e ∈ r.pendingRequests.entries) :
      r.pendingRequests.lookup e.1 = some e.2 := Dict.mem_entries_iff.mp he
  refine ⟨rfl, rfl, fun j => ?_, fun id => by simp [Requests.failPendingRequests]⟩
  unfold Requests.failPendingRequests
  dsimp only
  rw [getElem?_foldl_setValue _ r.pendingRequests.nodupKeys fun e he => h.pending _ _ (hmem he)]
  apply Option.map_congr
  intro c hc
  congr 1
  rw [and_true, eq_iff_iff]
  constructor
  · intro hj
    obtain ⟨e, he, rfl⟩ := List.mem_map.mp hj
    obtain ⟨c', hc', hid, -⟩ := h.pending _ _ (hmem he)
    rw [Option.mem_def.mp hc] at hc'
    obtain rfl := Option.some.inj hc'
    rw [hid]
    exact hmem he
  · exact fun hj => List.mem_map.mpr ⟨⟨c.requestId, j⟩, Dict.mem_entries_iff.mpr hj, rfl⟩

variable {P : ℕ → Prop} [DecidablePred P] {d : Delivery} {r' : Requests}

theorem Settles.cases (h : Settles P d r r') {c' : RequestContext} {j : ℕ}
    (hc : r'.contexts[j]? = some c') :
    ∃ c, r.contexts[j]? = some c ∧
      (r.pendingRequests.lookup c.requestId = some j ∧ P c.requestId ∧
          c' = { c with values := [d] } ∨
        ¬ (r.pendingRequests.lookup c.requestId = some j ∧ P c.requestId) ∧ c' = c) := by
  rw [h.contexts, Option.map_eq_some_iff] at hc
  obtain ⟨c, hc, rfl⟩ := hc
  refine ⟨c, hc, ?_⟩
  split_ifs with hp
  · exact .inl ⟨hp.1, hp.2, rfl⟩
  · exact .inr ⟨hp, rfl⟩

theorem Settles.map_requestId (h : Settles P d r r') :
    r'.contexts.map RequestContext.requestId = r.contexts.map RequestContext.requestId := by
  apply List.ext_getElem?
  intro j
  rw [List.getElem?_map, List.getElem?_map, h.contexts, Option.map_map]
  apply Option.map_congr
  intro c _
  dsimp only [Function.comp]
  split_ifs <;> rfl

theorem Inv.settles (h : Inv decode n r) (hs : Settles P d r r')
    (hd : ∀ id, P id → Answers decode id d) : Inv decode n r' := by
  have hmem {c' : RequestContext} (hc : c' ∈ r'.contexts) : ∃ j, r'.contexts[j]? = some c' :=
    List.mem_iff_getElem?.mp hc
  constructor
  · rw [hs.next, h.next]
  · rw [hs.map_requestId, hs.drawn]
    exact h.ids
  · rw [hs.map_requestId, hs.drawn]
    exact h.range
  · intro id i hl
    rw [hs.pending] at hl
    split_ifs at hl with hp
    obtain ⟨c, hc, hid, hv⟩ := h.pending id i hl
    refine ⟨c, ?_, hid, hv⟩
    rw [hs.contexts, hc, Option.map_some, if_neg (by rw [hid]; exact fun hcon => hp hcon.2)]
  · intro c' hc'
    obtain ⟨j, hj⟩ := hmem hc'
    obtain ⟨c, hc, ⟨-, hp, rfl⟩ | ⟨-, rfl⟩⟩ := hs.cases hj
    · exact .inr ⟨d, rfl, hd _ hp⟩
    · exact h.values c' (List.mem_of_getElem? hc)
  · intro c' hc' d' hr
    obtain ⟨j, hj⟩ := hmem hc'
    obtain ⟨c, hc, ⟨hl, hp, rfl⟩ | ⟨-, rfl⟩⟩ := hs.cases hj
    · have hold := h.caller c (List.mem_of_getElem? hc) d' hr
      obtain ⟨c₀, hc₀, -, hv⟩ := h.pending _ _ hl
      rw [hc] at hc₀
      obtain rfl := Option.some.inj hc₀
      rw [hv] at hold
      cases hold
    · exact h.caller c' (List.mem_of_getElem? hc) d' hr

theorem Inv.draw (h : Inv decode n r) (hn : n + 1 < 2 ^ 64) : Inv decode (n + 1) r.draw := by
  have hnext : r.nextRequestId = n + 1 := by rw [h.next, Nat.mod_eq_of_lt hn]
  have hfresh : n + 1 ∉ r.contexts.map RequestContext.requestId ++ r.drawn := fun hm =>
    Nat.not_succ_le_self n (h.range _ hm).2
  constructor
  · rw [Requests.draw, hnext]
  · rw [Requests.draw, hnext, ← List.append_assoc]
    exact List.nodup_append_comm.mp (List.nodup_cons.mpr ⟨hfresh, h.ids⟩)
  · intro id hid
    rw [Requests.draw, hnext, ← List.append_assoc] at hid
    rcases List.mem_append.mp hid with hid | hid
    · exact ⟨(h.range id hid).1, Nat.le_succ_of_le (h.range id hid).2⟩
    · obtain rfl := List.mem_singleton.mp hid
      exact ⟨Nat.succ_pos n, Nat.le_refl _⟩
  · exact h.pending
  · exact h.values
  · exact h.caller

theorem Inv.register (h : Inv decode n r) {id : ℕ} (hid : id ∈ r.drawn) (peer : ℕ) :
    Inv decode n (r.register peer id) := by
  have hperm : ((r.register peer id).contexts.map RequestContext.requestId ++
      (r.register peer id).drawn).Perm
        (r.contexts.map RequestContext.requestId ++ r.drawn) := by
    simp only [Requests.register, List.map_append, List.map_cons, List.map_nil,
      List.append_assoc, List.cons_append, List.nil_append]
    exact (List.perm_cons_erase hid).symm.append_left _
  constructor
  · exact h.next
  · exact hperm.nodup_iff.mpr h.ids
  · exact fun k hk => h.range k (hperm.mem_iff.mp hk)
  · intro k i hl
    rw [Requests.register, Dict.lookup_insert_iff] at hl
    split_ifs at hl with hk
    · obtain rfl := Option.some.inj hl
      exact ⟨{ requestId := id, peer }, by simp [Requests.register], hk.symm, rfl⟩
    · obtain ⟨c, hc, hcid, hv⟩ := h.pending k i hl
      refine ⟨c, ?_, hcid, hv⟩
      exact (List.getElem?_append_left (List.getElem?_eq_some_iff.mp hc).1).trans hc
  · intro c hc
    rcases List.mem_append.mp hc with hc | hc
    · exact h.values c hc
    · obtain rfl := List.mem_singleton.mp hc
      exact .inl rfl
  · intro c hc d hr
    rcases List.mem_append.mp hc with hc | hc
    · exact h.caller c hc d hr
    · obtain rfl := List.mem_singleton.mp hc
      cases hr

theorem getElem?_wake (i j : ℕ) : ∃ f : RequestContext → Caller,
    (r.wake i).contexts[j]? = r.contexts[j]?.map (fun c => { c with caller := f c }) ∧
      ∀ c d, f c = .returned d → c.caller = .returned d ∨ d ∈ c.values := by
  by_cases hij : i = j
  · refine ⟨fun c => match c.caller, c.values with
      | .waiting, [] => .timedOut
      | .waiting, d :: _ => .returned d
      | caller, _ => caller, ?_, ?_⟩
    · rw [wake, List.getElem?_modify]
      apply Option.map_congr
      rintro ⟨id, p, values, caller⟩ _
      rw [if_pos hij]
      cases caller <;> cases values <;> rfl
    · rintro ⟨id, p, values, caller⟩ d hd
      cases caller <;> cases values <;> simp_all
  · refine ⟨RequestContext.caller, ?_, fun c d hd => .inl hd⟩
    rw [wake, List.getElem?_modify]
    apply Option.map_congr
    intro c _
    rw [if_neg hij]

theorem Inv.wake (h : Inv decode n r) (i : ℕ) : Inv decode n (r.wake i) := by
  have hcases {j : ℕ} {c' : RequestContext} (hc : (r.wake i).contexts[j]? = some c') :
      ∃ c, r.contexts[j]? = some c ∧ c'.requestId = c.requestId ∧ c'.values = c.values ∧
        ∀ d, c'.caller = .returned d → c.caller = .returned d ∨ d ∈ c.values := by
    obtain ⟨f, hf, hret⟩ := getElem?_wake (r := r) i j
    rw [hf, Option.map_eq_some_iff] at hc
    obtain ⟨c, hc, rfl⟩ := hc
    exact ⟨c, hc, rfl, rfl, hret c⟩
  have hids : (r.wake i).contexts.map RequestContext.requestId =
      r.contexts.map RequestContext.requestId := by
    apply List.ext_getElem?
    intro j
    obtain ⟨f, hf, -⟩ := getElem?_wake (r := r) i j
    rw [List.getElem?_map, List.getElem?_map, hf, Option.map_map]
    rfl
  constructor
  · exact h.next
  · rw [hids]
    exact h.ids
  · rw [hids]
    exact h.range
  · intro id j hl
    obtain ⟨c, hc, hid, hv⟩ := h.pending id j hl
    obtain ⟨f, hf, -⟩ := getElem?_wake (r := r) i j
    exact ⟨{ c with caller := f c }, by rw [hf, hc, Option.map_some], hid, hv⟩
  · intro c' hc'
    obtain ⟨j, hj⟩ := List.mem_iff_getElem?.mp hc'
    obtain ⟨c, hc, hid, hv, -⟩ := hcases hj
    rw [hid, hv]
    exact h.values c (List.mem_of_getElem? hc)
  · intro c' hc' d hr
    obtain ⟨j, hj⟩ := List.mem_iff_getElem?.mp hc'
    obtain ⟨c, hc, -, hv, hret⟩ := hcases hj
    rw [hv]
    rcases hret d hr with hold | hd
    · exact h.caller c (List.mem_of_getElem? hc) d hold
    · exact hd

def draws (events : List RequestEvent) : ℕ := events.count .draw

theorem Inv.step (h : Inv decode n r) (e : RequestEvent) (hn : n + draws [e] < 2 ^ 64) :
    Inv decode (n + draws [e]) (r.step decode e) := by
  cases e with
  | draw => exact h.draw hn
  | call peer id =>
    unfold Requests.step
    dsimp only
    split_ifs with hid
    · exact h.register hid peer
    · exact h
  | frame peer bytes =>
    unfold Requests.step
    dsimp only
    cases hd : decode bytes with
    | none =>
      unfold Requests.dispatch
      rw [hd]
      exact h
    | some resp => exact h.settles (h.dispatch hd peer) fun id hid => ⟨resp, hd, hid.symm⟩
  | disconnect peer => exact h.settles (h.failPendingRequests peer) fun _ _ => trivial
  | wake i => exact h.wake i

theorem Inv.run (h : Inv decode n r) (events : List RequestEvent)
    (hn : n + draws events < 2 ^ 64) : Inv decode (n + draws events) (r.run decode events) := by
  induction events generalizing r n with
  | nil => exact h
  | cons e es ih =>
    have hsplit : n + draws (e :: es) = n + draws [e] + draws es := by
      unfold draws
      rw [← List.singleton_append, List.count_append, Nat.add_assoc]
    rw [hsplit] at hn ⊢
    exact ih (h.step e (Nat.lt_of_le_of_lt (Nat.le_add_right _ _) hn)) hn

theorem draws_append (es fs : List RequestEvent) : draws (es ++ fs) = draws es + draws fs :=
  List.count_append

theorem inv_run (decode : List Byte → Option MemoryResponse) {events : List RequestEvent}
    (hn : draws events < 2 ^ 64) :
    Inv decode (draws events) (run decode {} events) := by
  have h := (inv_new decode).run events (by rwa [Nat.zero_add])
  rwa [Nat.zero_add] at h

theorem Inv.step_context (h : Inv decode n r) (e : RequestEvent) {i : ℕ} {c : RequestContext}
    (hc : r.contexts[i]? = some c) :
    ∃ c', (r.step decode e).contexts[i]? = some c' ∧ c'.requestId = c.requestId ∧
      c'.peer = c.peer ∧ c.values <+: c'.values := by
  have hsettles {P : ℕ → Prop} [DecidablePred P] {d : Delivery} {r' : Requests}
      (hs : Settles P d r r') : ∃ c', r'.contexts[i]? = some c' ∧ c'.requestId = c.requestId ∧
        c'.peer = c.peer ∧ c.values <+: c'.values := by
    refine ⟨_, by rw [hs.contexts, hc, Option.map_some], ?_⟩
    split_ifs with hp
    · obtain ⟨c₀, hc₀, -, hv⟩ := h.pending _ _ hp.1
      rw [hc] at hc₀
      obtain rfl := Option.some.inj hc₀
      exact ⟨rfl, rfl, by rw [hv]; exact List.nil_prefix⟩
    · exact ⟨rfl, rfl, List.prefix_rfl⟩
  cases e with
  | draw => exact ⟨c, hc, rfl, rfl, List.prefix_rfl⟩
  | call peer id =>
    unfold Requests.step
    dsimp only
    split_ifs
    · refine ⟨c, ?_, rfl, rfl, List.prefix_rfl⟩
      exact (List.getElem?_append_left (List.getElem?_eq_some_iff.mp hc).1).trans hc
    · exact ⟨c, hc, rfl, rfl, List.prefix_rfl⟩
  | frame peer bytes =>
    unfold Requests.step
    dsimp only
    cases hd : decode bytes with
    | none =>
      unfold Requests.dispatch
      rw [hd]
      exact ⟨c, hc, rfl, rfl, List.prefix_rfl⟩
    | some resp => exact hsettles (h.dispatch hd peer)
  | disconnect peer => exact hsettles (h.failPendingRequests peer)
  | wake j =>
    obtain ⟨f, hf, -⟩ := getElem?_wake (r := r) j i
    exact ⟨{ c with caller := f c }, by unfold Requests.step; rw [hf, hc, Option.map_some],
      rfl, rfl, List.prefix_rfl⟩

theorem Inv.run_context (h : Inv decode n r) {events : List RequestEvent}
    (hn : n + draws events < 2 ^ 64) {i : ℕ} {c : RequestContext} (hc : r.contexts[i]? = some c) :
    ∃ c', (r.run decode events).contexts[i]? = some c' ∧ c'.requestId = c.requestId ∧
      c'.peer = c.peer ∧ c.values <+: c'.values := by
  induction events generalizing r n c with
  | nil => exact ⟨c, hc, rfl, rfl, List.prefix_rfl⟩
  | cons e es ih =>
    rw [← List.singleton_append, draws_append, ← Nat.add_assoc] at hn
    obtain ⟨c₁, hc₁, hid₁, hp₁, hv₁⟩ := h.step_context e hc
    obtain ⟨c₂, hc₂, hid₂, hp₂, hv₂⟩ :=
      ih (h.step e (Nat.lt_of_le_of_lt (Nat.le_add_right _ _) hn)) hn hc₁
    exact ⟨c₂, hc₂, hid₂.trans hid₁, hp₂.trans hp₁, hv₁.trans hv₂⟩

end Routing

end Requests

end MemInfo
