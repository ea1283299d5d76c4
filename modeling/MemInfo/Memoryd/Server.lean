import MemInfo.Memoryd.Protocol
import MemInfo.Memoryd.Refinement

/-! # What memoryd answers

The daemon seen from its sessions: a store of owned byte arrays that answers the
requests of the memory protocol. Request processing refines this store as long as the
handle counter does not wrap around. A request that fails changes nothing.
-/

namespace MemInfo

open Lib MemoryProtocol

namespace ByteMap

/-- The answer to a verified request of session `s`. Only an allocation is left open: it
may be refused, or it binds a handle that was not live to a block of zeros owned by `s`. -/
def Answers (m : ByteMap) (s : ℕ) (req : MemoryRequest) (r : MemoryResponse) (m' : ByteMap) :
    Prop :=
  if req.protocolVersion ≠ protocolVersion then
    r = buildResponse req .versionMismatch "Protocol version mismatch" ∧ m' = m
  else match req.op with
    | .alloc =>
      if req.size = 0 then r = buildResponse req .ok "OK" ∧ m' = m
      else (r = failure req .badAlloc ∧ m' = m) ∨ ∃ h, h ≠ 0 ∧ m h = none ∧
        r = buildResponse req .ok "OK" h ∧
        m' = Function.update m h (some ⟨s, List.replicate req.size 0⟩)
    | .free =>
      match m.refusal req.handle 0 0 s "" with
      | some e => r = failure req e ∧ m' = m
      | none => r = buildResponse req .ok "OK" ∧ m' = Function.update m req.handle none
    | .write =>
      match req.data with
      | none => r = buildResponse req .errorGeneric "Missing data payload" ∧ m' = m
      | some data =>
        if crc32c data ≠ req.checksum then
          r = buildResponse req .checksumMismatch "CRC32C mismatch" ∧ m' = m
        else if data = [] then r = buildResponse req .ok "OK" ∧ m' = m
        else match
            m.refusal req.handle req.offset data.length s "Write exceeds allocation size" with
          | some e => r = failure req e ∧ m' = m
          | none => r = buildResponse req .ok "OK" ∧
            m' = m.setBytes req.handle (splice (m.bytes req.handle) req.offset data)
    | .read =>
      m' = m ∧
        if req.size > maxMessageSize then
          r = buildResponse req .errorGeneric "Requested read size exceeds maximum message size"
        else if req.size = 0 then r = buildResponse req .ok "OK"
        else match m.refusal req.handle req.offset req.size s "Read exceeds allocation size" with
          | some e => r = failure req e
          | none =>
            let bytes := slice (m.bytes req.handle) req.offset req.size
            r = buildResponse req .ok "OK" 0 bytes (crc32c bytes)
    | .ping => r = buildResponse req .ok "PONG" ∧ m' = m
    | .other _ => r = buildResponse req .errorGeneric "Unsupported operation" ∧ m' = m

inductive Outcome (m : ByteMap) (s : ℕ) (req : MemoryRequest) (r : MemoryResponse) :
    ByteMap → Prop where
  | refused : r.status ≠ .ok → Outcome m s req r m
  | idle : r.status = .ok → r.data = none →
      req.op = .ping ∨ req.op = .alloc ∧ req.size = 0 ∨ req.op = .read ∧ req.size = 0 ∨
        req.op = .write ∧ req.data = some [] → Outcome m s req r m
  | granted : r.status = .ok → req.op = .alloc → req.size ≠ 0 → r.handle ≠ 0 →
      m r.handle = none →
      Outcome m s req r (Function.update m r.handle (some ⟨s, List.replicate req.size 0⟩))
  | stored {b : Block} {data : List Byte} : r.status = .ok → req.op = .write →
      req.data = some data → m req.handle = some b → b.Permits s →
      req.offset + data.length ≤ b.bytes.length →
      Outcome m s req r (Function.update m req.handle
        (some { b with bytes := splice b.bytes req.offset data }))
  | fetched {b : Block} : r.status = .ok → req.op = .read → m req.handle = some b →
      b.Permits s → req.offset + req.size ≤ b.bytes.length →
      r.data = some (slice b.bytes req.offset req.size) → Outcome m s req r m
  | freed {b : Block} : r.status = .ok → req.op = .free → m req.handle = some b →
      b.Permits s → Outcome m s req r (Function.update m req.handle none)

def Serves (m : ByteMap) : Event → Option MemoryResponse → ByteMap → Prop
  | .request s req, r, m' => ∃ resp, r = some resp ∧ m.Answers s req resp m'
  | .disconnect s _, r, m' =>
    r = none ∧ m' = if s = 0 then m else fun k => (m k).filter fun b => b.owner ≠ s

section Inversion

variable {m m' : ByteMap} {s : ℕ} {req : MemoryRequest} {r : MemoryResponse}

@[simp] theorem status_buildResponse (req : MemoryRequest) (status : StatusCode)
    (message : String) (h : ℕ) (data : List Byte) (crc : UInt32) :
    (buildResponse req status message h data crc).status = status := rfl

theorem status_failure (req : MemoryRequest) (e : Err) :
    (MemoryProtocol.failure req e).status ≠ .ok := by
  cases e <;> simp [MemoryProtocol.failure]

theorem refusal_eq_none {h offset n : ℕ} {what : String}
    (hr : m.refusal h offset n s what = none) :
    ∃ b, m h = some b ∧ b.Permits s ∧ offset + n ≤ b.bytes.length := by
  unfold refusal at hr
  cases hm : m h with
  | none => simp [hm] at hr
  | some b =>
    simp only [hm] at hr
    split_ifs at hr with hp hle
    exact ⟨b, rfl, hp, hle⟩

theorem Answers.outcome (ha : m.Answers s req r m') : Outcome m s req r m' := by
  by_cases hv : req.protocolVersion ≠ protocolVersion
  · rw [Answers, if_pos hv] at ha
    obtain ⟨rfl, rfl⟩ := ha
    exact .refused (by simp)
  rw [Answers, if_neg hv] at ha
  cases hop : req.op with
  | alloc =>
    simp only [hop] at ha
    split_ifs at ha with hz
    · obtain ⟨rfl, rfl⟩ := ha
      exact .idle rfl rfl (by simp [hop, hz])
    · obtain ⟨rfl, rfl⟩ | ⟨h, h₀, hm, rfl, rfl⟩ := ha
      · exact .refused (status_failure req _)
      · exact .granted rfl hop hz h₀ hm
  | free =>
    simp only [hop] at ha
    cases hf : m.refusal req.handle 0 0 s "" with
    | some e =>
      simp only [hf] at ha
      obtain ⟨rfl, rfl⟩ := ha
      exact .refused (status_failure req e)
    | none =>
      simp only [hf] at ha
      obtain ⟨rfl, rfl⟩ := ha
      obtain ⟨b, hm, hp, -⟩ := refusal_eq_none hf
      exact .freed rfl hop hm hp
  | write =>
    simp only [hop] at ha
    cases hd : req.data with
    | none =>
      simp only [hd] at ha
      obtain ⟨rfl, rfl⟩ := ha
      exact .refused (by simp)
    | some data =>
      simp only [hd] at ha
      split_ifs at ha with hc he
      · obtain ⟨rfl, rfl⟩ := ha
        exact .refused (by simp)
      · subst he
        obtain ⟨rfl, rfl⟩ := ha
        exact .idle rfl rfl (by simp [hop, hd])
      · cases hf :
          m.refusal req.handle req.offset data.length s "Write exceeds allocation size" with
        | some e =>
          simp only [hf] at ha
          obtain ⟨rfl, rfl⟩ := ha
          exact .refused (status_failure req e)
        | none =>
          simp only [hf] at ha
          obtain ⟨rfl, rfl⟩ := ha
          obtain ⟨b, hm, hp, hle⟩ := refusal_eq_none hf
          simp only [setBytes, bytes, hm, Option.map_some, Option.getD_some]
          exact .stored rfl hop hd hm hp hle
  | read =>
    simp only [hop] at ha
    obtain ⟨rfl, ha⟩ := ha
    split_ifs at ha with hbig hz
    · subst ha
      exact .refused (by simp)
    · subst ha
      exact .idle rfl rfl (by simp [hop, hz])
    · cases hf : m'.refusal req.handle req.offset req.size s "Read exceeds allocation size" with
      | some e =>
        simp only [hf] at ha
        subst ha
        exact .refused (status_failure req e)
      | none =>
        simp only [hf] at ha
        subst ha
        obtain ⟨b, hm, hp, hle⟩ := refusal_eq_none hf
        refine .fetched rfl hop hm hp hle ?_
        have hlen : (slice b.bytes req.offset req.size).length > 0 := by
          rw [length_slice]
          omega
        simp only [buildResponse, bytes, hm, Option.map_some, Option.getD_some, if_pos hlen]
  | ping =>
    simp only [hop] at ha
    obtain ⟨rfl, rfl⟩ := ha
    exact .idle rfl rfl (by simp [hop])
  | other code =>
    simp only [hop] at ha
    obtain ⟨rfl, rfl⟩ := ha
    exact .refused (by simp)

end Inversion

end ByteMap

def isGranted : Event × Option MemoryResponse → Bool
  | (.request _ req, some r) => req.op = .alloc ∧ req.size ≠ 0 ∧ r.status = .ok
  | _ => false

namespace PageTracker

variable {t t' : PageTracker} {n s : ℕ} {req : MemoryRequest}

/-- What one event does to a tracker that has handed out `n` handles. -/
structure ServeSound (t : PageTracker) (n : ℕ) (ev : Event) (r : Option MemoryResponse)
    (t' : PageTracker) : Prop where
  reached : Reached (n + if isGranted (ev, r) then 1 else 0) t'
  serves : (n + if isGranted (ev, r) then 1 else 0) < 2 ^ 64 → ByteMap.Serves t.view ev r t'.view

theorem ServeSound.of_not_granted {r : MemoryResponse}
    (hg : isGranted (.request s req, some r) = false) (hr : Reached n t')
    (hs : n < 2 ^ 64 → ByteMap.Answers t.view s req r t'.view) :
    ServeSound t n (.request s req) (some r) t' := by
  constructor
  · simpa [hg] using hr
  · intro hlt
    exact ⟨r, rfl, hs (by simpa [hg] using hlt)⟩

theorem Reached.assignOwner (hr : Reached n t) (h o : ℕ) : Reached n (t.assignOwner h o) :=
  ⟨(assignOwner_sound hr.1 hr.2 h o).inv, (assignOwner_sound hr.1 hr.2 h o).issued⟩

theorem Issued.view_zero (hn : Issued t n) (hlt : n < 2 ^ 64) : t.view 0 = none := by
  rw [view_eq_none]
  cases hl : t.allocations.lookup 0 with
  | none => rfl
  | some a =>
    obtain ⟨k, h₁, h₂, he⟩ := hn.live hl
    rw [wrap_of_lt (by omega)] at he
    omega

section Requests

variable (hr : Reached n t) (hv : req.protocolVersion = protocolVersion)

include hr hv

theorem alloc_sound (hop : req.op = .alloc) :
    ServeSound t n (.request s req) (t.serve (.request s req)).1 (t.serve (.request s req)).2 := by
  obtain ⟨hi, hn⟩ := hr
  simp only [serve, processRequest, hv, ne_eq, not_true_eq_false, if_false, dispatch, hop,
    hi.allocate_eq]
  split_ifs with h₀ h₁
  · refine .of_not_granted (by simp [isGranted, h₀]) (Reached.assignOwner ⟨hi, hn⟩ 0 s)
      fun hlt => ?_
    have hview : (t.assignOwner 0 s).view = t.view := by
      rw [view_assignOwner, hn.view_zero hlt, Option.map_none, ← hn.view_zero hlt,
        Function.update_eq_self]
    simp [ByteMap.Answers, hv, hop, h₀, hview]
  · refine .of_not_granted ?_ ⟨hi, hn⟩ fun _ => ?_
    · simp [isGranted, MemoryProtocol.failure, buildResponse]
    simp [ByteMap.Answers, hv, hop, h₀]
  · rw [not_or, Nat.not_lt, Nat.not_lt] at h₁
    have hs := Nat.pos_of_ne_zero h₀
    have hg : isGranted (.request s req, some (buildResponse req .ok "OK" t.nextHandle)) := by
      simp [isGranted, hop, h₀, buildResponse]
    refine ⟨?_, fun hlt => ⟨_, rfl, ?_⟩⟩
    · rw [if_pos hg]
      exact Reached.assignOwner ⟨hi.granted hs h₁.2, hn.granted req.size⟩ _ _
    · rw [if_pos hg] at hlt
      have hnext : t.nextHandle = n + 1 := hn.next.trans (wrap_of_lt hlt)
      simp only [ByteMap.Answers, hv, ne_eq, not_true_eq_false, if_false, hop, h₀]
      refine Or.inr ⟨t.nextHandle, by omega, view_eq_none.mpr (hn.fresh (by omega)), rfl, ?_⟩
      rw [view_assignOwner, hi.view_granted hs h₁.2, Function.update_self, Function.update_idem]
      rfl

theorem free_request_sound (hop : req.op = .free) :
    ServeSound t n (.request s req) (t.serve (.request s req)).1 (t.serve (.request s req)).2 := by
  obtain ⟨hi, hn⟩ := hr
  have hnot (r : MemoryResponse) : isGranted (.request s req, some r) = false := by
    simp [isGranted, hop]
  have hs := (free_sound hi hn req.handle s)
  simp only [serve, processRequest, hv, ne_eq, not_true_eq_false, if_false, dispatch, hop]
  obtain ⟨e, hf, href⟩ | ⟨a, hl, hf, href⟩ := free_cases t req.handle s
  · rw [hf]
    refine .of_not_granted (hnot _) ⟨hi, hn⟩ fun _ => ?_
    simp [ByteMap.Answers, hv, hop, href]
  · simp only [step, hf] at hs ⊢
    refine .of_not_granted (hnot _) ⟨hs.inv, hs.issued⟩ fun _ => ?_
    simp [ByteMap.Answers, hv, hop, href, hi.view_release hl]

theorem write_request_sound (hop : req.op = .write) :
    ServeSound t n (.request s req) (t.serve (.request s req)).1 (t.serve (.request s req)).2 := by
  obtain ⟨hi, hn⟩ := hr
  have hnot (r : MemoryResponse) : isGranted (.request s req, some r) = false := by
    simp [isGranted, hop]
  simp only [serve, processRequest, hv, ne_eq, not_true_eq_false, if_false, dispatch, hop]
  cases hd : req.data with
  | none => exact .of_not_granted (hnot _) ⟨hi, hn⟩ fun _ => by simp [ByteMap.Answers, hv, hop, hd]
  | some data =>
    simp only
    split_ifs with hc
    · obtain ⟨he, hw⟩ | ⟨he, e, hw, href⟩ | ⟨he, href, b, hw, hview⟩ :=
        hi.write_cases req.handle req.offset data s
      · rw [hw]
        refine .of_not_granted (hnot _) ⟨hi, hn⟩ fun _ => ?_
        subst he
        simp [ByteMap.Answers, hv, hop, hd, hc]
      · rw [hw]
        refine .of_not_granted (hnot _) ⟨hi, hn⟩ fun _ => ?_
        simp [ByteMap.Answers, hv, hop, hd, hc, he, href]
      · rw [hw]
        refine .of_not_granted (hnot _) ⟨hi.setBuffer b, ⟨hn.next, hn.live⟩⟩ fun _ => ?_
        simp [ByteMap.Answers, hv, hop, hd, hc, he, href, hview]
    · refine .of_not_granted (hnot _) ⟨hi, hn⟩ fun _ => ?_
      simp [ByteMap.Answers, hv, hop, hd, hc]

theorem read_request_sound (hop : req.op = .read) :
    ServeSound t n (.request s req) (t.serve (.request s req)).1 (t.serve (.request s req)).2 := by
  obtain ⟨hi, hn⟩ := hr
  have hnot (r : MemoryResponse) : isGranted (.request s req, some r) = false := by
    simp [isGranted, hop]
  simp only [serve, processRequest, hv, ne_eq, not_true_eq_false, if_false, dispatch, hop,
    hi.read_eq]
  split_ifs with hbig hz
  · refine .of_not_granted (hnot _) ⟨hi, hn⟩ fun _ => ?_
    simp [ByteMap.Answers, hv, hop, hbig]
  · refine .of_not_granted (hnot _) ⟨hi, hn⟩ fun _ => ?_
    simp [ByteMap.Answers, hv, hop, hz, buildResponse]
  · cases href : ByteMap.refusal t.view req.handle req.offset req.size s
        "Read exceeds allocation size" with
    | none =>
      refine .of_not_granted (hnot _) ⟨hi, hn⟩ fun _ => ?_
      simp [ByteMap.Answers, hv, hop, hbig, hz, href]
    | some e =>
      refine .of_not_granted (hnot _) ⟨hi, hn⟩ fun _ => ?_
      simp [ByteMap.Answers, hv, hop, hbig, hz, href]

end Requests

theorem request_sound (hr : Reached n t) (s : ℕ) (req : MemoryRequest) :
    ServeSound t n (.request s req) (t.serve (.request s req)).1 (t.serve (.request s req)).2 := by
  by_cases hv : req.protocolVersion = protocolVersion
  · cases hop : req.op with
    | alloc => exact alloc_sound hr hv hop
    | free => exact free_request_sound hr hv hop
    | write => exact write_request_sound hr hv hop
    | read => exact read_request_sound hr hv hop
    | ping =>
      simp only [serve, processRequest, hv, ne_eq, not_true_eq_false, if_false, dispatch, hop]
      exact .of_not_granted (by simp [isGranted, hop]) hr fun _ => by
        simp [ByteMap.Answers, hv, hop]
    | other code =>
      simp only [serve, processRequest, hv, ne_eq, not_true_eq_false, if_false, dispatch, hop]
      exact .of_not_granted (by simp [isGranted, hop]) hr fun _ => by
        simp [ByteMap.Answers, hv, hop]
  · simp only [serve, processRequest, hv, ne_eq, not_false_eq_true, if_true]
    exact .of_not_granted (by simp [isGranted, buildResponse]) hr fun _ => by
      simp [ByteMap.Answers, hv]

theorem Reached.handle_granted {r : MemoryResponse} (hr : Reached n t)
    (hresp : (t.serve (.request s req)).1 = some r)
    (hg : isGranted (.request s req, some r)) : r.handle = wrap (n + 1) := by
  obtain ⟨hi, hn⟩ := hr
  simp only [isGranted, Bool.decide_and, Bool.and_eq_true, decide_eq_true_eq] at hg
  obtain ⟨hop, hz, hst⟩ := hg
  obtain rfl : (processRequest t s req).1 = r := Option.some.inj hresp
  rw [← hn.next]
  by_cases hv : req.protocolVersion = protocolVersion
  · simp only [processRequest, hv, ne_eq, not_true_eq_false, if_false, dispatch, hop,
      hi.allocate_eq, hz] at hst ⊢
    split_ifs at hst ⊢
    · exact absurd hst (ByteMap.status_failure req _)
    · rfl
  · simp only [processRequest, hv, ne_eq, not_false_eq_true, if_true] at hst
    cases hst

theorem dispatch_built {r : MemoryResponse} (h : (dispatch t s req).1 = .ok r) :
    ∃ status message handle bytes crc, r = buildResponse req status message handle bytes crc := by
  unfold dispatch at h
  repeat' split at h
  all_goals cases h
  all_goals exact ⟨_, _, _, _, _, rfl⟩

theorem processRequest_built (t : PageTracker) (s : ℕ) (req : MemoryRequest) :
    ∃ status message handle bytes crc,
      (processRequest t s req).1 = buildResponse req status message handle bytes crc := by
  unfold processRequest
  split_ifs
  · exact ⟨_, _, _, _, _, rfl⟩
  · split
    next r _ h => exact dispatch_built (congrArg Prod.fst h)
    next e _ _ => cases e <;> exact ⟨_, _, _, _, _, rfl⟩

theorem data_ne_nil {r : MemoryResponse} {data : List Byte}
    (hresp : (t.serve (.request s req)).1 = some r) (hd : r.data = some data) : data ≠ [] := by
  obtain ⟨status, message, handle, bytes, crc, hr⟩ := processRequest_built t s req
  obtain rfl : (processRequest t s req).1 = r := Option.some.inj hresp
  rw [hr] at hd
  simp only [buildResponse] at hd
  split_ifs at hd with hlen
  obtain rfl := Option.some.inj hd
  exact List.length_pos_iff.mp hlen

/-- Every event keeps the invariant and is a step of the abstract server. -/
theorem serve_sound (hr : Reached n t) (ev : Event) :
    ServeSound t n ev (t.serve ev).1 (t.serve ev).2 := by
  cases ev with
  | request s req => exact request_sound hr s req
  | disconnect s ord =>
    have hs := freeAllForOwner_sound hr.1 hr.2 ord s
    obtain ⟨-, hview⟩ := hs.refines fun hg => by simp [isGrant] at hg
    exact ⟨⟨hs.inv, hs.issued⟩, fun _ => ⟨rfl, hview⟩⟩

theorem Reached.serves (hr : Reached n t) (evs : List Event) :
    Reached (n + (trace serve t evs).countP isGranted) (Lib.run serve t evs).2 :=
  run_counted Reached isGranted (fun _ _ ev hr => (serve_sound hr ev).reached) hr

section Failures

variable {a : Allocation} {h o offset : ℕ}

/-- The checks of `write` and `read` let the access to `size` bytes through. -/
def Admits (t : PageTracker) (handle ownerId offset size : ℕ) (a : Allocation) : Prop :=
  t.checkOwnership handle ownerId = .ok a ∧ ¬ (offset > a.totalSize ∨ size > a.totalSize - offset)

theorem Admits.lookup {size : ℕ} (ha : t.Admits h o offset size a) :
    t.allocations.lookup h = some a ∧ offset + size ≤ a.totalSize := by
  obtain ⟨hc, hin⟩ := ha
  unfold checkOwnership at hc
  constructor
  · cases hl : t.allocations.lookup h with
    | none => simp [hl] at hc
    | some b =>
      simp only [hl] at hc
      split_ifs at hc
      exact congrArg some (Except.ok.inj hc)
  · omega

theorem Inv.writeLoop_completes (hi : Inv t) {data : List Byte}
    (ha : t.Admits h o offset data.length a) :
    ∃ b, writeLoop a.pages offset data data.length 0 t.allocator =
        (.ok (), { t.allocator with buffer := b }) ∧
      gather b t.allocator.pageSize a.pages a.totalSize = splice (t.contents a) offset data := by
  obtain ⟨hl, hle⟩ := ha.lookup
  have hfuel : data.length ≤ 0 + data.length := by omega
  obtain ⟨b, hb, hs⟩ := writeLoop_spec hi.pageSize_pos (hi.span_lt hl) (hi.pages_nodup hl)
    (hi.usable hl) (hle.trans (hi.size_le hl)) hfuel
  rw [Nat.add_zero, List.drop_zero] at hs
  exact ⟨b, hb, hs.gather_splice hi.pageSize_pos (hi.pages_nodup hl) (hi.size_le hl) hle⟩

theorem Inv.readLoop_completes (hi : Inv t) {size : ℕ} (ha : t.Admits h o offset size a) :
    readLoop t.allocator a.pages offset size size [] =
      .ok (slice (t.contents a) offset size) := by
  obtain ⟨hl, hle⟩ := ha.lookup
  exact readLoop_spec hi.pageSize_pos (hi.span_lt hl) (hi.usable hl) (hi.size_le hl) hle (by simp)
    (by simp [slice]) (by simp)

theorem Inv.processRequest_ok_or_same (hi : Inv t) (s : ℕ) (req : MemoryRequest) :
    (processRequest t s req).1.status = .ok ∨ (processRequest t s req).2 = t := by
  by_cases hv : req.protocolVersion = protocolVersion
  swap
  · simp only [processRequest, hv, ne_eq, not_false_eq_true, if_true, or_true]
  simp only [processRequest, hv, ne_eq, not_true_eq_false, if_false, dispatch]
  cases req.op with
  | alloc =>
    simp only [hi.allocate_eq]
    split_ifs
    · exact .inl rfl
    · exact .inr rfl
    · exact .inl rfl
  | free =>
    obtain ⟨e, hf, -⟩ | ⟨a, -, hf, -⟩ := free_cases t req.handle s
    · simp only [hf, or_true]
    · simp only [hf, ByteMap.status_buildResponse, true_or]
  | write =>
    cases req.data with
    | none => exact .inr rfl
    | some data =>
      simp only
      split_ifs
      · obtain ⟨-, hw⟩ | ⟨-, e, hw, -⟩ | ⟨-, -, b, hw, -⟩ :=
          hi.write_cases req.handle req.offset data s
        · simp only [hw, or_true]
        · simp only [hw, or_true]
        · simp only [hw, ByteMap.status_buildResponse, true_or]
      · exact .inr rfl
  | read =>
    simp only
    split_ifs
    · exact .inr rfl
    · cases t.read req.handle req.offset req.size s with
      | error e => exact .inr rfl
      | ok bytes => exact .inr rfl
  | ping => exact .inr rfl
  | other code => exact .inr rfl

/-- In every state of the daemon a request that is not answered with OK changes nothing, and
an access that the tracker admits goes through: no page operation throws, all the data is
written, all the bytes are read. -/
theorem failed_requests_change_nothing {totalSize pageSize : ℕ} {garbage : ℕ → Byte}
    {slab : SlabAllocator} (hnew : SlabAllocator.new totalSize pageSize garbage = .ok slab)
    (evs : List Event) :
    let t := (run serve (PageTracker.new slab) evs).2
    (∀ s req, (processRequest t s req).1.status ≠ .ok → (processRequest t s req).2 = t) ∧
    (∀ handle ownerId offset data a, t.Admits handle ownerId offset data.length a →
      ∃ b, writeLoop a.pages offset data data.length 0 t.allocator =
          (.ok (), { t.allocator with buffer := b }) ∧
        gather b t.allocator.pageSize a.pages a.totalSize = splice (t.contents a) offset data) ∧
    ∀ handle ownerId offset size a, t.Admits handle ownerId offset size a →
      readLoop t.allocator a.pages offset size size [] =
        .ok (slice (t.contents a) offset size) := by
  have hi := ((Reached.new hnew).serves evs).1
  refine ⟨fun s req hst => ?_, fun _ _ _ _ _ ha => hi.writeLoop_completes ha,
    fun _ _ _ _ _ ha => hi.readLoop_completes ha⟩
  exact (hi.processRequest_ok_or_same s req).resolve_left hst

/-- Session 2 may not free what session 1 holds; session 1 can fill it over a page boundary. -/
theorem failed_requests_change_nothing_two_pages :
    ∃ slab t b, SlabAllocator.new 4 2 (fun _ => 9) = .ok slab ∧
      t = (run serve (PageTracker.new slab)
        [.request 1 { protocolVersion := protocolVersion, op := .alloc, size := 3 }]).2 ∧
      (processRequest t 2 { protocolVersion := protocolVersion, op := .free, handle := 1 }).2 = t ∧
      writeLoop [0, 1] 1 [7, 8] 2 0 t.allocator = (.ok (), { t.allocator with buffer := b }) ∧
      gather b 2 [0, 1] 3 = [0, 7, 8] := by
  have hnew : SlabAllocator.new 4 2 (fun _ => 9) = .ok _ := rfl
  obtain ⟨hsame, hwrite, -⟩ := failed_requests_change_nothing hnew
    [.request 1 { protocolVersion := protocolVersion, op := .alloc, size := 3 }]
  obtain ⟨b, hb, hg⟩ := hwrite 1 1 1 [7, 8] ⟨3, [0, 1], 1⟩ ⟨rfl, by decide⟩
  refine ⟨_, _, b, hnew, rfl, ?_, hb, hg.trans ?_⟩
  · apply hsame
    decide
  · decide

end Failures

end PageTracker

end MemInfo
