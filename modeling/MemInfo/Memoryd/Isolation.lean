import MemInfo.Memoryd.Accounting
import MemInfo.Memoryd.Server

/-! # Isolation of sessions

What a session owns is changed by its own requests only, and what it reads is a
function of its own exchanges with the daemon.
-/

namespace MemInfo

open Lib MemoryProtocol

def Event.Releases (s h : ℕ) : Event → Prop
  | .request s' req => s' = s ∧ req.op = .free ∧ req.handle = h
  | .disconnect s' _ => s' = s

def Event.Writes (s h : ℕ) : Event → Prop
  | .request s' req => s' = s ∧ req.op = .write ∧ req.handle = h
  | .disconnect _ _ => False

def own (s : ℕ) (tr : List (Event × Option MemoryResponse)) :
    List (Event × Option MemoryResponse) :=
  tr.filter fun e => e.1.session = s

/-- One exchange of the owner of `h`, as it changes the bytes of `h`. -/
def writtenStep (h : ℕ) (bytes : Option (List Byte)) :
    Event × Option MemoryResponse → Option (List Byte)
  | (.request _ req, some r) =>
    if r.status ≠ .ok then bytes
    else match req.op with
      | .alloc => if req.size ≠ 0 ∧ r.handle = h then some (List.replicate req.size 0) else bytes
      | .write =>
        if req.handle = h then bytes.map fun bs => splice bs req.offset (req.data.getD [])
        else bytes
      | .free => if req.handle = h then none else bytes
      | _ => bytes
  | (.request _ _, none) => bytes
  | (.disconnect _ _, _) => none

/-- The bytes of `h` that a session can tell from its own exchanges: zeros since the
allocation, with its own acknowledged writes. -/
def written (h : ℕ) (tr : List (Event × Option MemoryResponse)) : Option (List Byte) :=
  tr.foldl (writtenStep h) none

namespace ByteMap

/-- The bytes of `h` if session `s` owns it. -/
def owned (m : ByteMap) (s h : ℕ) : Option (List Byte) :=
  (m h).bind fun b => if b.owner = s then some b.bytes else none

def AllOwned (m : ByteMap) : Prop := ∀ h b, m h = some b → b.owner ≠ 0

variable {m m' : ByteMap} {s s' h : ℕ} {req : MemoryRequest} {r : MemoryResponse} {b : Block}

theorem owned_update_of_ne {k : ℕ} (hk : h ≠ k) (v : Option Block) :
    owned (Function.update m k v) s h = m.owned s h := by
  simp only [owned, Function.update_of_ne hk]

theorem owned_update_some (b : Block) :
    owned (Function.update m h (some b)) s h = if b.owner = s then some b.bytes else none := by
  simp [owned]

theorem owned_of_some (hm : m h = some b) :
    m.owned s h = if b.owner = s then some b.bytes else none := by
  simp [owned, hm]

theorem owner_eq (ho : AllOwned m) (hm : m h = some b) (hp : b.Permits s) : b.owner = s :=
  hp.resolve_left (ho h b hm)

theorem Outcome.allOwned (hs : s ≠ 0) (ho : AllOwned m) (h : Outcome m s req r m') :
    AllOwned m' := by
  cases h with
  | refused => exact ho
  | idle => exact ho
  | granted =>
    intro k b hb
    rw [Function.update_apply] at hb
    split_ifs at hb
    · obtain rfl := Option.some.inj hb
      exact hs
    · exact ho k b hb
  | stored _ _ _ hm =>
    intro k b hb
    rw [Function.update_apply] at hb
    split_ifs at hb
    · obtain rfl := Option.some.inj hb
      exact (ho _ _ hm :)
    · exact ho k b hb
  | fetched => exact ho
  | freed =>
    intro k b hb
    rw [Function.update_apply] at hb
    split_ifs at hb
    exact ho k b hb

theorem Outcome.owned_other (ho : AllOwned m) (hne : s' ≠ s) (hout : Outcome m s req r m') :
    m'.owned s' h = m.owned s' h := by
  cases hout with
  | refused => rfl
  | idle => rfl
  | granted _ _ _ _ hm =>
    by_cases hk : h = r.handle
    · subst hk
      rw [owned_update_some, if_neg hne.symm]
      simp [owned, hm]
    · exact owned_update_of_ne hk _
  | stored _ _ _ hm hp =>
    by_cases hk : h = req.handle
    · subst hk
      have := owner_eq ho hm hp
      rw [owned_update_some, owned_of_some hm, if_neg (by simp [this, hne.symm]),
        if_neg (by simp [this, hne.symm])]
    · exact owned_update_of_ne hk _
  | fetched => rfl
  | freed _ _ hm hp =>
    by_cases hk : h = req.handle
    · subst hk
      have := owner_eq ho hm hp
      rw [owned_of_some hm, if_neg (by simp [this, hne.symm])]
      simp [owned]
    · exact owned_update_of_ne hk _

theorem Outcome.owned_own (ho : AllOwned m) (hout : Outcome m s req r m') :
    m'.owned s h = writtenStep h (m.owned s h) (.request s req, some r) := by
  cases hout with
  | refused hst => simp [writtenStep, hst]
  | idle hst _ hop =>
    rcases hop with hop | ⟨hop, hz⟩ | ⟨hop, hz⟩ | ⟨hop, hd⟩
    · simp [writtenStep, hst, hop]
    · simp [writtenStep, hst, hop, hz]
    · simp [writtenStep, hst, hop]
    · simp [writtenStep, hst, hop, hd]
  | granted hst hop hz _ hm =>
    by_cases hk : h = r.handle
    · subst hk
      simp [writtenStep, hst, hop, hz, owned_update_some]
    · simp [writtenStep, hst, hop, owned_update_of_ne hk, Ne.symm hk]
  | stored hst hop hd hm hp =>
    by_cases hk : h = req.handle
    · subst hk
      simp [writtenStep, hst, hop, hd, owned_update_some, owned_of_some hm, owner_eq ho hm hp]
    · simp [writtenStep, hst, hop, owned_update_of_ne hk, Ne.symm hk]
  | fetched hst hop => simp [writtenStep, hst, hop]
  | freed hst hop hm hp =>
    by_cases hk : h = req.handle
    · subst hk
      simp [writtenStep, hst, hop, owned]
    · simp [writtenStep, hst, hop, owned_update_of_ne hk, Ne.symm hk]

/-- A block stays as it is unless its owner writes to it or frees it. -/
theorem Outcome.kept (ho : AllOwned m) (hm : m h = some b)
    (hnot : ¬ (Event.request s req).Writes b.owner h ∧ ¬ (Event.request s req).Releases b.owner h)
    (hout : Outcome m s req r m') : m' h = some b := by
  cases hout with
  | refused => exact hm
  | idle => exact hm
  | granted _ _ _ _ hfresh =>
    rw [Function.update_of_ne, hm]
    rintro rfl
    simp [hm] at hfresh
  | stored _ hop _ hm' hp =>
    rw [Function.update_of_ne, hm]
    rintro rfl
    obtain rfl := Option.some.inj (hm.symm.trans hm')
    exact hnot.1 ⟨(owner_eq ho hm hp).symm, hop, rfl⟩
  | fetched => exact hm
  | freed _ hop hm' hp =>
    rw [Function.update_of_ne, hm]
    rintro rfl
    obtain rfl := Option.some.inj (hm.symm.trans hm')
    exact hnot.2 ⟨(owner_eq ho hm hp).symm, hop, rfl⟩

theorem Outcome.of_alloc (hop : req.op = .alloc) (hz : req.size ≠ 0) (hst : r.status = .ok)
    (hout : Outcome m s req r m') : m' r.handle = some ⟨s, List.replicate req.size 0⟩ := by
  cases hout with
  | refused h => exact absurd hst h
  | idle _ _ h => simp [hop, hz] at h
  | granted => exact Function.update_self _ _ _
  | stored _ h => simp [hop] at h
  | fetched _ h => simp [hop] at h
  | freed _ h => simp [hop] at h

theorem Outcome.of_read (ho : AllOwned m) (hop : req.op = .read) (hst : r.status = .ok)
    (hout : Outcome m s req r m') :
    r.data.getD [] = slice ((m.owned s req.handle).getD []) req.offset req.size := by
  cases hout with
  | refused h => exact absurd hst h
  | idle _ hd h =>
    obtain hz : req.size = 0 := by simpa [hop] using h
    simp [hd, hz, slice]
  | granted _ h => simp [hop] at h
  | stored _ h => simp [hop] at h
  | fetched _ _ hm hp _ hd =>
    rw [hd, owned_of_some hm, if_pos (owner_eq ho hm hp)]
    rfl
  | freed _ h => simp [hop] at h

section Events

variable {ev : Event} {r : Option MemoryResponse} {tr : List (Event × Option MemoryResponse)}

theorem owned_filter (s' : ℕ) :
    owned (fun k => (m k).filter fun b => b.owner ≠ s') s h =
      if s = s' then none else m.owned s h := by
  unfold owned
  cases hm : m h with
  | none => simp [hm]
  | some b =>
    simp only [hm, Option.filter_some, Option.bind_some]
    by_cases hb : b.owner = s'
    · rw [if_neg (by simpa using hb), Option.bind_none]
      split_ifs with hs hs'
      · rfl
      · exact absurd (hs'.symm.trans hb) hs
      · rfl
    · rw [if_pos (by simpa using hb), Option.bind_some]
      split_ifs with hs' hs
      · exact absurd (hs'.trans hs) hb
      · rfl
      · rfl
      · rfl

theorem Serves.allOwned (hs : ev.session ≠ 0) (ho : AllOwned m) (h : m.Serves ev r m') :
    AllOwned m' := by
  cases ev with
  | request s req =>
    obtain ⟨resp, -, ha⟩ := h
    exact ha.outcome.allOwned hs ho
  | disconnect s ord =>
    obtain ⟨-, rfl⟩ := h
    intro k b hb
    rw [if_neg (show s ≠ 0 from hs)] at hb
    exact ho k b (Option.filter_eq_some_iff.mp hb).1

theorem Serves.kept (ho : AllOwned m) (hm : m h = some b)
    (hnot : ¬ ev.Writes b.owner h ∧ ¬ ev.Releases b.owner h) (hsv : m.Serves ev r m') :
    m' h = some b := by
  cases ev with
  | request s req =>
    obtain ⟨resp, -, ha⟩ := hsv
    exact ha.outcome.kept ho hm hnot
  | disconnect s ord =>
    obtain ⟨-, rfl⟩ := hsv
    split_ifs
    · exact hm
    · have hne : b.owner ≠ s := fun he => hnot.2 he.symm
      simp [hm, hne]

/-- Every session can tell the bytes of what it owns from its own exchanges. -/
def Mirrors (m : ByteMap) (tr : List (Event × Option MemoryResponse)) : Prop :=
  ∀ s, s ≠ 0 → ∀ h, m.owned s h = written h (own s tr)

theorem Serves.mirrors (ho : AllOwned m) (hm : Mirrors m tr) (hsv : m.Serves ev r m') :
    Mirrors m' (tr ++ [(ev, r)]) := by
  intro s hs h
  have hown : own s (tr ++ [(ev, r)]) =
      own s tr ++ if ev.session = s then [(ev, r)] else [] := by
    rw [own, List.filter_append, List.filter_singleton, Bool.cond_decide, own]
  rw [hown, written, List.foldl_append, ← written, ← hm s hs h]
  cases ev with
  | request s' req =>
    obtain ⟨resp, rfl, ha⟩ := hsv
    split_ifs with he
    · subst he
      exact ha.outcome.owned_own ho
    · exact ha.outcome.owned_other ho (Ne.symm he)
  | disconnect s' ord =>
    obtain ⟨rfl, rfl⟩ := hsv
    by_cases he : (Event.disconnect s' ord).session = s
    · rw [if_pos he]
      obtain rfl : s' = s := he
      rw [if_neg hs, owned_filter, if_pos rfl]
      rfl
    · rw [if_neg he, List.foldl_nil]
      split_ifs with h₀
      · rfl
      · rw [owned_filter]
        exact if_neg (Ne.symm he)

end Events

end ByteMap

namespace PageTracker

variable {t : PageTracker} {n s k : ℕ} {a : Allocation} {ev : Event} {evs pre post : List Event}

/-- A tracker that can serve the events to come: they belong to sessions, every block is
owned, and the handle counter will not wrap around. -/
structure Pending (evs : List Event) (t : PageTracker) : Prop where
  sessions : ∀ ev ∈ evs, ev.session ≠ 0
  allOwned : ByteMap.AllOwned t.view
  reached : ∃ n, Reached n t ∧ n + (trace serve t evs).countP isGranted < 2 ^ 64

theorem Pending.sound (hp : Pending (ev :: evs) t) :
    ∃ n, ServeSound t n ev (t.serve ev).1 (t.serve ev).2 ∧ Reached n t ∧
      n + ((if isGranted (ev, (t.serve ev).1) then 1 else 0) +
        (trace serve (t.serve ev).2 evs).countP isGranted) < 2 ^ 64 := by
  obtain ⟨n, hr, hb⟩ := hp.reached
  rw [trace_cons, List.countP_cons] at hb
  exact ⟨n, serve_sound hr ev, hr, by omega⟩

theorem Pending.serves (hp : Pending (ev :: evs) t) :
    ByteMap.Serves t.view ev (t.serve ev).1 (t.serve ev).2.view := by
  obtain ⟨n, hs, -, hb⟩ := hp.sound
  exact hs.serves (by omega)

theorem Pending.tail (hp : Pending (ev :: evs) t) : Pending evs (t.serve ev).2 := by
  obtain ⟨n, hs, -, hb⟩ := hp.sound
  have hsession := hp.sessions ev (by simp)
  exact ⟨fun e he => hp.sessions e (by simp [he]), hp.serves.allOwned hsession hp.allOwned,
    _, hs.reached, by omega⟩

theorem Pending.drop (hp : Pending (pre ++ post) t) : Pending post (run serve t pre).2 :=
  run_invariant (fun evs t => Pending (evs ++ post) t) (fun _ _ _ hp => hp.tail) hp

theorem Pending.new {totalSize pageSize : ℕ} {garbage : ℕ → Byte} {slab : SlabAllocator}
    (hnew : SlabAllocator.new totalSize pageSize garbage = .ok slab)
    (hs : ∀ ev ∈ evs, 1 ≤ ev.session)
    (hb : (trace serve (PageTracker.new slab) evs).countP isGranted < 2 ^ 64) :
    Pending evs (PageTracker.new slab) := by
  refine ⟨fun ev he => Nat.one_le_iff_ne_zero.mp (hs ev he), ?_, 0, Reached.new hnew, by omega⟩
  intro h b hv
  simp [view, PageTracker.new] at hv

theorem Pending.mirrors {tr : List (Event × Option MemoryResponse)} (hp : Pending (pre ++ post) t)
    (hm : ByteMap.Mirrors t.view tr) :
    ByteMap.Mirrors (run serve t pre).2.view (tr ++ trace serve t pre) := by
  induction pre generalizing t tr with
  | nil => simpa using hm
  | cons ev pre ih =>
    have hm' := hp.serves.mirrors hp.allOwned hm
    rw [trace_cons, List.append_cons]
    exact ih hp.tail hm'

section Records

theorem lookup_assignOwner (t : PageTracker) (h o k : ℕ) :
    (t.assignOwner h o).allocations.lookup k =
      if k = h then (t.allocations.lookup h).map fun a => { a with ownerId := o }
      else t.allocations.lookup k := by
  unfold assignOwner
  cases hl : t.allocations.lookup h with
  | none =>
    split_ifs with hk
    · rw [hk, hl, Option.map_none]
    · rfl
  | some a => exact Dict.lookup_insert_iff

theorem lookup_foldl_sweep {o : ℕ} (ho : a.ownerId ≠ o) (l : List ℕ)
    (hl : t.allocations.lookup k = some a) :
    (l.foldl (PageTracker.sweep o) t).allocations.lookup k = some a := by
  induction l generalizing t with
  | nil => exact hl
  | cons h l ih =>
    apply ih
    unfold PageTracker.sweep
    cases hl' : t.allocations.lookup h with
    | none => exact hl
    | some b =>
      simp only
      split_ifs with hb
      · rw [release, Dict.lookup_erase_iff, if_neg, hl]
        rintro rfl
        obtain rfl := Option.some.inj (hl.symm.trans hl')
        exact ho hb
      · exact hl

theorem Reached.lookup_alloc (hr : Reached n t) (hlt : n < 2 ^ 64) (size o : ℕ)
    (hl : t.allocations.lookup k = some a) :
    ∃ t', (∃ h, t.allocate size = (.ok h, t') ∧
        (t'.assignOwner h o).allocations.lookup k = some a) ∨
      ∃ e, t.allocate size = (.error e, t') ∧ t'.allocations.lookup k = some a := by
  obtain ⟨hi, hn⟩ := hr
  rw [hi.allocate_eq]
  split_ifs with h₀ h₁
  · refine ⟨t, .inl ⟨0, rfl, ?_⟩⟩
    have hz := view_eq_none.mp (hn.view_zero hlt)
    rw [lookup_assignOwner, if_neg, hl]
    rintro rfl
    simp [hl] at hz
  · exact ⟨t, .inr ⟨_, rfl, hl⟩⟩
  · refine ⟨_, .inl ⟨_, rfl, ?_⟩⟩
    have hne : k ≠ t.nextHandle := by
      rintro rfl
      simp [hn.fresh hlt] at hl
    rw [lookup_assignOwner, if_neg hne, PageTracker.granted, AList.lookup_insert_ne hne, hl]

theorem Reached.lookup_kept (hr : Reached n t) (hlt : n < 2 ^ 64) (ho : a.ownerId ≠ 0)
    (hl : t.allocations.lookup k = some a) (hnot : ¬ ev.Releases a.ownerId k) :
    (t.serve ev).2.allocations.lookup k = some a := by
  cases ev with
  | disconnect s ord =>
    simp only [serve, PageTracker.freeAllForOwner]
    split_ifs
    · exact hl
    · exact lookup_foldl_sweep (fun he => hnot he.symm) _ hl
  | request s req =>
    by_cases hv : req.protocolVersion = protocolVersion
    swap
    · simpa only [serve, processRequest, hv, ne_eq, not_false_eq_true, if_true] using hl
    simp only [serve, processRequest, hv, ne_eq, not_true_eq_false, if_false, dispatch]
    cases hop : req.op with
    | alloc =>
      obtain ⟨t', ⟨h, ha, hk⟩ | ⟨e, ha, hk⟩⟩ := hr.lookup_alloc hlt req.size s hl
      · simpa only [ha] using hk
      · simpa only [ha] using hk
    | free =>
      obtain ⟨e, hf, -⟩ | ⟨b, hb, hf, href⟩ := free_cases t req.handle s
      · simpa only [hf] using hl
      · simp only [hf, release]
        rw [Dict.lookup_erase_iff, if_neg, hl]
        rintro rfl
        obtain ⟨blk, hblk, hp, -⟩ := ByteMap.refusal_eq_none href
        obtain rfl := Option.some.inj ((view_of_lookup hl).symm.trans hblk)
        exact hnot ⟨(hp.resolve_left ho).symm, hop, rfl⟩
    | write =>
      simp only
      cases hd : req.data with
      | none => exact hl
      | some data =>
        simp only
        split_ifs with hc
        · obtain ⟨-, hw⟩ | ⟨-, e, hw, -⟩ | ⟨-, -, b, hw, -⟩ :=
            hr.1.write_cases req.handle req.offset data s <;> simpa only [hw] using hl
        · exact hl
    | read =>
      simp only
      split_ifs
      · exact hl
      · cases t.read req.handle req.offset req.size s with
        | error e => exact hl
        | ok bytes => exact hl
    | ping => exact hl
    | other code => exact hl

theorem Pending.lookup_kept (hp : Pending (evs ++ post) t) (ho : a.ownerId ≠ 0)
    (hl : t.allocations.lookup k = some a) (hnot : ∀ ev ∈ evs, ¬ ev.Releases a.ownerId k) :
    (run serve t evs).2.allocations.lookup k = some a := by
  induction evs generalizing t with
  | nil => exact hl
  | cons ev evs ih =>
    obtain ⟨n, -, hr, hb⟩ := hp.sound
    have hl' := hr.lookup_kept (by omega) ho hl (hnot ev (by simp))
    exact ih hp.tail hl' fun e he => hnot e (by simp [he])

theorem Pending.view_kept {b : Block} (hp : Pending (evs ++ post) t) (hv : t.view k = some b)
    (hnot : ∀ ev ∈ evs, ¬ ev.Writes b.owner k ∧ ¬ ev.Releases b.owner k) :
    (run serve t evs).2.view k = some b := by
  induction evs generalizing t with
  | nil => exact hv
  | cons ev evs ih =>
    have hv' := hp.serves.kept hp.allOwned hv (hnot ev (by simp))
    exact ih hp.tail hv' fun e he => hnot e (by simp [he])

end Records

theorem Pending.lookup_granted {req : MemoryRequest} {r : MemoryResponse}
    (hp : Pending (.request s req :: evs) t) (hresp : (t.serve (.request s req)).1 = some r)
    (hg : isGranted (.request s req, some r)) :
    ∃ a, (t.serve (.request s req)).2.allocations.lookup r.handle = some a ∧
      a.totalSize = req.size ∧ a.ownerId = s := by
  simp only [isGranted, Bool.decide_and, Bool.and_eq_true, decide_eq_true_eq] at hg
  obtain ⟨hop, hz, hst⟩ := hg
  obtain ⟨resp, hr, ha⟩ := hp.serves
  obtain rfl := Option.some.inj (hresp.symm.trans hr)
  have hview := ha.outcome.of_alloc hop hz hst
  obtain ⟨a, hl, hb⟩ := lookup_of_view hview
  refine ⟨a, hl, ?_, (congrArg Block.owner hb).symm⟩
  simpa using (congrArg (fun b => b.bytes.length) hb).symm

theorem Pending.read_data {req : MemoryRequest} {r : MemoryResponse}
    (hp : Pending (.request s req :: evs) t) (hresp : (t.serve (.request s req)).1 = some r)
    (hop : req.op = .read) (hst : r.status = .ok) :
    r.data.getD [] = slice ((ByteMap.owned t.view s req.handle).getD []) req.offset req.size := by
  obtain ⟨resp, hr, ha⟩ := hp.serves
  obtain rfl := Option.some.inj (hresp.symm.trans hr)
  exact ha.outcome.of_read hp.allOwned hop hst

/-- In every interleaving of requests and disconnects of sessions that grants fewer than
`2 ^ 64` allocations: an allocation keeps its record until the session that asked for it
gives it up, and its bytes until that session writes to it; and what a session reads is a
function of its own exchanges with the daemon. -/
theorem session_isolation {totalSize pageSize : ℕ} {garbage : ℕ → Byte} {slab : SlabAllocator}
    (hnew : SlabAllocator.new totalSize pageSize garbage = .ok slab) (evs : List Event)
    (hsessions : ∀ ev ∈ evs, 1 ≤ ev.session)
    (hgrants : (trace serve (PageTracker.new slab) evs).countP isGranted < 2 ^ 64) :
    (∀ pre s req mid post r, evs = pre ++ .request s req :: (mid ++ post) →
      ((run serve (PageTracker.new slab) pre).2.serve (.request s req)).1 = some r →
      isGranted (.request s req, some r) →
      (∀ ev ∈ mid, ¬ ev.Releases s r.handle) →
      (∀ ev ∈ post, ¬ ev.Writes s r.handle ∧ ¬ ev.Releases s r.handle) →
      let t := (run serve (PageTracker.new slab) (pre ++ .request s req :: mid)).2
      let t' := (run serve (PageTracker.new slab) evs).2
      ∃ a, a.totalSize = req.size ∧ t.allocations.lookup r.handle = some a ∧
        t'.allocations.lookup r.handle = some a ∧ t'.contents a = t.contents a) ∧
    (∀ pre s req post r, evs = pre ++ .request s req :: post →
      ((run serve (PageTracker.new slab) pre).2.serve (.request s req)).1 = some r →
      req.op = .read → r.status = .ok →
      r.data.getD [] = slice ((written req.handle
        (own s (trace serve (PageTracker.new slab) pre))).getD []) req.offset req.size) := by
  have hp := Pending.new hnew hsessions hgrants
  constructor
  · rintro pre s req mid post r rfl hresp hg hmid hpost
    have hs : s ≠ 0 := hp.sessions (.request s req) (by simp)
    have hp₁ := hp.drop
    obtain ⟨a, hl, hsize, rfl⟩ := hp₁.lookup_granted hresp hg
    have hl₁ := hp₁.tail.lookup_kept hs hl hmid
    have hp₂ := hp₁.tail.drop
    rw [← List.append_nil post] at hp₂
    have hl₂ := hp₂.lookup_kept hs hl₁ fun ev he => (hpost ev he).2
    have hv₂ := hp₂.view_kept (view_of_lookup hl₁) hpost
    simp only [run_append_snd, run_cons_snd]
    refine ⟨a, hsize, hl₁, hl₂, ?_⟩
    rw [view_of_lookup hl₂] at hv₂
    exact congrArg Block.bytes (Option.some.inj hv₂)
  · rintro pre s req post r rfl hresp hop hst
    have hs : s ≠ 0 := hp.sessions (.request s req) (by simp)
    have hm : ByteMap.Mirrors (PageTracker.new slab).view [] := by
      intro s _ h
      simp [ByteMap.owned, view, PageTracker.new, written, own]
    rw [hp.drop.read_data hresp hop hst, hp.mirrors hm s hs req.handle, List.nil_append]

def allocRequest (size : ℕ) : MemoryRequest :=
  { protocolVersion := protocolVersion, op := .alloc, size }

def freeRequest (handle : ℕ) : MemoryRequest :=
  { protocolVersion := protocolVersion, op := .free, handle }

def readRequest (handle offset size : ℕ) : MemoryRequest :=
  { protocolVersion := protocolVersion, op := .read, handle, offset, size }

/-- Session 2 gets the pages of session 1 and reads what it can know of them: zeros. -/
theorem session_isolation_recycled :
    ∃ slab r, SlabAllocator.new 4 2 (fun _ => 9) = .ok slab ∧
      let evs : List Event := [.request 1 (allocRequest 3), .disconnect 1 (.id ℕ),
        .request 2 (allocRequest 2)]
      ((run serve (PageTracker.new slab) evs).2.serve (.request 2 (readRequest 2 0 2))).1 = some r ∧
      r.data.getD [] = slice ((written 2
        (own 2 (trace serve (PageTracker.new slab) evs))).getD []) 0 2 := by
  have hnew : SlabAllocator.new 4 2 (fun _ => 9) = .ok _ := rfl
  refine ⟨_, _, hnew, rfl, ?_⟩
  exact (session_isolation hnew [.request 1 (allocRequest 3), .disconnect 1 (.id ℕ),
    .request 2 (allocRequest 2), .request 2 (readRequest 2 0 2)] (by simp [Event.session])
    (by decide)).2 _ 2 (readRequest 2 0 2) [] _ rfl rfl rfl rfl

section Reuse

def takeAndReturnRequests (k : ℕ) : List Event :=
  [.request 2 (allocRequest 1), .request 2 (freeRequest (wrap (k + 2)))]

theorem OneHeld.serve_alloc (ho : OneHeld t n) :
    (t.serve (.request 2 (allocRequest 1))).2 = (t.granted 1).assignOwner (wrap (n + 2)) 2 := by
  simp [serve, processRequest, allocRequest, dispatch, ho.allocate_eq]

theorem OneHeld.serve_cycle (ho : OneHeld t n) :
    (run serve t (takeAndReturnRequests n)).2 = (run step t (takeAndReturn 2 n)).2 := by
  have hl := ho.owned_lookup 2 (wrap (n + 2))
  rw [if_pos rfl] at hl
  simp only [takeAndReturnRequests, takeAndReturn, run_cons_snd, run_nil, ho.serve_alloc, step,
    ho.allocate_eq]
  simp [serve, processRequest, freeRequest, dispatch, PageTracker.free, checkOwnership, hl]

/-- After `2 ^ 64` grants to session 2 the next one replaces the allocation of session 1,
which neither wrote to it nor gave it up. -/
theorem isolation_lost_after_wrap :
    ∃ slab post r a, SlabAllocator.new 2 1 (fun _ => 0) = .ok slab ∧
      (∀ ev ∈ post, ev.session = 2) ∧
      let first := (PageTracker.new slab).serve (.request 1 (allocRequest 1))
      first.1 = some r ∧ isGranted (.request 1 (allocRequest 1), some r) ∧
      first.2.allocations.lookup r.handle = some a ∧
      (run serve first.2 post).2.allocations.lookup r.handle ≠ some a := by
  have hnew : SlabAllocator.new 2 1 (fun _ => 0) = .ok _ := rfl
  have hfirst : OneHeld ((PageTracker.new _).serve (.request 1 (allocRequest 1))).2 0 :=
    ⟨(serve_sound (Reached.new hnew) _).reached.1, rfl, rfl, rfl, ⟨1, rfl⟩, rfl⟩
  -- the number of rounds stays a variable, so that nothing unfolds the list of requests
  obtain ⟨n, hn⟩ : ∃ n, n = 2 ^ 64 - 1 := ⟨_, rfl⟩
  have hrounds := run_rounds (fun n t => OneHeld t n) takeAndReturnRequests (n := n)
    (fun k t hk ho => ho.serve_cycle ▸ ho.cycle 2 (by omega)) hfirst
  refine ⟨_, (List.range n).flatMap takeAndReturnRequests ++ [.request 2 (allocRequest 1)], _, _,
    hnew, ?_, rfl, rfl, rfl, ?_⟩
  · intro ev hev
    simp only [List.mem_append, List.mem_flatMap, takeAndReturnRequests, List.mem_cons,
      List.not_mem_nil, or_false] at hev
    obtain ⟨k, -, rfl | rfl⟩ | rfl := hev <;> rfl
  · rw [run_append_snd, run_cons_snd, run_nil, hrounds.serve_alloc, hrounds.owned_lookup, if_pos]
    · simp
    · rw [hn]
      rfl

end Reuse

end PageTracker

end MemInfo
