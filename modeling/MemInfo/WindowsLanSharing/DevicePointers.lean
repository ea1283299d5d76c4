import MemInfo.Lib.Run
import MemInfo.WindowsLanSharing.CudaProxy

/-! # Synthetic device pointers

`DevicePointerTracker` hands out the multiples of 4096 one after the other, whatever the sizes of
the allocations. The pointers differ, but the ranges behind them overlap as soon as an allocation is
larger than the room up to the next live pointer. A pointer inside such an allocation is then looked
up as another one.
-/

namespace MemInfo.WindowsLanSharing

open Lib

/-- The pointers that lie in an allocation at `ptr`. Sums of pointers and offsets wrap. -/
def TrackerEntry.Contains (e : TrackerEntry) (ptr q : UInt64) : Prop := q - ptr < e.size

instance (e : TrackerEntry) (ptr q : UInt64) : Decidable (e.Contains ptr q) :=
  inferInstanceAs (Decidable (_ < _))

namespace DevicePointerTracker

variable (t : DevicePointerTracker)

def Disjoint : Prop :=
  ∀ ptr e ptr' e', t.map.lookup ptr = some e → t.map.lookup ptr' = some e' → ptr ≠ ptr' →
    ∀ q, ¬ (e.Contains ptr q ∧ e'.Contains ptr' q)

/-- A pointer inside a live allocation is looked up as that allocation, or not found. -/
def ResolvesInside : Prop :=
  ∀ ptr e q, t.map.lookup ptr = some e → e.Contains ptr q → (t.getRemote q).isSome → q = ptr

variable {t}

theorem nextSynthetic_free (t : DevicePointerTracker) (ptr : UInt64) :
    (t.free ptr).2.nextSynthetic = t.nextSynthetic := by
  unfold free
  split <;> rfl

theorem lookup_free (t : DevicePointerTracker) (ptr q : UInt64) :
    (t.free ptr).2.map.lookup q = if q = ptr then none else t.map.lookup q := by
  unfold free
  split
  next hnone =>
    split_ifs with hq
    · rw [hq, hnone]
    · rfl
  next => exact Dict.lookup_erase_iff

theorem getRemote_isSome_iff {q : UInt64} :
    (t.getRemote q).isSome ↔ ∃ e, t.map.lookup q = some e := by
  rw [getRemote, Option.isSome_map, Option.isSome_iff_exists]

theorem ResolvesInside.disjoint (h : t.ResolvesInside) : t.Disjoint := by
  rintro ptr e ptr' e' hptr hptr' hne q ⟨hq, hq'⟩
  have hremote : (t.getRemote ptr).isSome := getRemote_isSome_iff.2 ⟨e, hptr⟩
  have hremote' : (t.getRemote ptr').isSome := getRemote_isSome_iff.2 ⟨e', hptr'⟩
  rcases UInt64.le_total (q - ptr) (q - ptr') with hle | hle
  · have hinside : e'.Contains ptr' ptr := by
      have hsub : ptr - ptr' = (q - ptr') - (q - ptr) := by
        grind
      rw [TrackerEntry.Contains, hsub]
      exact UInt64.lt_of_le_of_lt (UInt64.sub_le hle) hq'
    exact hne (h ptr' e' ptr hptr' hinside hremote)
  · have hinside : e.Contains ptr ptr' := by
      have hsub : ptr' - ptr = (q - ptr) - (q - ptr') := by
        grind
      rw [TrackerEntry.Contains, hsub]
      exact UInt64.lt_of_le_of_lt (UInt64.sub_le hle) hq
    exact hne (h ptr e ptr' hptr hinside hremote').symm

end DevicePointerTracker

inductive TrackerEvent (ι : Type*) where
  -- `allocate`, up to the lock
  | fetch (thread : ι) (remotePtr size : UInt64)
  -- the rest of `allocate`
  | record (thread : ι)
  | free (synthetic : UInt64)
  deriving DecidableEq, Repr

/-- The tracker and the threads that are inside `allocate`. -/
structure SharedTracker (ι : Type*) where
  tracker : DevicePointerTracker := {}
  allocating : ι → Option (UInt64 × TrackerEntry) := fun _ => none
  /-- All calls of `allocate`, in the order of `fetch_add`. -/
  calls : List TrackerEntry := []

namespace SharedTracker

variable {ι : Type*} (s : SharedTracker ι)

/-! ## The pointers -/

/-- The pointer of the `k`-th call. -/
def synthetic (k : ℕ) : UInt64 := UInt64.ofNat (2 ^ 40 + 4096 * k)

theorem synthetic_succ (k : ℕ) : synthetic k + 4096 = synthetic (k + 1) := by
  have hword : UInt64.ofNat 4096 = 4096 := rfl
  rw [synthetic, synthetic, ← hword, ← UInt64.ofNat_add, Nat.mul_succ, Nat.add_assoc]

theorem synthetic_toNat {k : ℕ} (hk : k < 2 ^ 51) : (synthetic k).toNat = 2 ^ 40 + 4096 * k := by
  rw [synthetic, UInt64.toNat_ofNat_of_lt']
  change _ < 2 ^ 64
  omega

theorem roundUp_synthetic (k : ℕ) : (synthetic k + 4095) &&& ~~~4095 = synthetic k := by
  have hmask : (~~~4095 : UInt64).toNat = sizeMax - (2 ^ 12 - 1) := by decide
  have hmod : (synthetic k).toNat % 4096 = 0 := by
    rw [synthetic, UInt64.toNat_ofNat']
    omega
  have hlt : (synthetic k).toNat < 2 ^ 64 := (synthetic k).toNat_lt
  have hsum : (synthetic k + 4095).toNat = (synthetic k).toNat + 4095 := by
    rw [UInt64.toNat_add]
    change ((synthetic k).toNat + 4095) % 2 ^ 64 = _
    omega
  apply UInt64.toNat_inj.1
  rw [UInt64.toNat_and, hmask, and_mask (UInt64.toNat_lt _) (by decide), hsum]
  omega

theorem synthetic_sub {i j : ℕ} (hij : i < j) (hj : j < 2 ^ 51) :
    (synthetic j - synthetic i).toNat = 4096 * (j - i) ∧
      (synthetic i - synthetic j).toNat = 2 ^ 64 - 4096 * (j - i) := by
  rw [UInt64.toNat_sub, UInt64.toNat_sub, synthetic_toNat hj, synthetic_toNat (Nat.lt_trans hij hj)]
  omega

theorem synthetic_ne {i j : ℕ} (hij : i < j) (hj : j < 2 ^ 51) : synthetic i ≠ synthetic j := by
  intro h
  have htoNat := congrArg UInt64.toNat h
  rw [synthetic_toNat hj, synthetic_toNat (Nat.lt_trans hij hj)] at htoNat
  omega

def Issued (k : ℕ) (ptr : UInt64) (e : TrackerEntry) : Prop :=
  s.calls[k]? = some e ∧ ptr = synthetic k

structure InOrder : Prop where
  next : s.tracker.nextSynthetic = synthetic s.calls.length
  recorded : ∀ ptr e, s.tracker.map.lookup ptr = some e → ∃ k, s.Issued k ptr e
  allocating : ∀ thread ptr e, s.allocating thread = some (ptr, e) → ∃ k, s.Issued k ptr e

theorem inOrder_start : InOrder ({} : SharedTracker ι) where
  next := rfl
  recorded _ _ h := by cases h
  allocating _ _ _ h := by cases h

variable {s}

theorem InOrder.free (h : s.InOrder) (ptr : UInt64) :
    InOrder { s with tracker := (s.tracker.free ptr).2 } where
  next := (DevicePointerTracker.nextSynthetic_free ..).trans h.next
  recorded ptr' e' hptr' := by
    rw [DevicePointerTracker.lookup_free] at hptr'
    split_ifs at hptr'
    exact h.recorded ptr' e' hptr'
  allocating := h.allocating

/-! ## The ranges -/

def Live (s : SharedTracker ι) (k : ℕ) (e : TrackerEntry) : Prop :=
  s.calls[k]? = some e ∧ s.tracker.map.lookup (synthetic k) = some e

/-- No allocation is larger than the room up to another live pointer, in either direction around the
address space. -/
def Roomy (s : SharedTracker ι) : Prop :=
  ∀ i j e e', i < j → s.Live i e → s.Live j e' →
    e.size.toNat ≤ 4096 * (j - i) ∧ e'.size.toNat ≤ 2 ^ 64 - 4096 * (j - i)

theorem Live.lt {k : ℕ} {e : TrackerEntry} (h : s.Live k e) : k < s.calls.length :=
  (List.getElem?_eq_some_iff.1 h.1).1

theorem InOrder.live (h : s.InOrder) {ptr : UInt64} {e : TrackerEntry}
    (hptr : s.tracker.map.lookup ptr = some e) : ∃ k, ptr = synthetic k ∧ s.Live k e := by
  obtain ⟨k, hcall, rfl⟩ := h.recorded ptr e hptr
  exact ⟨k, rfl, hcall, hptr⟩

theorem InOrder.resolvesInside_iff (h : s.InOrder) (hcalls : s.calls.length < 2 ^ 51) :
    s.tracker.ResolvesInside ↔ s.Roomy := by
  constructor
  · intro hresolves i j e e' hij hi hj
    have hlt : j < 2 ^ 51 := Nat.lt_trans hj.lt hcalls
    obtain ⟨hup, hdown⟩ := synthetic_sub hij hlt
    have hne := synthetic_ne hij hlt
    constructor
    · by_contra hsize
      have hinside : e.Contains (synthetic i) (synthetic j) := by
        rw [TrackerEntry.Contains, UInt64.lt_iff_toNat_lt, hup]
        omega
      exact hne (hresolves _ e _ hi.2 hinside
        (DevicePointerTracker.getRemote_isSome_iff.2 ⟨e', hj.2⟩)).symm
    · by_contra hsize
      have hinside : e'.Contains (synthetic j) (synthetic i) := by
        rw [TrackerEntry.Contains, UInt64.lt_iff_toNat_lt, hdown]
        omega
      exact hne (hresolves _ e' _ hj.2 hinside
        (DevicePointerTracker.getRemote_isSome_iff.2 ⟨e, hi.2⟩))
  · intro hroomy ptr e q hptr hinside hremote
    obtain ⟨e', hq⟩ := DevicePointerTracker.getRemote_isSome_iff.1 hremote
    obtain ⟨i, rfl, hi⟩ := h.live hptr
    obtain ⟨j, rfl, hj⟩ := h.live hq
    rw [TrackerEntry.Contains, UInt64.lt_iff_toNat_lt] at hinside
    rcases Nat.lt_trichotomy i j with hij | rfl | hij
    · have hsize := (hroomy i j e e' hij hi hj).1
      rw [(synthetic_sub hij (Nat.lt_trans hj.lt hcalls)).1] at hinside
      omega
    · rfl
    · have hsize := (hroomy j i e' e hij hj hi).2
      rw [(synthetic_sub hij (Nat.lt_trans hi.lt hcalls)).2] at hinside
      omega

theorem roomy_of_size_le (hcalls : s.calls.length < 2 ^ 51)
    (hsize : ∀ e ∈ s.calls, e.size.toNat ≤ 4096) : s.Roomy := by
  intro i j e e' hij hi hj
  have hi' := hsize e (List.mem_of_getElem? hi.1)
  have hj' := hsize e' (List.mem_of_getElem? hj.1)
  have hlt := hj.lt
  omega

/-! ## Runs -/

section Runs

variable [DecidableEq ι]

def fetch (s : SharedTracker ι) (thread : ι) (remotePtr size : UInt64) : SharedTracker ι where
  tracker := { s.tracker with nextSynthetic := s.tracker.nextSynthetic + 4096 }
  allocating := Function.update s.allocating thread
    (some ((s.tracker.nextSynthetic + 4095) &&& ~~~4095, ⟨remotePtr, size⟩))
  calls := s.calls ++ [⟨remotePtr, size⟩]

def record (s : SharedTracker ι) (thread : ι) (synthetic : UInt64) (entry : TrackerEntry) :
    SharedTracker ι :=
  { s with
    tracker := { s.tracker with map := s.tracker.map.insert synthetic entry }
    allocating := Function.update s.allocating thread none }

def step (s : SharedTracker ι) : TrackerEvent ι → Option (SharedTracker ι)
  | .fetch thread remotePtr size =>
    match s.allocating thread with
    | some _ => none
    | none => some (s.fetch thread remotePtr size)
  | .record thread => (s.allocating thread).map fun c => s.record thread c.1 c.2
  | .free synthetic => some { s with tracker := (s.tracker.free synthetic).2 }

def run (s : SharedTracker ι) (events : List (TrackerEvent ι)) : Option (SharedTracker ι) :=
  events.foldlM step s

/-- A call that no other thread interrupts is `allocate`. -/
theorem run_allocate {thread : ι} (hidle : s.allocating thread = none) (remotePtr size : UInt64) :
    (run s [.fetch thread remotePtr size, .record thread]).map SharedTracker.tracker =
      some (s.tracker.allocate remotePtr size).2 := by
  have hfetch : s.step (.fetch thread remotePtr size) = some (s.fetch thread remotePtr size) := by
    rw [step, hidle]
  have hallocating : (s.fetch thread remotePtr size).allocating thread =
      some ((s.tracker.nextSynthetic + 4095) &&& ~~~4095, ⟨remotePtr, size⟩) :=
    Function.update_self ..
  have hrecord : (s.fetch thread remotePtr size).step (.record thread) =
      some ((s.fetch thread remotePtr size).record thread
        ((s.tracker.nextSynthetic + 4095) &&& ~~~4095) ⟨remotePtr, size⟩) := by
    rw [step, hallocating, Option.map_some]
  rw [run, foldlM_cons_of_some hfetch, foldlM_cons_of_some hrecord, List.foldlM_nil,
    Option.pure_def, Option.map_some, record, fetch, DevicePointerTracker.allocate]

variable {s' : SharedTracker ι}

theorem Issued.fetch {k : ℕ} {ptr : UInt64} {e : TrackerEntry} (h : s.Issued k ptr e) (thread : ι)
    (remotePtr size : UInt64) : (s.fetch thread remotePtr size).Issued k ptr e :=
  ⟨(List.getElem?_append_left (List.getElem?_eq_some_iff.1 h.1).1).trans h.1, h.2⟩

theorem InOrder.fetch (h : s.InOrder) (thread : ι) (remotePtr size : UInt64) :
    (s.fetch thread remotePtr size).InOrder where
  next := by
    have hlength : (s.fetch thread remotePtr size).calls.length = s.calls.length + 1 :=
      List.length_append
    rw [hlength, ← synthetic_succ, ← h.next]
    rfl
  recorded ptr e hptr := by
    dsimp only [SharedTracker.fetch] at hptr
    obtain ⟨k, hk⟩ := h.recorded ptr e hptr
    exact ⟨k, hk.fetch ..⟩
  allocating thread' ptr e hptr := by
    change Function.update s.allocating thread _ thread' = _ at hptr
    by_cases hthread : thread' = thread
    · subst hthread
      rw [Function.update_self] at hptr
      cases hptr
      refine ⟨s.calls.length, List.getElem?_concat_length, ?_⟩
      rw [h.next, roundUp_synthetic]
    · rw [Function.update_of_ne hthread] at hptr
      obtain ⟨k, hk⟩ := h.allocating thread' ptr e hptr
      exact ⟨k, hk.fetch ..⟩

theorem InOrder.record (h : s.InOrder) {thread : ι} {ptr : UInt64} {e : TrackerEntry}
    (hthread : s.allocating thread = some (ptr, e)) : (s.record thread ptr e).InOrder where
  next := h.next
  recorded ptr' e' hptr' := by
    change (s.tracker.map.insert ptr e).lookup ptr' = _ at hptr'
    rw [Dict.lookup_insert_iff] at hptr'
    split_ifs at hptr' with heq
    · cases hptr'
      subst heq
      exact h.allocating thread _ _ hthread
    · exact h.recorded ptr' e' hptr'
  allocating thread' ptr' e' hptr' := by
    change Function.update s.allocating thread none thread' = _ at hptr'
    by_cases heq : thread' = thread
    · subst heq
      rw [Function.update_self] at hptr'
      cases hptr'
    · rw [Function.update_of_ne heq] at hptr'
      exact h.allocating thread' ptr' e' hptr'

theorem InOrder.step (h : s.InOrder) {e : TrackerEvent ι} (hstep : s.step e = some s') :
    s'.InOrder := by
  cases e with
  | fetch thread remotePtr size =>
    unfold SharedTracker.step at hstep
    dsimp only at hstep
    split at hstep
    · cases hstep
    · cases hstep
      exact h.fetch thread remotePtr size
  | record thread =>
    obtain ⟨⟨ptr, e⟩, hthread, rfl⟩ := Option.map_eq_some_iff.1 hstep
    exact h.record hthread
  | free ptr =>
    cases hstep
    exact h.free ptr

theorem InOrder.run (h : s.InOrder) {events : List (TrackerEvent ι)}
    (hrun : run s events = some s') : s'.InOrder :=
  foldlM_invariant (fun _ _ _ h hstep => h.step hstep) h hrun

/-- The ranges of the live allocations are disjoint, and pointers inside of them are not looked up
as others, exactly if every live allocation fits in front of the next one. -/
theorem allocations_disjoint_iff {events : List (TrackerEvent ι)}
    (hrun : run {} events = some s) (hcalls : s.calls.length < 2 ^ 51) :
    (s.tracker.Disjoint ∧ s.tracker.ResolvesInside) ↔ s.Roomy := by
  have horder : s.InOrder := inOrder_start.run hrun
  rw [← horder.resolvesInside_iff hcalls]
  exact and_iff_right_of_imp DevicePointerTracker.ResolvesInside.disjoint

/-- Two threads that allocate at most a page each. -/
theorem small_allocations_disjoint : ∃ s : SharedTracker (Fin 2),
    run {} [.fetch 0 100 4096, .fetch 1 200 16, .record 1, .record 0] = some s ∧
      s.tracker.Disjoint ∧ s.tracker.ResolvesInside := by
  have hsome : (run ({} : SharedTracker (Fin 2)) [.fetch 0 100 4096, .fetch 1 200 16, .record 1,
      .record 0]).any (fun s => s.calls = [⟨100, 4096⟩, ⟨200, 16⟩]) := by
    decide
  obtain ⟨s, hrun, heq⟩ := (Option.any_eq_true _ _).1 hsome
  have hcalls : s.calls = [⟨100, 4096⟩, ⟨200, 16⟩] := of_decide_eq_true heq
  have hlength : s.calls.length < 2 ^ 51 := by
    rw [hcalls]
    decide
  refine ⟨s, hrun, (allocations_disjoint_iff hrun hlength).2 ?_⟩
  apply roomy_of_size_le hlength
  rw [hcalls]
  decide

/-- The second page of an allocation of two pages is looked up as the next allocation. -/
theorem interior_pointer_resolves_elsewhere :
    (run ({} : SharedTracker (Fin 1)) [.fetch 0 100 8192, .record 0, .fetch 0 200 16,
      .record 0]).any (fun s =>
        s.tracker.map.lookup 0x10000000000 = some ⟨100, 8192⟩ &&
        TrackerEntry.Contains ⟨100, 8192⟩ 0x10000000000 0x10000001000 &&
        s.tracker.getRemote 0x10000001000 = some 200) = true := by
  decide

end Runs

end SharedTracker

end MemInfo.WindowsLanSharing
