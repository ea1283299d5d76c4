import MemInfo.Lib.Run
import MemInfo.Platform.PageRegions

/-! # Writes found by protection

`PageFaultBackendWin` and `PageFaultBackendMac` map a page that they fill read-only, so that the
next store to it faults, and make it writable when they record it as dirty. A protection and the
state that goes with it are changed one after the other, and any call of the OS may fail. That a
writable page is dirty holds between the calls of the backend, which are taken one at a time here.

The contents of the pages are left out, and so is `madvise`, which changes nothing else.
-/

namespace MemInfo.PageFault

open Lib

/-- `PageState`. -/
inductive PageState where
  | absent
  | resident
  | dirty
  deriving DecidableEq, Repr

inductive Protection where
  | noAccess
  | readOnly
  | readWrite
  deriving DecidableEq, Repr

inductive ProtectingBackend where
  | win
  | mac
  deriving DecidableEq, Repr

inductive Renewal where
  | madeResident
  | cleared
  | evicted
  | released
  deriving DecidableEq, Repr

inductive PageEvent where
  | renewed (how : Renewal) (page total : ℕ)
  | stored (addr : ℕ)
  deriving DecidableEq, Repr

/-- The page has been stored to since it was last renewed in one of these ways. The latest event
comes first. -/
def storedSince (P : OsPage) (hows : List Renewal) (n : ℕ) : List PageEvent → Bool
  | [] => false
  | .stored addr :: events => addr / P.bytes = n || storedSince P hows n events
  | .renewed how page total :: events =>
    !(how ∈ hows && P.Covers page total n) && storedSince P hows n events

def Renewal.all : List Renewal := [.madeResident, .cleared, .evicted, .released]

theorem Renewal.mem_all (how : Renewal) : how ∈ Renewal.all := by
  cases how <;> decide

/-- The variables of a thread: `in_write_fault_`, `resolved_`, and what the handler has saved of
them for every callback that is running. -/
structure FaultLocals where
  inWriteFault : Bool := false
  resolved : Bool := false
  saved : List (Bool × Bool) := []
  deriving DecidableEq, Repr

structure WriteTracker (P : OsPage) where
  table : PageTable PageState P := {}
  /-- Whether `fault_handler_` is set. -/
  faultHandler : Bool := false
  locals : ℕ → FaultLocals := fun _ => {}
  protection : ℕ → Protection
  -- the backend does not keep this
  history : List PageEvent := []

/-- A call of the backend, or what the program does. The flags are what the OS answers to the calls
of it that are made on the way. -/
inductive WriteTrackerEvent where
  | reserveRegion (bytes : ℕ) (answer : Option ℕ)
  | releaseRegion (addr : ℕ)
  | onFault (handler : Bool)
  | resolveFault (thread addr : ℕ) (data : Bool) (len : ℕ) (commit protect : Bool)
  | clearDirty (addr len : ℕ) (protect : Bool)
  | evictPages (addr len : ℕ) (decommit : Bool)
  | fault (thread addr : ℕ) (isWrite protect : Bool)
  | handlerReturns (thread : ℕ)
  | store (addr : ℕ)
  deriving DecidableEq, Repr

inductive Disposition where
  | continueExecution
  | continueSearch
  -- the callback runs, and `handlerReturns` comes later
  | callsHandler
  deriving DecidableEq, Repr

namespace WriteTracker

variable {P : OsPage} (w : WriteTracker P)

/-! ## The OS -/

/-- Whether the OS grants a call for a range. It refuses a range that wraps. -/
def granted (answer : Bool) (page total : ℕ) : Bool := answer && page + total ≤ 2 ^ 64

/-- `VirtualProtect` and `mprotect`, when they succeed. `VirtualAlloc` commits pages as writable
ones, and `VirtualFree` decommits them. -/
def protect (page total : ℕ) (protection : Protection) : WriteTracker P :=
  { w with
    protection := fun n => if P.Covers page total n then protection else w.protection n }

def record (e : PageEvent) : WriteTracker P := { w with history := e :: w.history }

/-! ## The backend -/

def pagesTotal (P : OsPage) (addr len : ℕ) : ℕ :=
  roundUp (wrap (P.offsetInPage addr + len)) P.bytes

/-- `set_states`. -/
def setStates (page total : ℕ) (state : PageState) : WriteTracker P :=
  { w with
    table := w.table.forEachPage (fun _ => state)
      (fun s n => if s = .absent ∧ state ≠ .absent then wrap (n + 1) else n) page total }

def addRegion (addr rounded : ℕ) (h : w.table.regions.Free addr rounded) : WriteTracker P :=
  { w.protect addr rounded .noAccess with
    table := { w.table with regions := w.table.regions.reserve addr rounded .absent h } }

/-- `reserve_region`, when the kernel answers with an address or not at all. -/
def reserveRegion (bytes : ℕ) (answer : Option ℕ) : Option ((ℕ × ℕ) × WriteTracker P) :=
  if bytes = 0 then some ((0, 0), w)
  else
    let rounded := roundUp bytes P.bytes
    match answer with
    | none => some ((0, 0), w)
    | some addr =>
      if h : w.table.regions.Free addr rounded then
        some ((addr, rounded), w.addRegion addr rounded h)
      else none

/-- `resident_pages_` after the pages of a region are gone: Windows counts the region's pages
first, macOS counts down. -/
def residentPagesWithout (v : ProtectingBackend) (residentPages : ℕ) (r : Region PageState) : ℕ :=
  match v with
  | .win => wrapSub residentPages (r.states.countP fun s => s ≠ .absent)
  | .mac => r.states.foldl (fun n s => if s ≠ .absent then wrapSub n 1 else n) residentPages

/-- `release_region`. -/
def releaseRegion (v : ProtectingBackend) (addr : ℕ) : WriteTracker P :=
  match w.table.regions.map.find addr with
  | none => w
  | some r =>
    { (w.protect addr r.size .noAccess).record (.renewed .released addr r.size) with
      table :=
        { regions := w.table.regions.release addr
          residentPages := residentPagesWithout v w.table.residentPages r } }

/-- The length of the pages that `resolve_fault` fills. -/
def resolveTotal (P : OsPage) (addr len : ℕ) : ℕ :=
  let span := wrap (P.offsetInPage addr + len)
  roundUp (if span = 0 then P.bytes else span) P.bytes

/-- The end of `resolve_fault`. -/
def resolveAs (thread page total : ℕ) (state : PageState) : WriteTracker P :=
  { (w.setStates page total state).record (.renewed .madeResident page total) with
    locals := Function.update w.locals thread { w.locals thread with resolved := true } }

/-- `resolve_fault`. The pages are writable while they are filled. -/
def resolveFault (thread addr : ℕ) (data : Bool) (len : ℕ) (commit readOnly : Bool) :
    Option (WriteTracker P) :=
  if addr = 0 then some w
  else
    let page := P.pageBase addr
    let total := resolveTotal P addr len
    if !granted commit page total then some w
    -- a span that wraps, and a copy that does not end inside the address space
    else if data && total < P.offsetInPage addr + len then none
    else
      let filled := w.protect page total .readWrite
      if (w.locals thread).inWriteFault then some (filled.resolveAs thread page total .dirty)
      else if !granted readOnly page total then some (filled.resolveAs thread page total .dirty)
      else some ((filled.protect page total .readOnly).resolveAs thread page total .resident)

/-- `is_dirty`. -/
def isDirty (addr len : ℕ) : Bool :=
  (List.range (pagesTotal P addr len / P.bytes)).any fun i =>
    w.table.regions.stateAt (wrap (P.pageBase addr + i * P.bytes)) = some .dirty

/-- `clear_dirty`. -/
def clearDirty (addr len : ℕ) (answer : Bool) : WriteTracker P :=
  let page := P.pageBase addr
  let total := pagesTotal P addr len
  if !granted answer page total then w
  else
    { (w.protect page total .readOnly).record (.renewed .cleared page total) with
      table := w.table.forEachPage (fun s => if s = .dirty then .resident else s) (fun _ n => n)
        page total }

/-- `evict_pages`. -/
def evictPages (addr len : ℕ) (answer : Bool) : Bool × WriteTracker P :=
  let page := P.pageBase addr
  let total := pagesTotal P addr len
  if total = 0 then (true, w)
  else if !granted answer page total then (false, w)
  else
    (true,
      { (w.protect page total .noAccess).record (.renewed .evicted page total) with
        table := w.table.forEachPage (fun _ => .absent)
          (fun s n => if s ≠ .absent then wrapSub n 1 else n) page total })

def promote (addr : ℕ) : WriteTracker P :=
  (w.protect (P.pageBase addr) P.bytes .readWrite).setStates (P.pageBase addr) P.bytes .dirty

/-- The handler calls `fault_handler_`. -/
def enter (thread : ℕ) (isWrite : Bool) : WriteTracker P :=
  let l := w.locals thread
  { w with
    locals := Function.update w.locals thread
      ⟨isWrite, false, (l.inWriteFault, l.resolved) :: l.saved⟩ }

/-- `VectoredHandler`, for an access violation. -/
def vectoredHandler (thread addr : ℕ) (isWrite answer : Bool) : Disposition × WriteTracker P :=
  match w.table.regions.stateAt addr with
  | none => (.continueSearch, w)
  | some state =>
    if state ≠ .absent then
      if !isWrite then (.continueSearch, w)
      else if !granted answer (P.pageBase addr) P.bytes then (.continueSearch, w)
      else (.continueExecution, w.promote addr)
    else if !w.faultHandler then (.continueSearch, w)
    else (.callsHandler, w.enter thread isWrite)

/-- `segv_handler`, which is not told whether the access was a store. `reraise` ends the
process. -/
def segvHandler (thread addr : ℕ) (answer : Bool) : Option (Disposition × WriteTracker P) :=
  match w.table.regions.stateAt addr with
  | none => none
  | some state =>
    if state ≠ .absent then
      if !granted answer (P.pageBase addr) P.bytes then none
      else some (.continueExecution, w.promote addr)
    else if !w.faultHandler then none
    else some (.callsHandler, w.enter thread false)

/-- The callback returns. Without `resolved_` the fault goes on to the next handler on Windows, and
ends the process on macOS. -/
def handlerReturns (v : ProtectingBackend) (thread : ℕ) : Option (Disposition × WriteTracker P) :=
  match (w.locals thread).saved with
  | [] => none
  | (inWriteFault, resolved) :: saved =>
    let w' : WriteTracker P :=
      { w with locals := Function.update w.locals thread ⟨inWriteFault, resolved, saved⟩ }
    if (w.locals thread).resolved then some (.continueExecution, w')
    else
      match v with
      | .win => some (.continueSearch, w')
      | .mac => none

/-! ## Runs -/

/-- One event, if it can happen and the process survives it. A store to a page that is not writable
is a fault first. -/
def step (v : ProtectingBackend) : WriteTrackerEvent → Option (WriteTracker P)
  | .reserveRegion bytes answer => (w.reserveRegion bytes answer).map Prod.snd
  | .releaseRegion addr => some (w.releaseRegion v addr)
  | .onFault handler => some { w with faultHandler := handler }
  | .resolveFault thread addr data len commit readOnly =>
    w.resolveFault thread addr data len commit readOnly
  | .clearDirty addr len answer => some (w.clearDirty addr len answer)
  | .evictPages addr len answer => some (w.evictPages addr len answer).2
  | .fault thread addr isWrite answer =>
    match v with
    | .win => some (w.vectoredHandler thread addr isWrite answer).2
    | .mac => (w.segvHandler thread addr answer).map Prod.snd
  | .handlerReturns thread => (w.handlerReturns v thread).map Prod.snd
  | .store addr =>
    if w.protection (addr / P.bytes) = .readWrite ∧
        (w.table.pageState (addr / P.bytes)).isSome then
      some (w.record (.stored addr))
    else none

def run (v : ProtectingBackend) : WriteTracker P → List WriteTrackerEvent → Option (WriteTracker P)
  | w, [] => some w
  | w, e :: events => (w.step v e).bind fun w' => run v w' events

/-! ## What an event does to the pages -/

/-- The ways in which an event can change the pages. What a thread does with its variables is left
out. -/
inductive Moves (v : ProtectingBackend) (w : WriteTracker P) : WriteTracker P → Prop where
  | idle {w' : WriteTracker P} (htable : w'.table = w.table)
      (hprotection : w'.protection = w.protection) (hhistory : w'.history = w.history) :
      Moves v w w'
  | addRegion {base size : ℕ} (hfree : w.table.regions.Free base size) :
      Moves v w (w.addRegion base size hfree)
  | releaseRegion (addr : ℕ) : Moves v w (w.releaseRegion v addr)
  -- pages that are filled: those that are left writable are dirty
  | resolveAs {w' : WriteTracker P} {thread addr total : ℕ} {answer : Bool} {state : PageState}
      {protection : Protection} (htotal : P.bytes ∣ total)
      (hgranted : granted answer (P.pageBase addr) total = true)
      (hprotection : ∀ n, w'.protection n =
        if P.Covers (P.pageBase addr) total n then protection else w.protection n)
      (htable : w'.table = w.table) (hhistory : w'.history = w.history)
      (hpresent : state ≠ .absent) (hstate : protection = .readWrite → state = .dirty) :
      Moves v w (w'.resolveAs thread (P.pageBase addr) total state)
  | clearDirty (addr len : ℕ) (answer : Bool) : Moves v w (w.clearDirty addr len answer)
  | evictPages (addr len : ℕ) (answer : Bool) : Moves v w (w.evictPages addr len answer).2
  | promote {addr : ℕ} {answer : Bool}
      (hgranted : granted answer (P.pageBase addr) P.bytes = true) : Moves v w (w.promote addr)
  | store {addr : ℕ} (hwritable : w.protection (addr / P.bytes) = .readWrite)
      (htracked : (w.table.pageState (addr / P.bytes)).isSome) :
      Moves v w (w.record (.stored addr))

section Moves

variable {w} {w' : WriteTracker P} {v : ProtectingBackend} {page total addr : ℕ} {answer : Bool}

theorem granted_of_not_refused (h : ¬ (!granted answer page total) = true) :
    granted answer page total = true := by
  rwa [Bool.not_eq_true', Bool.not_eq_false] at h

theorem protect_protect (before after : Protection) :
    (w.protect page total before).protect page total after = w.protect page total after := by
  dsimp only [protect]
  congr 1
  funext n
  split_ifs <;> rfl

theorem moves_reserveRegion {bytes : ℕ} {answer : Option ℕ} {region : ℕ × ℕ}
    (hstep : w.reserveRegion bytes answer = some (region, w')) : Moves v w w' := by
  unfold reserveRegion at hstep
  split_ifs at hstep with hzero
  · cases hstep
    exact .idle rfl rfl rfl
  · cases answer with
    | none =>
      cases hstep
      exact .idle rfl rfl rfl
    | some base =>
      dsimp only at hstep
      split_ifs at hstep with hfree
      cases hstep
      exact .addRegion hfree

theorem moves_resolveFault {thread len : ℕ} {data commit readOnly : Bool}
    (hstep : w.resolveFault thread addr data len commit readOnly = some w') : Moves v w w' := by
  unfold resolveFault at hstep
  dsimp only at hstep
  have hdvd : P.bytes ∣ resolveTotal P addr len := dvd_roundUp ..
  split_ifs at hstep with hnull hcommit hcopy hwrite hreadOnly
  · cases hstep
    exact .idle rfl rfl rfl
  · cases hstep
    exact .idle rfl rfl rfl
  · cases hstep
    exact .resolveAs hdvd (granted_of_not_refused hcommit) (fun _ => rfl) rfl rfl
      PageState.noConfusion fun _ => rfl
  · cases hstep
    exact .resolveAs hdvd (granted_of_not_refused hcommit) (fun _ => rfl) rfl rfl
      PageState.noConfusion fun _ => rfl
  · cases hstep
    rw [protect_protect]
    exact .resolveAs hdvd (granted_of_not_refused hcommit) (fun _ => rfl) rfl rfl
      PageState.noConfusion Protection.noConfusion

theorem moves_vectoredHandler (thread addr : ℕ) (isWrite answer : Bool) :
    Moves v w (w.vectoredHandler thread addr isWrite answer).2 := by
  unfold vectoredHandler
  split
  · exact .idle rfl rfl rfl
  · split_ifs with hpresent hread hrefused hhandler
    · exact .idle rfl rfl rfl
    · exact .idle rfl rfl rfl
    · exact .promote (granted_of_not_refused hrefused)
    · exact .idle rfl rfl rfl
    · exact .idle rfl rfl rfl

theorem moves_segvHandler {thread : ℕ} {d : Disposition}
    (hstep : w.segvHandler thread addr answer = some (d, w')) : Moves v w w' := by
  unfold segvHandler at hstep
  split at hstep
  · cases hstep
  · split_ifs at hstep with hpresent hrefused hhandler
    · cases hstep
      exact .promote (granted_of_not_refused hrefused)
    · cases hstep
      exact .idle rfl rfl rfl

theorem moves_handlerReturns {thread : ℕ} {d : Disposition}
    (hstep : w.handlerReturns v thread = some (d, w')) : Moves v w w' := by
  unfold handlerReturns at hstep
  split at hstep
  · cases hstep
  · dsimp only at hstep
    split_ifs at hstep
    · cases hstep
      exact .idle rfl rfl rfl
    · cases v with
      | win =>
        cases hstep
        exact .idle rfl rfl rfl
      | mac => cases hstep

theorem moves_step {e : WriteTrackerEvent} (hstep : w.step v e = some w') : Moves v w w' := by
  cases e with
  | reserveRegion bytes answer =>
    obtain ⟨⟨region, _⟩, hreserve, rfl⟩ := Option.map_eq_some_iff.1 hstep
    exact moves_reserveRegion hreserve
  | releaseRegion addr =>
    cases hstep
    exact .releaseRegion addr
  | onFault handler =>
    cases hstep
    exact .idle rfl rfl rfl
  | resolveFault thread addr data len commit readOnly => exact moves_resolveFault hstep
  | clearDirty addr len answer =>
    cases hstep
    exact .clearDirty addr len answer
  | evictPages addr len answer =>
    cases hstep
    exact .evictPages addr len answer
  | fault thread addr isWrite answer =>
    cases v with
    | win =>
      cases hstep
      exact moves_vectoredHandler thread addr isWrite answer
    | mac =>
      obtain ⟨⟨d, _⟩, hsegv, rfl⟩ := Option.map_eq_some_iff.1 hstep
      exact moves_segvHandler hsegv
  | handlerReturns thread =>
    obtain ⟨⟨d, _⟩, hreturns, rfl⟩ := Option.map_eq_some_iff.1 hstep
    exact moves_handlerReturns hreturns
  | store addr =>
    unfold step at hstep
    dsimp only at hstep
    split_ifs at hstep with hpage
    cases hstep
    exact .store hpage.1 hpage.2

end Moves

/-! ## Writable pages are dirty -/

structure Tracks (w : WriteTracker P) : Prop where
  writable : ∀ n st, w.table.pageState n = some st → w.protection n = .readWrite → st = .dirty
  stored : ∀ n, storedSince P Renewal.all n w.history = true → w.table.pageState n = some .dirty

theorem tracks_start (protection : ℕ → Protection) : Tracks (P := P) { protection } := by
  have hnone (n : ℕ) : PageTable.pageState ({} : PageTable PageState P) n = none := rfl
  constructor
  · intro n st hst
    rw [hnone] at hst
    cases hst
  · intro n hn
    cases hn

section Step

variable {w} {w' : WriteTracker P} {page total n : ℕ}

theorem storedSince_renewed_iff {how : Renewal} {events : List PageEvent} :
    storedSince P Renewal.all n (.renewed how page total :: events) = true ↔
      ¬ P.Covers page total n ∧ storedSince P Renewal.all n events = true := by
  simp [storedSince, how.mem_all]

/-- A call that changes the pages of a range and says so. If it leaves them writable, it leaves
them dirty. -/
theorem Tracks.of_renewed (h : w.Tracks) {how : Renewal} {protection : Protection}
    (hhistory : w'.history = .renewed how page total :: w.history)
    (hprotection : ∀ n, w'.protection n =
      if P.Covers page total n then protection else w.protection n)
    (houtside : ∀ n, ¬ P.Covers page total n → w'.table.pageState n = w.table.pageState n)
    (hinside : protection = .readWrite → ∀ n, P.Covers page total n →
      ∀ st, w'.table.pageState n = some st → st = .dirty) : w'.Tracks := by
  constructor
  · intro n st hst hwritable
    rw [hprotection] at hwritable
    split_ifs at hwritable with hcovers
    · exact hinside hwritable n hcovers st hst
    · rw [houtside n hcovers] at hst
      exact h.writable n st hst hwritable
  · intro n hn
    rw [hhistory] at hn
    obtain ⟨hcovers, hn⟩ := storedSince_renewed_iff.1 hn
    rw [houtside n hcovers]
    exact h.stored n hn

section Range

variable {addr : ℕ} {answer : Bool}

theorem fits_of_granted (h : granted answer page total = true) : page + total ≤ 2 ^ 64 := by
  rw [granted, Bool.and_eq_true, decide_eq_true_eq] at h
  exact h.2

theorem pageState_of_granted (t : PageTable PageState P) (f : PageState → PageState)
    (count : PageState → ℕ → ℕ) (htotal : P.bytes ∣ total)
    (h : granted answer (P.pageBase addr) total = true) (n : ℕ) :
    (t.forEachPage f count (P.pageBase addr) total).pageState n =
      if P.Covers (P.pageBase addr) total n then (t.pageState n).map f else t.pageState n :=
  PageTable.pageState_forEachPage (Nat.dvd_mul_left ..) htotal (fits_of_granted h)

theorem Tracks.promote (h : w.Tracks) (hgranted : granted answer (P.pageBase addr) P.bytes = true) :
    (w.promote addr).Tracks := by
  have hpage (n : ℕ) : (w.promote addr).table.pageState n = _ :=
    pageState_of_granted w.table (fun _ => .dirty) _ dvd_rfl hgranted n
  constructor
  · intro n st hst hwritable
    rw [hpage] at hst
    change (if P.Covers (P.pageBase addr) P.bytes n then _ else w.protection n) = _ at hwritable
    split_ifs at hst hwritable with hcovers
    · obtain ⟨-, -, rfl⟩ := Option.map_eq_some_iff.1 hst
      rfl
    · exact h.writable n st hst hwritable
  · intro n hn
    have hdirty := h.stored n hn
    rw [hpage, hdirty]
    split_ifs <;> rfl

theorem Tracks.resolveAs (h : w.Tracks) {thread : ℕ} {state : PageState} {protection : Protection}
    (htotal : P.bytes ∣ total) (hgranted : granted answer (P.pageBase addr) total = true)
    (hprotection : ∀ n, w'.protection n =
      if P.Covers (P.pageBase addr) total n then protection else w.protection n)
    (htable : w'.table = w.table) (hhistory : w'.history = w.history)
    (hstate : protection = .readWrite → state = .dirty) :
    (w'.resolveAs thread (P.pageBase addr) total state).Tracks := by
  have hpage (n : ℕ) :
      (w'.resolveAs thread (P.pageBase addr) total state).table.pageState n = _ :=
    pageState_of_granted w'.table (fun _ => state) _ htotal hgranted n
  have hrecord : (w'.resolveAs thread (P.pageBase addr) total state).history =
      .renewed .madeResident (P.pageBase addr) total :: w.history :=
    congrArg _ hhistory
  apply h.of_renewed hrecord hprotection
  · intro n hn
    rw [hpage, if_neg hn, htable]
  · intro hwritable n hn st hst
    rw [hpage, if_pos hn] at hst
    obtain ⟨-, -, rfl⟩ := Option.map_eq_some_iff.1 hst
    exact hstate hwritable

theorem dvd_pagesTotal (P : OsPage) (addr len : ℕ) : P.bytes ∣ pagesTotal P addr len :=
  dvd_roundUp ..

theorem Tracks.withdraw (h : w.Tracks) (how : Renewal) (f : PageState → PageState)
    (count : PageState → ℕ → ℕ) {protection : Protection} (htotal : P.bytes ∣ total)
    (hgranted : granted answer (P.pageBase addr) total = true)
    (hprotection : protection ≠ .readWrite) :
    Tracks { (w.protect (P.pageBase addr) total protection).record
        (.renewed how (P.pageBase addr) total) with
      table := w.table.forEachPage f count (P.pageBase addr) total } := by
  apply h.of_renewed rfl (fun _ => rfl)
  · intro n hn
    exact (pageState_of_granted _ _ _ htotal hgranted n).trans (if_neg hn)
  · exact fun hwritable => absurd hwritable hprotection

theorem Tracks.clearDirty (h : w.Tracks) (len : ℕ) : (w.clearDirty addr len answer).Tracks := by
  unfold WriteTracker.clearDirty
  dsimp only
  split_ifs with hrefused
  · exact h
  · exact h.withdraw _ _ _ (dvd_pagesTotal P addr len) (granted_of_not_refused hrefused)
      Protection.noConfusion

theorem Tracks.evictPages (h : w.Tracks) (len : ℕ) : (w.evictPages addr len answer).2.Tracks := by
  unfold WriteTracker.evictPages
  dsimp only
  split_ifs with hzero hrefused
  · exact h
  · exact h
  · exact h.withdraw _ _ _ (dvd_pagesTotal P addr len) (granted_of_not_refused hrefused)
      Protection.noConfusion

end Range

theorem Tracks.releaseRegion (h : w.Tracks) (v : ProtectingBackend) (addr : ℕ) :
    (w.releaseRegion v addr).Tracks := by
  unfold WriteTracker.releaseRegion
  split
  · exact h
  next r hfind =>
    apply h.of_renewed rfl (fun _ => rfl)
    · intro n hn
      exact (Regions.stateAt_release (OrdMap.find_eq_some_iff.1 hfind)).trans (if_neg hn)
    · exact Protection.noConfusion

theorem Tracks.addRegion (h : w.Tracks) {base size : ℕ}
    (hfree : w.table.regions.Free base size) : (w.addRegion base size hfree).Tracks := by
  have hpage (n : ℕ) : (w.addRegion base size hfree).table.pageState n =
      if base + size < 2 ^ 64 ∧ P.Covers base size n then some .absent
      else w.table.pageState n :=
    Regions.stateAt_reserve hfree
  constructor
  · intro n st hst hwritable
    change (if P.Covers base size n then _ else w.protection n) = _ at hwritable
    split_ifs at hwritable with hcovers
    rw [hpage, if_neg (fun h => hcovers h.2)] at hst
    exact h.writable n st hst hwritable
  · intro n hn
    have hdirty := h.stored n hn
    rw [hpage, if_neg, hdirty]
    -- a page that has a state is not handed out again
    rintro ⟨-, hcovers⟩
    rw [PageTable.pageState, hfree.stateAt_eq_none hcovers] at hdirty
    cases hdirty

theorem Tracks.of_eq (h : w.Tracks) (htable : w'.table = w.table)
    (hprotection : w'.protection = w.protection) (hhistory : w'.history = w.history) :
    w'.Tracks := by
  constructor
  · rw [htable, hprotection]
    exact h.writable
  · rw [htable, hhistory]
    exact h.stored

theorem Tracks.record_stored (h : w.Tracks) {addr : ℕ}
    (hwritable : w.protection (addr / P.bytes) = .readWrite)
    (htracked : (w.table.pageState (addr / P.bytes)).isSome) :
    (w.record (.stored addr)).Tracks := by
  refine ⟨h.writable, fun n hn => ?_⟩
  change (decide (addr / P.bytes = n) || storedSince P Renewal.all n w.history) = true at hn
  rw [Bool.or_eq_true, decide_eq_true_eq] at hn
  rcases hn with rfl | hn
  · obtain ⟨st, hst⟩ := Option.isSome_iff_exists.1 htracked
    obtain rfl := h.writable _ st hst hwritable
    exact hst
  · exact h.stored n hn

/-- An event keeps the invariant, whatever it does to the pages. -/
theorem Tracks.moves (h : w.Tracks) {v : ProtectingBackend} (hmoves : Moves v w w') :
    w'.Tracks := by
  cases hmoves with
  | idle htable hprotection hhistory => exact h.of_eq htable hprotection hhistory
  | addRegion hfree => exact h.addRegion hfree
  | releaseRegion addr => exact h.releaseRegion v addr
  | resolveAs htotal hgranted hprotection htable hhistory _ hstate =>
    exact h.resolveAs htotal hgranted hprotection htable hhistory hstate
  | clearDirty addr len answer => exact h.clearDirty len
  | evictPages addr len answer => exact h.evictPages len
  | promote hgranted => exact h.promote hgranted
  | store hwritable htracked => exact h.record_stored hwritable htracked

theorem run_eq_foldlM (v : ProtectingBackend) (w : WriteTracker P)
    (events : List WriteTrackerEvent) :
    run v w events = events.foldlM (fun w e => w.step v e) w := by
  induction events generalizing w with
  | nil => rfl
  | cons e events ih =>
    rw [WriteTracker.run, funext ih]
    rfl

theorem Tracks.run (h : w.Tracks) {v : ProtectingBackend} {events : List WriteTrackerEvent}
    (hrun : run v w events = some w') : w'.Tracks := by
  rw [run_eq_foldlM] at hrun
  exact foldlM_invariant (fun _ _ _ h hstep => h.moves (moves_step hstep)) h hrun

end Step

/-! ## Dirty ranges -/

theorem isDirty_of_pageState {n addr len : ℕ} (hn : w.table.pageState n = some .dirty)
    (hlen : P.offsetInPage addr + len + P.bytes ≤ 2 ^ 64) (hle : addr / P.bytes ≤ n)
    (hlt : n * P.bytes < addr + len) : w.isDirty addr len = true := by
  obtain ⟨i, rfl⟩ := Nat.exists_eq_add_of_le hle
  have haddr : P.pageBase addr + i * P.bytes = (addr / P.bytes + i) * P.bytes :=
    (Nat.add_mul ..).symm
  have hspan : P.offsetInPage addr + len ≤ pagesTotal P addr len := by
    have hpos := P.pos
    rw [pagesTotal, wrap_of_lt (by omega)]
    exact le_roundUp hlen hpos
  have hi : i < pagesTotal P addr len / P.bytes := by
    have hsplit : P.pageBase addr + P.offsetInPage addr = addr := Nat.div_add_mod' addr P.bytes
    apply Nat.lt_of_mul_lt_mul_right (a := P.bytes)
    rw [Nat.div_mul_cancel (dvd_pagesTotal P addr len)]
    omega
  apply List.any_eq_true.2
  refine ⟨i, List.mem_range.2 hi, ?_⟩
  rw [haddr, wrap_of_lt (Regions.lt_of_stateAt hn), decide_eq_true_eq]
  exact hn

/-- Whatever the OS answers, a page that is mapped writable is dirty. A page that has been stored to
since it was last made resident, cleared, evicted or released is reported by every range that meets
it, unless the length of the range in whole pages wraps. -/
theorem dirty_tracking_sound (v : ProtectingBackend) (protection : ℕ → Protection)
    {events : List WriteTrackerEvent} {w : WriteTracker P}
    (hrun : run v { protection } events = some w) :
    (∀ n state, w.table.pageState n = some state → w.protection n = .readWrite → state = .dirty) ∧
    ∀ n, storedSince P Renewal.all n w.history = true →
      ∀ addr len, addr / P.bytes ≤ n → n * P.bytes < addr + len →
        P.offsetInPage addr + len + P.bytes ≤ 2 ^ 64 → w.isDirty addr len = true := by
  have htracks : w.Tracks := (tracks_start protection).run hrun
  refine ⟨htracks.writable, fun n hn addr len hle hlt hlen => ?_⟩
  exact w.isDirty_of_pageState (htracks.stored n hn) hlen hle hlt

/-- A page that a load has brought in, and that is stored to. -/
def loadThenStore : List WriteTrackerEvent :=
  [.reserveRegion 4096 (some 65536), .onFault true, .fault 0 65536 false true,
    .resolveFault 0 65536 true 4096 true true, .handlerReturns 0, .fault 0 65536 true true,
    .store 65536]

theorem store_is_reported : ∃ w : WriteTracker ⟨4096, by decide⟩,
    run .win { protection := fun _ => .noAccess } loadThenStore = some w ∧
      w.isDirty 65536 4096 = true := by
  have hsome : (run (P := ⟨4096, by decide⟩) .win { protection := fun _ => .noAccess }
      loadThenStore).any (fun w => storedSince ⟨4096, by decide⟩ Renewal.all 16 w.history) := by
    decide +kernel
  obtain ⟨w, hrun, hstored⟩ := (Option.any_eq_true _ _).1 hsome
  exact ⟨w, hrun, (dirty_tracking_sound .win _ hrun).2 16 hstored 65536 4096 (by decide)
    (by decide) (by decide)⟩

/-- A page that is evicted is not dirty, although it has not been made resident or cleared since it
was stored to. The whole address space is not dirty either, since its length wraps. -/
theorem evicted_page_not_reported :
    (run (P := ⟨4096, by decide⟩) .win { protection := fun _ => .noAccess }
      (loadThenStore ++ [.evictPages 65536 4096 true])).any (fun w =>
        storedSince ⟨4096, by decide⟩ [.madeResident, .cleared] 16 w.history &&
          !w.isDirty 65536 4096) = true ∧
    (run (P := ⟨4096, by decide⟩) .win { protection := fun _ => .noAccess } loadThenStore).any
      (fun w => storedSince ⟨4096, by decide⟩ Renewal.all 16 w.history &&
        !w.isDirty 0 (2 ^ 64 - 1)) = true := by
  constructor <;> decide +kernel

end WriteTracker

end MemInfo.PageFault
