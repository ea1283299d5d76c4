import MemInfo.Platform.PageFaultLinux
import MemInfo.Platform.Residency
import MemInfo.Platform.WriteTracking

/-! # Residency on Linux

`PageFaultBackendLinux` marks the pages of a range as resident before it asks the kernel to map
them, and takes the marks back if that fails. Other threads may change the marks in between. The
contents of the pages are left out, and so is `clear_dirty`, which does nothing.
-/

namespace MemInfo.PageFault

open Lib

/-- Pages that a thread has marked and not yet mapped, in `resolve_fault` or in `zero_page`. -/
structure Install where
  page : ℕ
  total : ℕ
  /-- `resolve_fault` sets `resolved_` in the end. -/
  resolves : Bool
  deriving DecidableEq, Repr

structure LinuxTracker (P : OsPage) where
  /-- `uffd_` is valid. -/
  uffd : Bool
  table : PageTable Bool P := {}
  resolved : Bool := false
  installing : ℕ → Option Install := fun _ => none

/-- A critical section of the backend, with what the kernel answers. -/
inductive LinuxTrackerEvent where
  | reserveRegion (bytes : ℕ) (answer : Option ℕ) (register : Bool)
  | releaseRegion (addr : ℕ)
  -- the handler thread has read a message, and calls `user_cb_`
  | fault
  | callbackReturns (thread addr : ℕ)
  | resolveFault (thread addr : ℕ) (data : Bool) (len : ℕ) (staged : Bool)
  -- `UFFDIO_COPY` or `UFFDIO_ZEROPAGE`
  | installed (thread : ℕ) (succeeds : Bool)
  | evictPages (addr len : ℕ) (answer : Bool)
  deriving DecidableEq, Repr

namespace LinuxTracker

variable {P : OsPage} (b : LinuxTracker P)

/-- `mark_resident`. The sum that counts down is `resident_pages_ + static_cast<size_t>(-1)`. -/
def markResident (page total : ℕ) (resident : Bool) : LinuxTracker P :=
  { b with
    table := b.table.forEachPage (fun _ => resident)
      (fun was n =>
        if was = resident then n else wrap (n + if resident = true then 1 else 2 ^ 64 - 1))
      page total }

def reserveRegion (bytes : ℕ) (answer : Option ℕ) (register : Bool) :
    Option ((ℕ × ℕ) × LinuxTracker P) :=
  if !b.uffd || bytes = 0 then some ((0, 0), b)
  else
    let rounded := roundUp bytes P.bytes
    match answer with
    | none => some ((0, 0), b)
    | some addr =>
      if h : b.table.regions.Free addr rounded then
        if !register then some ((0, 0), b)
        else
          some ((addr, rounded),
            { b with
              table := { b.table with regions := b.table.regions.reserve addr rounded false h } })
      else none

def releaseRegion (addr : ℕ) : LinuxTracker P :=
  match b.table.regions.map.find addr with
  | none => b
  | some r =>
    { b with
      table :=
        { regions := b.table.regions.release addr
          residentPages :=
            r.states.foldl (fun n r => if r = true then wrapSub n 1 else n)
              b.table.residentPages } }

/-- The marks of `resolve_fault` and `zero_page`, before the call of the kernel. -/
def install (thread : ℕ) (i : Install) : LinuxTracker P :=
  { b.markResident i.page i.total true with
    installing := Function.update b.installing thread (some i) }

/-- `resolve_fault`, up to the call of the kernel. -/
def resolveFault (thread addr : ℕ) (data : Bool) (len : ℕ) (staged : Bool) :
    Option (LinuxTracker P) :=
  if !b.uffd || addr = 0 then some b
  else
    let total := WriteTracker.resolveTotal P addr len
    -- there is no memory for the bounce buffer, and the constructor throws
    if !staged then some b
    -- the copy into the bounce buffer does not end inside of it
    else if data && 0 < len && total < P.offsetInPage addr + len then none
    else some (b.install thread ⟨P.pageBase addr, total, true⟩)

/-- The end of `resolve_fault` and of `zero_page`. -/
def installed (thread : ℕ) (i : Install) (succeeds : Bool) : LinuxTracker P :=
  let b' := { b with installing := Function.update b.installing thread none }
  if !succeeds then b'.markResident i.page i.total false
  else { b' with resolved := b.resolved || i.resolves }

/-- The end of a round of `fault_handler_thread`, with the beginning of `zero_page`. -/
def callbackReturns (thread addr : ℕ) : LinuxTracker P :=
  if b.resolved then b else b.install thread ⟨P.pageBase addr, P.bytes, false⟩

def evictPages (addr len : ℕ) (answer : Bool) : Bool × LinuxTracker P :=
  let page := P.pageBase addr
  let total := WriteTracker.pagesTotal P addr len
  if total = 0 then (true, b)
  else if !answer then (false, b)
  else (true, b.markResident page total false)

/-- One event, if it can happen. A thread does one thing at a time. -/
def step : LinuxTrackerEvent → Option (LinuxTracker P)
  | .reserveRegion bytes answer register => (b.reserveRegion bytes answer register).map Prod.snd
  | .releaseRegion addr => some (b.releaseRegion addr)
  | .fault => some { b with resolved := false }
  | .callbackReturns thread addr =>
    match b.installing thread with
    | some _ => none
    | none => some (b.callbackReturns thread addr)
  | .resolveFault thread addr data len staged =>
    match b.installing thread with
    | some _ => none
    | none => b.resolveFault thread addr data len staged
  | .installed thread succeeds =>
    match b.installing thread with
    | none => none
    | some i => some (b.installed thread i succeeds)
  | .evictPages addr len answer => some (b.evictPages addr len answer).2

def run (events : List LinuxTrackerEvent) : Option (LinuxTracker P) := events.foldlM step b

/-! ## One region

The flags of a region are those of `LinuxRegion`, where addresses are relative to the region.
-/

section Flags

/-- `Region::resident` of the region at an address. -/
def flags (base n : ℕ) : Bool := (b.table.pageState (base / P.bytes + n)).getD false

variable {b} {base addr len n : ℕ}

theorem flags_markResident (r : LinuxRegion) (hr : r.resident = b.flags base) (resident : Bool)
    (hbase : P.bytes ∣ base) (haddr : P.bytes ∣ addr) (hlen : P.bytes ∣ len)
    (hfits : base + addr + len ≤ 2 ^ 64)
    (hpage : (b.table.pageState (base / P.bytes + n)).isSome) :
    (b.markResident (base + addr) len resident).flags base n =
      (r.markResident P.bytes addr len resident).resident n := by
  have hstate : (b.markResident (base + addr) len resident).table.pageState (base / P.bytes + n) =
      _ :=
    PageTable.pageState_forEachPage (Nat.dvd_add hbase haddr) hlen hfits
  have hcovers : P.Covers (base + addr) len (base / P.bytes + n) ↔
      LinuxRegion.Covers P.bytes addr len n := by
    rw [OsPage.Covers, LinuxRegion.Covers, Nat.add_mul, Nat.div_mul_cancel hbase]
    omega
  obtain ⟨st, hst⟩ := Option.isSome_iff_exists.1 hpage
  have hflag : r.resident n = st := by
    rw [hr, flags, hst]
    rfl
  rw [flags, hstate, hst, LinuxRegion.markResident]
  dsimp only
  rw [hflag]
  by_cases h : LinuxRegion.Covers P.bytes addr len n
  · rw [if_pos h, if_pos (hcovers.2 h)]
    rfl
  · rw [if_neg h, if_neg (hcovers.not.2 h)]
    rfl

end Flags

/-! ## The number of resident pages -/

section Counted

variable {b} {b' : LinuxTracker P}

theorem wrapSub_one (n : ℕ) : wrapSub n 1 = wrap (n + (2 ^ 64 - 1)) := by
  have hone : wrap 1 = 1 := by decide
  rw [wrapSub, hone]

theorem counted_markResident (h : b.table.Counted id) (page total : ℕ) (resident : Bool) :
    (b.markResident page total resident).table.Counted id := by
  apply h.forEachPage
  intro was n
  dsimp only [id]
  split_ifs with hsame hresident hwas hwas
  · rfl
  · exact absurd (hwas.trans hresident.symm) hsame
  · rfl
  · rw [wrapSub_one]
  · rw [Bool.not_eq_true] at hresident hwas
    exact absurd (hwas.trans hresident.symm) hsame

theorem counted_install (h : b.table.Counted id) (thread : ℕ) (i : Install) :
    (b.install thread i).table.Counted id :=
  counted_markResident h i.page i.total true

theorem counted_reserveRegion (h : b.table.Counted id) {bytes : ℕ} {answer : Option ℕ}
    {register : Bool} {region : ℕ × ℕ}
    (hstep : b.reserveRegion bytes answer register = some (region, b')) :
    b'.table.Counted id := by
  unfold reserveRegion at hstep
  dsimp only at hstep
  split at hstep
  · cases hstep
    exact h
  · cases answer with
    | none =>
      cases hstep
      exact h
    | some base =>
      dsimp only at hstep
      split_ifs at hstep with hfree
      · cases hstep
        exact h
      · cases hstep
        exact h.reserve hfree rfl

theorem counted_releaseRegion (h : b.table.Counted id) (addr : ℕ) :
    (b.releaseRegion addr).table.Counted id := by
  unfold releaseRegion
  split
  · exact h
  next r hfind =>
    have hmem := OrdMap.find_eq_some_iff.1 hfind
    exact h.release hmem (PageTable.foldl_wrapSub (h.countP_le hmem) h.residentPages_lt)

theorem counted_resolveFault (h : b.table.Counted id) {thread addr len : ℕ} {data staged : Bool}
    (hstep : b.resolveFault thread addr data len staged = some b') : b'.table.Counted id := by
  unfold resolveFault at hstep
  dsimp only at hstep
  split_ifs at hstep
  · cases hstep
    exact h
  · cases hstep
    exact h
  · cases hstep
    exact counted_install h ..

theorem counted_installed (h : b.table.Counted id) (thread : ℕ) (i : Install) (succeeds : Bool) :
    (b.installed thread i succeeds).table.Counted id := by
  unfold installed
  dsimp only
  split_ifs
  · exact counted_markResident h ..
  · exact h

theorem counted_step (h : b.table.Counted id) {e : LinuxTrackerEvent}
    (hstep : b.step e = some b') : b'.table.Counted id := by
  cases e with
  | reserveRegion bytes answer register =>
    obtain ⟨⟨region, _⟩, hreserve, rfl⟩ := Option.map_eq_some_iff.1 hstep
    exact counted_reserveRegion h hreserve
  | releaseRegion addr =>
    cases hstep
    exact counted_releaseRegion h addr
  | fault =>
    cases hstep
    exact h
  | callbackReturns thread addr =>
    unfold step at hstep
    dsimp only at hstep
    split at hstep
    · cases hstep
    · cases hstep
      unfold callbackReturns
      split_ifs
      · exact h
      · exact counted_install h ..
  | resolveFault thread addr data len staged =>
    unfold step at hstep
    dsimp only at hstep
    split at hstep
    · cases hstep
    · exact counted_resolveFault h hstep
  | installed thread succeeds =>
    unfold step at hstep
    dsimp only at hstep
    split at hstep
    · cases hstep
    · cases hstep
      exact counted_installed h ..
  | evictPages addr len answer =>
    cases hstep
    unfold evictPages
    dsimp only
    split_ifs
    · exact h
    · exact h
    · exact counted_markResident h ..

theorem counted_run (h : b.table.Counted id) {events : List LinuxTrackerEvent}
    (hrun : run b events = some b') : b'.table.Counted id :=
  foldlM_invariant (I := fun b => b.table.Counted id) (fun _ _ _ h hstep => counted_step h hstep) h
    hrun

end Counted

end LinuxTracker

end MemInfo.PageFault
