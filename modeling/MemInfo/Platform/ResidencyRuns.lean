import MemInfo.Platform.LinuxTracking

/-! # The accounting of the backends

The runs of `PageFaultBackendWin`, `PageFaultBackendMac` and `PageFaultBackendLinux` keep the number
of resident pages. A page is resident for the first two unless it is absent, and for the third if it
is flagged.
-/

namespace MemInfo.PageFault

open Lib

def PageState.present (s : PageState) : Bool := s ≠ .absent

namespace WriteTracker

variable {P : OsPage} {w w' : WriteTracker P}

theorem counting_setStates {state : PageState} (hstate : state ≠ .absent) :
    PageTable.Counting PageState.present (fun _ => state)
      (fun s n => if s = .absent ∧ state ≠ .absent then wrap (n + 1) else n) := by
  intro s n
  cases state with
  | absent => exact absurd rfl hstate
  | resident => cases s <;> simp [PageState.present]
  | dirty => cases s <;> simp [PageState.present]

theorem counting_clearDirty :
    PageTable.Counting PageState.present (fun s => if s = .dirty then .resident else s)
      (fun _ n => n) := by
  rintro (_ | _ | _) n <;> simp [PageState.present]

theorem counting_evictPages :
    PageTable.Counting PageState.present (fun _ => .absent)
      (fun s n => if s ≠ .absent then wrapSub n 1 else n) := by
  rintro (_ | _ | _) n <;> simp [PageState.present]

theorem counted_setStates (h : w.table.Counted PageState.present) {state : PageState}
    (hstate : state ≠ .absent) (page total : ℕ) :
    (w.setStates page total state).table.Counted PageState.present :=
  h.forEachPage (counting_setStates hstate) page total

theorem residentPagesWithout_add (v : ProtectingBackend) {n : ℕ} {r : Region PageState}
    (hle : PageTable.countResident PageState.present r ≤ n) (hn : n < 2 ^ 64) :
    residentPagesWithout v n r + PageTable.countResident PageState.present r = n := by
  cases v with
  | win =>
    have hwrap : residentPagesWithout .win n r =
        n - PageTable.countResident PageState.present r :=
      wrapSub_of_le hle hn
    omega
  | mac =>
    have hfold := PageTable.foldl_wrapSub hle hn
    simp only [PageState.present, decide_eq_true_eq] at hfold
    exact hfold

theorem counted_releaseRegion (h : w.table.Counted PageState.present) (v : ProtectingBackend)
    (addr : ℕ) : (w.releaseRegion v addr).table.Counted PageState.present := by
  unfold releaseRegion
  split
  · exact h
  next r hfind =>
    have hmem := OrdMap.find_eq_some_iff.1 hfind
    exact h.release hmem (residentPagesWithout_add v (h.countP_le hmem) h.residentPages_lt)

theorem counted_moves (h : w.table.Counted PageState.present) {v : ProtectingBackend}
    (hmoves : Moves v w w') : w'.table.Counted PageState.present := by
  cases hmoves with
  | idle htable hprotection hhistory =>
    rw [htable]
    exact h
  | addRegion hfree => exact h.reserve hfree rfl
  | releaseRegion addr => exact counted_releaseRegion h v addr
  | resolveAs htotal hgranted hprotection htable hhistory hpresent hstate =>
    rw [← htable] at h
    exact counted_setStates h hpresent ..
  | clearDirty addr len answer =>
    unfold clearDirty
    dsimp only
    split_ifs
    · exact h
    · exact h.forEachPage counting_clearDirty ..
  | evictPages addr len answer =>
    unfold evictPages
    dsimp only
    split_ifs
    · exact h
    · exact h
    · exact h.forEachPage counting_evictPages ..
  | promote hgranted => exact counted_setStates h PageState.noConfusion ..
  | store hwritable htracked => exact h

theorem counted_run (h : w.table.Counted PageState.present) {v : ProtectingBackend}
    {events : List WriteTrackerEvent} (hrun : run v w events = some w') :
    w'.table.Counted PageState.present := by
  rw [run_eq_foldlM] at hrun
  exact foldlM_invariant (I := fun w => w.table.Counted PageState.present)
    (fun _ _ _ h hstep => counted_moves h (moves_step hstep)) h hrun

end WriteTracker

/-! ## The three backends -/

/-- Along every run of a backend, and between the rounds of its loops over ranges, `region_for`
finds the only region with an address if there is one that ends below the last address, with the
index of the page, and `resident_pages()` is the number of the resident pages of all regions. -/
theorem residency_accounting_sound (P : OsPage) :
    (∀ v protection events (w : WriteTracker P),
      WriteTracker.run v { protection } events = some w →
        w.table.Accounted PageState.present) ∧
    ∀ uffd events (b : LinuxTracker P), LinuxTracker.run { uffd } events = some b →
      b.table.Accounted id := by
  constructor
  · intro v protection events w hrun
    exact (WriteTracker.counted_run (PageTable.counted_empty _) hrun).accounted
  · intro uffd events b hrun
    exact (LinuxTracker.counted_run (PageTable.counted_empty _) hrun).accounted

/-- A range of three pages that starts inside a page and reaches over the end of its region, filled
and evicted, on Windows. -/
def fillAcrossEnd : List WriteTrackerEvent :=
  [.reserveRegion 8192 (some 65536), .resolveFault 0 65636 true 8192 true true,
    .resolveFault 0 65536 true 4096 true true, .evictPages 69632 1 true]

/-- The same on Linux, with an installation that fails after another thread has filled a page of
it. -/
def installAcrossEnd : List LinuxTrackerEvent :=
  [.reserveRegion 8192 (some 65536) true, .resolveFault 0 65636 true 8192 true,
    .resolveFault 1 65536 true 4096 true, .installed 1 true, .installed 0 false,
    .resolveFault 1 69632 true 4096 true, .installed 1 true]

theorem one_page_resident :
    (∃ w : WriteTracker ⟨4096, by decide⟩,
      WriteTracker.run .win { protection := fun _ => .noAccess } fillAcrossEnd = some w ∧
        w.table.residentPages = 1 ∧ w.table.Accounted PageState.present) ∧
    ∃ b : LinuxTracker ⟨4096, by decide⟩,
      LinuxTracker.run { uffd := true } installAcrossEnd = some b ∧
        b.table.residentPages = 1 ∧ b.table.Accounted id := by
  have hsound := residency_accounting_sound ⟨4096, by decide⟩
  have hwin : (WriteTracker.run (P := ⟨4096, by decide⟩) .win
      { protection := fun _ => .noAccess } fillAcrossEnd).any
        (fun w => w.table.residentPages = 1) := by
    decide +kernel
  have hlinux : (LinuxTracker.run (P := ⟨4096, by decide⟩) { uffd := true }
      installAcrossEnd).any (fun b => b.table.residentPages = 1) := by
    decide +kernel
  obtain ⟨w, hrun, hone⟩ := (Option.any_eq_true _ _).1 hwin
  obtain ⟨b, hrun', hone'⟩ := (Option.any_eq_true _ _).1 hlinux
  exact ⟨⟨w, hrun, of_decide_eq_true hone, hsound.1 _ _ _ w hrun⟩,
    ⟨b, hrun', of_decide_eq_true hone', hsound.2 _ _ b hrun'⟩⟩

/-- A region that ends with the address space contains its first address, and `region_for` does not
find it: the sum of `base` and the size is zero. -/
theorem last_region_not_found :
    (LinuxTracker.run (P := ⟨4096, by decide⟩) { uffd := true }
      [.reserveRegion 4096 (some (2 ^ 64 - 4096)) true]).any (fun b =>
        b.table.regions.map.entries.any (fun e =>
          e.1 ≤ 2 ^ 64 - 4096 && 2 ^ 64 - 4096 < e.1 + e.2.size) &&
        (b.table.regions.regionFor (2 ^ 64 - 4096)).isNone) = true := by
  decide +kernel

end MemInfo.PageFault
