import Mathlib.Logic.Function.Basic
import MemInfo.Platform.PageFaultBackend

/-! # The Windows backend

`PageFaultBackendWin` keeps a state for every OS page: absent, resident (committed and
read-only) or dirty (writable). The heap calls it for whole pages of its own, so the OS pages of
one such page are absent together.
-/

namespace MemInfo

open Lib

/-- A committed page. The OS pages of it that are not dirty are read-only. -/
structure WinPage where
  bytes : List Byte
  dirty : List ℕ
  deriving DecidableEq, Repr

abbrev WinRegion := ℕ → Option WinPage

namespace WinRegion

variable (osPage : ℕ) (b : WinRegion)

def reserveRegion : WinRegion := fun _ => none

/-- A store. The vectored handler lifts the protection of a read-only OS page and marks it
dirty; then the store is executed again. -/
def store (page off : ℕ) (v : Byte) : WinRegion :=
  match b page with
  | none => b
  | some p => Function.update b page (some ⟨splice p.bytes off [v], off / osPage :: p.dirty⟩)

/-- `resolve_fault`: the page is committed and overwritten, whatever it was. It is dirty as a
whole, or read-only as a whole. -/
def resolveFault (page : ℕ) (data : List Byte) (dirty : Bool) : WinRegion :=
  Function.update b page
    (some ⟨data, if dirty then List.range ((data.length + osPage - 1) / osPage) else []⟩)

def clearDirty (page : ℕ) : WinRegion :=
  match b page with
  | none => b
  | some p => Function.update b page (some { p with dirty := [] })

def evictPages (page : ℕ) : WinRegion := Function.update b page none

end WinRegion

/-- The backend. Its calls of the OS may fail: a page that cannot be protected is dirty, one
that cannot be committed or released stays as it is. -/
def winBackend (osPage : ℕ) : PageFaultBackend WinRegion where
  contents b page := (b page).map WinPage.bytes
  isDirty b page := (b page).any fun p => !p.dirty.isEmpty
  load _ b b' := b' = b
  store page off v b b' := b' = b.store osPage page off v
  resolveFault page data isWrite b r b' :=
    match r with
    | false => b' = b
    | true => ∃ dirty : Bool, (isWrite → dirty) ∧ b' = b.resolveFault osPage page data dirty
  clearDirty page b b' := b' = b ∨ b' = b.clearDirty page
  evictPages page b r b' :=
    match r with
    | false => b' = b
    | true => b' = b.evictPages page

section Contract

variable {osPage page : ℕ} {b : WinRegion}

theorem winBackend_elsewhere_update (p : Option WinPage) :
    (winBackend osPage).Elsewhere page b (Function.update b page p) := by
  intro q hq
  constructor <;> simp [winBackend, Function.update_of_ne hq]

theorem winBackend_elsewhere_refl : (winBackend osPage).Elsewhere page b b := fun _ _ => ⟨rfl, id⟩

theorem winBackend_contract (osPage : ℕ) : (winBackend osPage).Contract where
  load := by
    rintro page b _ rfl
    exact ⟨winBackend_elsewhere_refl, rfl, id⟩
  store := by
    rintro page off v b _ bytes rfl hc -
    obtain ⟨p, hp, rfl⟩ := Option.map_eq_some_iff.mp hc
    simp only [WinRegion.store, hp]
    refine ⟨winBackend_elsewhere_update _, ?_, ?_⟩ <;> simp [winBackend]
  resolveFault := by
    rintro page data isWrite b _ ⟨dirty, -, rfl⟩
    refine ⟨winBackend_elsewhere_update _, ?_⟩
    simp [winBackend, WinRegion.resolveFault]
  resolveFault_failed := id
  clearDirty := by
    rintro page b _ (rfl | rfl)
    · exact ⟨winBackend_elsewhere_refl, rfl⟩
    unfold WinRegion.clearDirty
    split
    · exact ⟨winBackend_elsewhere_refl, rfl⟩
    next p hp =>
      refine ⟨winBackend_elsewhere_update _, ?_⟩
      simp [winBackend, hp]
  evictPages := by
    rintro page b _ rfl
    refine ⟨winBackend_elsewhere_update _, ?_⟩
    simp [winBackend, WinRegion.evictPages]
  evictPages_failed := id

end Contract

end MemInfo
