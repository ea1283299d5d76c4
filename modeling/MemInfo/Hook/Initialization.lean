import Mathlib.Logic.Function.Basic
import MemInfo.Lib.Run

/-! # The initialisation of the hook

Every thread that redirects an allocation calls `ensure_initialized`, which looks at two flags
before it takes `init_mutex` and again after it. Client, heap and arena are made by one thread, and
all calls have the same answer.
-/

namespace MemInfo

open Lib

/-- `g_state`, with what it owns. -/
structure RemoteState where
  client : Bool := false
  heap : Bool := false
  arena : Bool := false
  ready : Bool := false
  failed : Bool := false
  /-- The thread that holds `init_mutex`. -/
  owner : Option ℕ := none
  /-- How often the construction of a client was begun. -/
  attempts : ℕ := 0
  deriving DecidableEq, Repr

/-- Where a thread is in `ensure_initialized`. -/
inductive InitPc where
  | idle
  | loadReady
  | loadFailed
  | lock
  | reloadReady
  | reloadFailed
  | makeClient
  | makeHeap
  | makeArena
  | publish
  | fail
  | reset
  | unlock (answer : Bool)
  | returned (answer : Bool)
  deriving DecidableEq, Repr

namespace RemoteState

variable (s : RemoteState)

def next (i : ℕ) (throws : Bool) : InitPc → Option (RemoteState × InitPc)
  | .idle => some (s, .loadReady)
  | .loadReady => some (s, if s.ready then .returned true else .loadFailed)
  | .loadFailed => some (s, if s.failed then .returned false else .lock)
  | .lock => if s.owner = none then some ({ s with owner := some i }, .reloadReady) else none
  | .reloadReady => some (s, if s.ready then .unlock true else .reloadFailed)
  | .reloadFailed => some (s, if s.failed then .unlock false else .makeClient)
  | .makeClient =>
    let s := { s with attempts := s.attempts + 1 }
    some (if throws then (s, .fail) else ({ s with client := true }, .makeHeap))
  | .makeHeap => some (if throws then (s, .fail) else ({ s with heap := true }, .makeArena))
  | .makeArena => some (if throws then (s, .fail) else ({ s with arena := true }, .publish))
  | .publish => some ({ s with ready := true }, .unlock true)
  | .fail => some ({ s with failed := true }, .reset)
  | .reset => some ({ s with arena := false, heap := false, client := false }, .unlock false)
  | .unlock answer => some ({ s with owner := none }, .returned answer)
  | .returned _ => some (s, .loadReady)

def Up : Prop := s.ready ∧ ¬ s.failed ∧ s.client ∧ s.heap ∧ s.arena

def Down : Prop := s.failed ∧ ¬ s.ready ∧ ¬ s.client ∧ ¬ s.heap ∧ ¬ s.arena

def Untried : Prop := ¬ s.ready ∧ ¬ s.failed ∧ s.attempts = 0

def Settled : Prop := s.Untried ∨ s.attempts = 1 ∧ (s.Up ∨ s.Down)

def critical : InitPc → Bool
  | .idle | .loadReady | .loadFailed | .lock | .returned _ => false
  | _ => true

def At : InitPc → Prop
  | .reloadReady => s.Settled
  | .reloadFailed => s.Settled ∧ ¬ s.ready
  | .makeClient => s.Untried
  | .makeHeap => ¬ s.ready ∧ ¬ s.failed ∧ s.attempts = 1 ∧ s.client
  | .makeArena => ¬ s.ready ∧ ¬ s.failed ∧ s.attempts = 1 ∧ s.client ∧ s.heap
  | .publish => ¬ s.ready ∧ ¬ s.failed ∧ s.attempts = 1 ∧ s.client ∧ s.heap ∧ s.arena
  | .fail => ¬ s.ready ∧ ¬ s.failed ∧ s.attempts = 1
  | .reset => s.failed ∧ ¬ s.ready ∧ s.attempts = 1
  | .unlock answer => s.attempts = 1 ∧ if answer then s.Up else s.Down
  | .returned answer => s.attempts = 1 ∧ if answer then s.Up else s.failed ∧ ¬ s.ready
  | _ => True

variable {s} {s' : RemoteState} {i j : ℕ} {throws : Bool} {pc pc' pc₂ : InitPc}

/-- What a step establishes for the thread that takes it. -/
theorem At.next (h : s.next i throws pc = some (s', pc')) (hat : s.At pc)
    (hsettled : s.owner = none → s.Settled) (hready : s.ready → s.attempts = 1 ∧ s.Up)
    (hfailed : s.failed → s.attempts = 1 ∧ ¬ s.ready) : s'.At pc' := by
  cases pc with
  | lock =>
    obtain ⟨hfree, heq⟩ := Option.ite_none_right_eq_some.1 h
    cases heq
    exact hsettled hfree
  | _ =>
    simp only [RemoteState.next, Option.some.injEq] at h
    grind [At, Settled, Untried, Up, Down]

/-- What the other threads can rely on remains. -/
theorem At.other (h : s.next i throws pc = some (s', pc')) (hat : s.At pc) (hother : s.At pc₂)
    (hfree : critical pc = false ∨ critical pc₂ = false) : s'.At pc₂ := by
  cases pc with
  | lock =>
    obtain ⟨hfree, heq⟩ := Option.ite_none_right_eq_some.1 h
    cases heq
    exact hother
  | _ =>
    simp only [RemoteState.next, Option.some.injEq] at h
    cases pc₂ <;> grind [At, Settled, Untried, Up, Down, critical]

theorem owner_next (h : s.next i throws pc = some (s', pc')) (hat : s.At pc)
    (howns : critical pc = true ↔ s.owner = some i) (hsettled : s.owner = none → s.Settled) :
    (critical pc' = true ↔ s'.owner = some i) ∧
      (∀ j, j ≠ i → (s'.owner = some j ↔ s.owner = some j)) ∧
      (s'.owner = none → s'.Settled) := by
  cases pc with
  | lock =>
    obtain ⟨hfree, heq⟩ := Option.ite_none_right_eq_some.1 h
    cases heq
    grind [critical]
  | _ =>
    simp only [RemoteState.next, Option.some.injEq] at h
    grind [critical, At, Settled, Untried, Up, Down]

end RemoteState

/-- Threads that call `ensure_initialized` again and again. -/
structure HookThreads where
  state : RemoteState := {}
  pcs : ℕ → InitPc := fun _ => .idle

namespace HookThreads

open RemoteState

def step (w : HookThreads) (e : ℕ × Bool) : Option HookThreads :=
  (w.state.next e.1 e.2 (w.pcs e.1)).map fun r => ⟨r.1, Function.update w.pcs e.1 r.2⟩

def run (events : List (ℕ × Bool)) : Option HookThreads := events.foldlM step {}

structure Inv (w : HookThreads) : Prop where
  owns : ∀ i, critical (w.pcs i) = true ↔ w.state.owner = some i
  at_pc : ∀ i, w.state.At (w.pcs i)
  settled : w.state.owner = none → w.state.Settled

variable {w u : HookThreads} {events before : List (ℕ × Bool)} {i j : ℕ} {a b : Bool}

/-- What the flags say at any time. -/
theorem Inv.flags (h : w.Inv) : (w.state.ready → w.state.attempts = 1 ∧ w.state.Up) ∧
    (w.state.failed → w.state.attempts = 1 ∧ ¬ w.state.ready) ∧ w.state.attempts ≤ 1 := by
  cases howner : w.state.owner with
  | none =>
    have := h.settled howner
    grind [Settled, Untried, Up, Down]
  | some k =>
    have hcritical := (h.owns k).2 howner
    have := h.at_pc k
    cases hpc : w.pcs k <;> grind [At, Settled, Untried, Up, Down, critical]

theorem Inv.step {w' : HookThreads} {e : ℕ × Bool} (h : w.Inv) (hstep : w.step e = some w') :
    w'.Inv := by
  obtain ⟨⟨s, pc⟩, hnext, rfl⟩ := Option.map_eq_some_iff.1 hstep
  obtain ⟨hready, hfailed, -⟩ := h.flags
  obtain ⟨hself, hothers, hsettled⟩ := owner_next hnext (h.at_pc e.1) (h.owns e.1) h.settled
  have hat := (h.at_pc e.1).next hnext h.settled hready hfailed
  refine ⟨fun j => ?_, fun j => ?_, hsettled⟩
  all_goals
    dsimp only
    by_cases hj : j = e.1
  · subst hj
    rwa [Function.update_self]
  · rw [Function.update_of_ne hj, hothers j hj]
    exact h.owns j
  · subst hj
    rwa [Function.update_self]
  · rw [Function.update_of_ne hj]
    refine (h.at_pc e.1).other hnext (h.at_pc j) ?_
    grind [h.owns e.1, h.owns j]

theorem inv_run (hrun : run events = some w) : w.Inv := by
  refine foldlM_invariant (fun _ _ _ => Inv.step) ⟨fun i => ?_, fun i => ?_, fun _ => ?_⟩ hrun
  · simp [critical]
  · simp [At]
  · simp [Settled, Untried]

theorem answered_run (h : w.Inv) (hpc : w.pcs i = .returned a)
    (hrun : events.foldlM HookThreads.step w = some u) : u.state.At (.returned a) := by
  have hat := h.at_pc i
  rw [hpc] at hat
  refine (foldlM_invariant (I := fun u => u.Inv ∧ u.state.At (.returned a)) ?_ ⟨h, hat⟩ hrun).2
  rintro v e v' ⟨hv, hat⟩ hstep
  obtain ⟨⟨s, pc⟩, hnext, rfl⟩ := Option.map_eq_some_iff.1 hstep
  exact ⟨hv.step hstep, (hv.at_pc e.1).other hnext hat (Or.inr rfl)⟩

/-- However the threads take turns and whatever fails, the construction of a client is begun at most
once, all calls have the same answer, and once a call has been answered with true the arena stays.
When nobody is at work after a failure, nothing is left. -/
theorem initialised_once (hrun : run (before ++ events) = some w) (hu : run before = some u) :
    w.state.attempts ≤ 1 ∧
      (u.pcs i = .returned a → w.pcs j = .returned b → a = b) ∧
      (u.pcs i = .returned true → w.state.arena = true ∧ w.state.failed = false) ∧
      (w.state.owner = none → w.state.failed = true →
        w.state.client = false ∧ w.state.heap = false ∧ w.state.arena = false) := by
  have hw := inv_run hrun
  rw [run, foldlM_append_of_some hu] at hrun
  refine ⟨hw.flags.2.2, fun ha hb => ?_, fun ha => ?_, fun hfree hfailed => ?_⟩
  · have hi := answered_run (inv_run hu) ha hrun
    have hj := hw.at_pc j
    rw [hb] at hj
    cases a <;> cases b <;> grind [At, Up]
  · have hi := answered_run (inv_run hu) ha hrun
    grind [At, Up]
  · have := hw.settled hfree
    grind [Settled, Untried, Up, Down]

/-- Both threads find no flag set, and the first one takes the mutex. -/
def racing : List (ℕ × Bool) := List.replicate 3 (1, false) ++ List.replicate 11 (0, false)

theorem initialised_once_racing : ∃ u w, run racing = some u ∧
    run (racing ++ List.replicate 3 (1, false)) = some w ∧ u.pcs 0 = .returned true ∧
    w.pcs 1 = .returned true ∧ w.state.attempts ≤ 1 ∧ w.state.arena = true := by
  have hu : (run racing).any (fun u => u.pcs 0 = .returned true) = true := by decide
  have hw : (run (racing ++ List.replicate 3 (1, false))).any
      (fun w => w.pcs 1 = .returned true) = true := by decide
  obtain ⟨u, hu, ha⟩ := (Option.any_eq_true _ _).1 hu
  obtain ⟨w, hw, hb⟩ := (Option.any_eq_true _ _).1 hw
  have ha := of_decide_eq_true ha
  have hb := of_decide_eq_true hb
  obtain ⟨hattempts, -, harena, -⟩ :=
    initialised_once (i := 0) (j := 1) (a := true) (b := true) hw hu
  exact ⟨u, w, hu, hw, ha, hb, hattempts, (harena ha).1⟩

end HookThreads

end MemInfo
