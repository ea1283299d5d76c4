import Mathlib.Data.Fintype.Basic
import MemInfo.Lib.Threads
import MemInfo.Memclient.FlatMemory

/-! # Several threads on the remote heap

A fault handler fetches its page before it takes the lock, and `resolve_fault` overwrites
whatever the page has become since. A page is copied, sent and dropped while other threads may
store to it. Without these races every load gives the latest store.
-/

namespace MemInfo

open Lib
open Lib.Prog (Always wp_iff wp_tryCatch wp_mono Reaches play)

/-- What a thread does with the heap, one call after the other. Exceptions are caught. -/
def session (l : HeapLayout) (rounds : ℕ) : List HeapCall → HeapM Unit
  | [] => return
  | c :: cs => do
    tryCatch (do let _ ← c.exec l rounds) fun _ => return
    session l rounds cs

variable {ι β : Type} {B : PageFaultBackend β} {l : HeapLayout}

/-- A load that is about to complete gives the latest store to its address. -/
def LoadsLatest (env : ι → (o : HeapOp) → Scene ι β → o.Res → Scene ι β → Prop) (l : HeapLayout)
    (T : ι → HeapM Unit) (S : Scene ι β) : Prop :=
  ∀ i page off k b S', T i = .op (.load page off) k →
    env i (.load page off) S (some b) S' → S.flat[l.offset page + off]? = some b

def Scene.start (l : HeapLayout) (b : β) : Scene ι β :=
  ⟨.start l b, List.replicate l.capacity 0, fun _ => .free⟩

theorem paced_session (rounds : ℕ) (cs : List HeapCall) :
    Paced l (session l rounds cs) .free (Returned (· = .free)) := by
  induction cs with
  | nil => exact rfl
  | cons c cs ih =>
    have hcall : Paced l (tryCatch (do let _ ← c.exec l rounds) fun _ => return) .free
        (Returned (· = .free)) := by
      refine wp_tryCatch.mpr (wp_mono (paced_bind (P := (· = .free)) (c.paced_exec rounds)
        (fun _ m hm => hm) fun _ _ hm => hm) ?_)
      rintro (a | e | x) m hm
      · exact hm
      · exact hm
      · trivial
    refine paced_bind hcall ?_ fun _ _ hm => hm
    rintro _ _ rfl
    exact ih

theorem coherent_start {b : β} (hb : ∀ page, B.contents b page = none) :
    Coherent B l (Scene.start l b : Scene ι β) :=
  ⟨(stands_start hb).pages, fun _ => trivial,
    ⟨fun _ => False.elim, fun _ _ => False.elim, fun _ _ _ => False.elim⟩⟩

def InStep (l : HeapLayout) (T : ι → HeapM Unit) (S : Scene ι β) : Prop :=
  ∀ i, Always (Mark.paced l) (fun o m => m.InOrder l o) (T i) (S.marks i)

variable [DecidableEq ι]

theorem InStep.next {T : ι → HeapM Unit} {S S' : Scene ι β} (h : InStep l T S) {i : ι}
    {o : HeapOp} {k : o.Res → HeapM Unit} {r : o.Res} (hop : T i = .op o k)
    (hmarks : S'.marks = Function.update S.marks i ((S.marks i).next l o r)) :
    InStep l (Function.update T i (k r)) S' := by
  intro j
  rw [hmarks]
  by_cases hj : j = i
  · subst hj
    have hi := h j
    rw [hop] at hi
    simpa using hi.2 r _ rfl
  · simpa [Function.update_of_ne hj] using h j

theorem Coherent.loadsLatest {T : ι → HeapM Unit} {S : Scene ι β} (hB : B.Contract)
    (hc : Coherent B l S) (hi : InStep l T S) : LoadsLatest (sceneEnv B l) l T S := by
  intro i page off k b S' hop hs
  have ho := hi i
  rw [hop] at ho
  have hu : S.Unraced B i (.load page off) := by
    intro habsent
    have henv := hs.1
    simp [heapEnv, habsent] at henv
  exact (hc.step hB ho.1 hu hs).2 b rfl

def winScene (osPage : ℕ) (l : HeapLayout) (i : ι) (o : HeapOp) (S : Scene ι WinRegion) :
    o.Res × Scene ι WinRegion :=
  let answer := winHandler osPage o S.world
  (answer.1, S.after l i o answer.1 answer.2)

theorem winScene_allowed (osPage : ℕ) (i : ι) (o : HeapOp) (S : Scene ι WinRegion)
    (hgood : winGood o S.world) :
    sceneEnv (winBackend osPage) l i o S (winScene osPage l i o S).1 (winScene osPage l i o S).2 :=
  ⟨winHandler_allowed osPage o S.world hgood, rfl, rfl⟩

theorem LoadsLatest.answer {osPage page off : ℕ} {T : ι → HeapM Unit} {S : Scene ι WinRegion}
    {i : ι} {k : Option Byte → HeapM Unit} {b : Byte}
    (h : LoadsLatest (sceneEnv (winBackend osPage) l) l T S)
    (hop : T i = .op (.load page off) k)
    (hb : (winHandler osPage (.load page off) S.world).1 = some b) :
    S.flat[l.offset page + off]? = some b := by
  have hs := winScene_allowed (l := l) osPage i (.load page off) S rfl
  simp only [winScene, hb] at hs
  exact h i page off k b _ hop hs

/-- Two threads. One of them stores and loads again, the other loads. -/
def twoThreads (i : Bool) : HeapM Unit :=
  session smallLayout 5 (if i then [.store 0 7, .load 0] else [.load 0])

instance [Fintype ι] (S : Scene ι WinRegion) (osPage : ℕ) (i : ι) :
    (o : HeapOp) → Decidable (S.Unraced (winBackend osPage) i o)
  | .load page _ => inferInstanceAs (Decidable (Option.map _ _ = none →
      ∀ j, j ≠ i → ¬ (S.marks j).Handles page))
  | .store page _ _ => inferInstanceAs (Decidable ((Option.map _ _ = none →
      ∀ j, j ≠ i → ¬ (S.marks j).Handles page) ∧ ∀ j, j ≠ i → ¬ (S.marks j).Flushes page))
  | .read .. | .write .. | .resolveFault .. | .isDirty _ | .copy _ | .clearDirty _
  | .evictPages _ | .unresolved _ | .lock | .unlock | .heap | .setHeap _ => .isTrue trivial

/-- The effects of the threads on Windows, as long as they do not race. -/
def unracedEnv (osPage : ℕ) (l : HeapLayout) (i : ι) (o : HeapOp) (S : Scene ι WinRegion)
    (r : o.Res) (S' : Scene ι WinRegion) : Prop :=
  S.Unraced (winBackend osPage) i o ∧ sceneEnv (winBackend osPage) l i o S r S'

def unracedGood [Fintype ι] (osPage : ℕ) (i : ι) (o : HeapOp) (S : Scene ι WinRegion) : Bool :=
  winGood o S.world && decide (S.Unraced (winBackend osPage) i o)

theorem winScene_unraced [Fintype ι] (osPage : ℕ) (i : ι) (o : HeapOp) (S : Scene ι WinRegion)
    (hgood : unracedGood osPage i o S) :
    unracedEnv osPage l i o S (winScene osPage l i o S).1 (winScene osPage l i o S).2 := by
  obtain ⟨hgood, hu⟩ := Bool.and_eq_true_iff.mp hgood
  exact ⟨of_decide_eq_true hu, winScene_allowed osPage i o S hgood⟩

/-- Loads give the latest store in every state of every run of threads in which no access
faults on a page that another handler is about to install, and no store goes to a page that
another thread is flushing. -/
theorem loads_latest_unraced (osPage rounds : ℕ) (calls : ι → List HeapCall)
    {T : ι → HeapM Unit} {S : Scene ι WinRegion}
    (h : Reaches (unracedEnv osPage l) (fun i => session l rounds (calls i))
      (.start l WinRegion.reserveRegion) T S) :
    LoadsLatest (sceneEnv (winBackend osPage) l) l T S := by
  have hB := winBackend_contract osPage
  obtain ⟨hc, hi⟩ : Coherent (winBackend osPage) l S ∧ InStep l T S := by
    refine h.invariant (I := fun T S => Coherent (winBackend osPage) l S ∧ InStep l T S) ?_
      ⟨coherent_start fun _ => rfl, fun i => (wp_iff.mp (paced_session rounds (calls i))).1⟩
    rintro T S i o k r S' ⟨hc, hi⟩ hop ⟨hu, hs⟩
    have ho := hi i
    rw [hop] at ho
    exact ⟨(hc.step hB ho.1 hu hs).1, hi.next hop hs.2.2⟩
  exact hc.loadsLatest hB hi

/-- The second thread loads after the first has stored. -/
theorem loads_latest_unraced_in_turn :
    ∃ T S, Reaches (unracedEnv 1 smallLayout) twoThreads
      (.start smallLayout WinRegion.reserveRegion) T S ∧
      (∃ k, T false = .op (.load 0 0) k) ∧ S.flat = [7, 0, 0, 0] ∧
      LoadsLatest (sceneEnv (winBackend 1) smallLayout) smallLayout T S := by
  have hreach := Prog.reaches_play (winScene_unraced (l := smallLayout) 1) (List.replicate 9 true)
    (Reaches.start (T := twoThreads) (s := Scene.start smallLayout WinRegion.reserveRegion))
    (by decide +kernel)
  exact ⟨_, _, hreach, ⟨_, rfl⟩, rfl, loads_latest_unraced 1 5 _ hreach⟩

/-- Both threads fault on the page and fetch it. The first installs it and stores; the second
installs what it fetched. -/
def staleInstall : List Bool :=
  [true, true, false, false] ++ List.replicate 7 true ++ List.replicate 6 false

/-- The second handler overwrites the store, and the next load gives zero. -/
theorem store_overwritten :
    ∃ T S, Reaches (sceneEnv (winBackend 1) smallLayout) twoThreads
      (.start smallLayout WinRegion.reserveRegion) T S ∧
      ¬ LoadsLatest (sceneEnv (winBackend 1) smallLayout) smallLayout T S := by
  have hreach := Prog.reaches_play (winScene_allowed (l := smallLayout) 1) staleInstall
    (Reaches.start (T := twoThreads) (s := Scene.start smallLayout WinRegion.reserveRegion))
    (by decide +kernel)
  refine ⟨_, _, hreach, fun h => ?_⟩
  have hload := h.answer (i := true) (b := 0) rfl (by decide +kernel)
  exact absurd hload (by decide +kernel)

end MemInfo
