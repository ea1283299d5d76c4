import MemInfo.Lib.Run
import MemInfo.Memclient.HeapCoherence
import MemInfo.Platform.PageFaultWin

/-! # The remote heap is flat memory

One thread that uses the heap sees a flat memory, whatever the budget is and whichever fetches,
write-backs and evictions fail.
-/

namespace MemInfo

open Lib
open Lib.Prog (wp wp_bind wp_mono Confined Runs)

/-- What a call does to a flat memory. A load that completes gives the byte at its address; a
store that completes sets it. -/
def FlatStep (memory : ℕ → Byte) :
    HeapCall → Outcome HeapErr HeapValue → (ℕ → Byte) → Prop
  | .load addr, out, memory' => memory' = memory ∧ ∀ v, out = .ok v → v = .byte (memory addr)
  | .store addr v, .ok _, memory' => memory' = Function.update memory addr v
  | _, _, memory' => memory' = memory

/-- A call that comes to an end, with a result or an exception. -/
def HeapCall.Completes {β : Type} (B : PageFaultBackend β) (l : HeapLayout) (w : HeapWorld β)
    (c : HeapCall) (out : Outcome HeapErr HeapValue) (w' : HeapWorld β) : Prop :=
  (∀ x, out ≠ .aborted x) ∧ ∃ rounds, Runs (heapEnv B) (c.exec l rounds) w out w'

def flatEnv (l : HeapLayout) (o : HeapOp) (x : Mark × List Byte) (r : o.Res)
    (x' : Mark × List Byte) : Prop :=
  x'.1 = x.1.next l o r ∧ x'.2 = stored l x.2 o r ∧ Agrees l x.2 o r

variable {β : Type} {B : PageFaultBackend β} {l : HeapLayout} {flat : List Byte}

def Stands (B : PageFaultBackend β) (l : HeapLayout) (w : HeapWorld β) (x : Mark × List Byte) :
    Prop :=
  Coherent B l (⟨w, x.2, fun _ => x.1⟩ : Scene Unit β)

/-- The effects of the only thread race with nothing. -/
theorem Stands.step (hB : B.Contract) {w w' : HeapWorld β} {x : Mark × List Byte} {o : HeapOp}
    {r : o.Res} (h : Stands B l w x) (ho : x.1.InOrder l o) (henv : heapEnv B o w r w') :
    ∃ x', flatEnv l o x r x' ∧ Stands B l w' x' := by
  have hs : sceneEnv B l () o ⟨w, x.2, fun _ => x.1⟩ r
      ⟨w', stored l x.2 o r, fun _ => x.1.next l o r⟩ := by
    refine ⟨henv, rfl, ?_⟩
    ext j
    simp
  obtain ⟨hc, ha⟩ := Coherent.step hB h ho (Scene.unraced _ () o) hs
  exact ⟨(x.1.next l o r, stored l x.2 o r), ⟨rfl, rfl, ha⟩, hc⟩

/-! ## The programs on the flat memory -/

/-- An effect of the code of the heap, as opposed to an access of the application and to what
the backend does with its fault. -/
def HeapOp.Inner : HeapOp → Prop
  | .load .. | .store .. | .unresolved _ => False
  | _ => True

abbrev Internal {α : Type} (p : HeapM α) : Prop := Confined HeapOp.Inner (fun _ => True) p

section Internal

variable {α β : Type}

theorem internal_do {o : HeapOp} {f : o.Res → HeapM α} (ho : o.Inner) (hf : ∀ r, Internal (f r)) :
    Internal (heapDo o >>= f) := ⟨ho, hf⟩

theorem internal_modify {f : RemoteHeap → RemoteHeap} : Internal (RemoteHeap.modify f) :=
  internal_do trivial fun _ => ⟨trivial, fun _ => trivial⟩

theorem internal_flushPage {page : ℕ} : Internal (RemoteHeap.flushPage l page) := by
  refine internal_do trivial fun dirty => ?_
  cases dirty with
  | false => trivial
  | true =>
    refine internal_do trivial fun bytes => internal_do trivial fun answer => ?_
    cases answer with
    | some e => trivial
    | none => exact internal_do trivial fun _ => internal_modify

theorem internal_evictPage {page : ℕ} : Internal (RemoteHeap.evictPage l page) := by
  refine internal_do trivial fun heap => ?_
  split
  · trivial
  · apply Confined.bind
    case hp =>
      exact Confined.tryCatch (Confined.bind internal_flushPage fun _ => trivial) fun _ => trivial
    case hf =>
      intro flushed
      cases flushed with
      | false => exact internal_modify
      | true =>
        refine internal_do trivial fun released => ?_
        cases released <;> exact internal_modify

theorem internal_enforceBudget (rounds : ℕ) : Internal (RemoteHeap.enforceBudget l rounds) := by
  induction rounds with
  | zero => trivial
  | succ rounds ih =>
    refine internal_do trivial fun heap => ?_
    split
    · split
      · exact internal_evictPage.bind fun _ => ih
      · trivial
    · trivial

theorem internal_evictAll (rounds : ℕ) : Internal (RemoteHeap.evictAll l rounds) := by
  induction rounds with
  | zero => trivial
  | succ rounds ih =>
    refine internal_do trivial fun heap => ?_
    split
    · trivial
    · refine internal_evictPage.bind fun _ => internal_do trivial fun heap' => ?_
      split
      · exact ih
      · trivial

theorem internal_forM (pages : List ℕ) : Internal (pages.forM (RemoteHeap.flushPage l)) := by
  induction pages with
  | nil => trivial
  | cons page pages ih => exact internal_flushPage.bind fun _ => ih

theorem internal_locked {body : HeapM α} (h : Internal body) :
    Internal (RemoteHeap.locked body) := by
  refine internal_do trivial fun _ => Confined.bind (h.tryCatch fun e => ?_) fun a => ?_
  · exact internal_do trivial fun _ => trivial
  · exact internal_do trivial fun _ => trivial

theorem internal_flush : Internal (RemoteHeap.flush l) :=
  internal_locked (internal_do trivial fun _ => internal_forM _)

theorem internal_flushAndEvictAll : Internal (RemoteHeap.flushAndEvictAll l) :=
  internal_locked (internal_do trivial fun _ => internal_evictAll _)

theorem internal_handleFault {rounds addr : ℕ} {isWrite : Bool} :
    Internal (RemoteHeap.handleFault l rounds addr isWrite) := by
  unfold RemoteHeap.handleFault
  split
  · trivial
  · refine internal_do trivial fun answer => ?_
    cases answer with
    | error e => trivial
    | ok bytes =>
      dsimp only
      split
      · trivial
      · exact internal_locked (internal_do trivial fun _ => internal_modify.bind fun _ =>
          (internal_enforceBudget rounds).bind fun _ => trivial)

end Internal

def HeapOp.Idle : HeapOp → Prop
  | .store .. => False
  | _ => True

abbrev Passive {α : Type} (p : HeapM α) : Prop := Confined HeapOp.Idle (fun _ => True) p

theorem passive_of_internal {α : Type} {p : HeapM α} (hp : Internal p) : Passive p := by
  refine hp.mono (fun o ho => ?_) fun _ => id
  cases o <;> trivial

theorem passive_serviceFault {rounds addr : ℕ} {isWrite : Bool} :
    Passive (RemoteHeap.serviceFault l rounds addr isWrite) := by
  refine (passive_of_internal internal_handleFault).bind fun resolved => ?_
  cases resolved with
  | true => trivial
  | false =>
    refine ⟨trivial, fun again => ?_⟩
    cases again <;> trivial

abbrev OnFlat (l : HeapLayout) {α : Type} (p : HeapM α)
    (Q : Outcome HeapErr α → Mark × List Byte → Prop) (x : Mark × List Byte) : Prop :=
  wp (flatEnv l) (fun o x => x.1.InOrder l o) p Q x

section Programs

variable {α γ : Type}

theorem onFlat_do {o : HeapOp} {f : o.Res → HeapM α}
    {Q : Outcome HeapErr α → Mark × List Byte → Prop} {x : Mark × List Byte}
    (ho : x.1.InOrder l o)
    (hf : ∀ r, Agrees l x.2 o r → OnFlat l (f r) Q (x.1.next l o r, stored l x.2 o r)) :
    OnFlat l (heapDo o >>= f) Q x := by
  refine ⟨ho, ?_⟩
  rintro r ⟨_, _⟩ ⟨rfl, rfl, ha⟩
  exact hf r ha

/-- The thread is out of the heap again, if the program has ended. -/
def Left (P : Outcome HeapErr α → List Byte → Prop) (out : Outcome HeapErr α)
    (x : Mark × List Byte) : Prop :=
  (∀ e, out ≠ .aborted e) → x.1 = .free ∧ P out x.2

theorem onFlat_bind {p : HeapM α} {f : α → HeapM γ} {x : Mark × List Byte}
    {P : Outcome HeapErr α → List Byte → Prop} {P' : Outcome HeapErr γ → List Byte → Prop}
    (hp : OnFlat l p (Left P) x)
    (hok : ∀ a flat, P (.ok a) flat → OnFlat l (f a) (Left P') (.free, flat))
    (hthrew : ∀ e flat, P (.threw e) flat → P' (.threw e) flat) :
    OnFlat l (p >>= f) (Left P') x := by
  refine wp_bind.mpr (wp_mono hp ?_)
  rintro (a | e | y) ⟨m, flat⟩ hq
  · obtain ⟨rfl, hP⟩ := hq nofun
    exact hok a flat hP
  · obtain ⟨rfl, hP⟩ := hq nofun
    exact fun _ => ⟨rfl, hthrew e flat hP⟩
  · exact fun h => absurd rfl (h y)

theorem onFlat_passive {p : HeapM α} {m : Mark} (hp : Passive p)
    (h : Paced l p m (Returned (· = .free))) :
    OnFlat l p (Left fun _ flat' => flat' = flat) (m, flat) := by
  refine wp_mono (hp.wp_frame ?_ h) ?_
  · rintro o m r ⟨m', flat'⟩ ho ⟨hm, hs, -⟩
    refine ⟨hm, hs.trans ?_⟩
    cases o with
    | store page off v => exact ho.elim
    | _ => rfl
  · rintro (a | e | y) ⟨m', flat'⟩ ⟨hm, rfl⟩ hend
    · exact ⟨hm, rfl⟩
    · exact ⟨hm, rfl⟩
    · exact absurd rfl (hend y)

theorem onFlat_fault {rounds addr : ℕ} {isWrite : Bool} :
    OnFlat l (RemoteHeap.serviceFault l rounds addr isWrite) (Left fun _ flat' => flat' = flat)
      (RemoteHeap.faultMark l addr, flat) :=
  onFlat_passive passive_serviceFault RemoteHeap.paced_serviceFault

theorem HeapLayout.offset_add_mod (l : HeapLayout) (addr : ℕ) :
    l.offset (addr / l.pageBytes) + addr % l.pageBytes = addr := Nat.div_add_mod' ..

theorem onFlat_load (rounds addr : ℕ) :
    OnFlat l (RemoteHeap.load l rounds addr)
      (Left fun out flat' => flat' = flat ∧ ∀ b, out = .ok b → flat[addr]? = some b)
      (.free, flat) := by
  induction rounds with
  | zero => exact fun h => absurd rfl (h _)
  | succ rounds ih =>
    refine onFlat_do ⟨rfl, Nat.mod_lt _ l.pageBytes_pos⟩ fun answer ha => ?_
    cases answer with
    | some b =>
      have hb := ha b rfl
      rw [l.offset_add_mod] at hb
      refine fun _ => ⟨rfl, rfl, ?_⟩
      rintro _ ⟨⟩
      exact hb
    | none =>
      simp only [Mark.next, true_and, stored]
      apply onFlat_bind onFlat_fault
      · rintro _ _ rfl
        exact ih
      · intro e flat' h
        refine ⟨h, ?_⟩
        rintro b ⟨⟩

theorem onFlat_store (rounds addr : ℕ) (v : Byte) :
    OnFlat l (RemoteHeap.store l rounds addr v)
      (Left fun out flat' => match out with
        | .ok _ => addr < flat.length ∧ flat' = splice flat addr [v]
        | _ => flat' = flat)
      (.free, flat) := by
  induction rounds with
  | zero => exact fun h => absurd rfl (h _)
  | succ rounds ih =>
    refine onFlat_do ⟨rfl, Nat.mod_lt _ l.pageBytes_pos⟩ fun answer ha => ?_
    cases answer with
    | true =>
      have hlt := ha rfl
      rw [l.offset_add_mod] at hlt
      refine fun _ => ⟨rfl, hlt, ?_⟩
      simp only [stored, if_true, l.offset_add_mod]
    | false =>
      simp only [Mark.next, true_and, stored]
      refine onFlat_bind onFlat_fault ?_ fun e flat' h => h
      rintro _ _ rfl
      exact ih

end Programs

def memoryOf (flat : List Byte) (addr : ℕ) : Byte := flat.getD addr 0

theorem memoryOf_splice {addr : ℕ} {v : Byte} (h : addr < flat.length) :
    memoryOf (splice flat addr [v]) = Function.update (memoryOf flat) addr v := by
  ext1 a
  have hle : addr + [v].length ≤ flat.length := h
  rw [memoryOf, List.getD_eq_getElem?_getD, getElem?_splice hle]
  by_cases ha : a = addr
  · subst ha
    simp
  · rw [if_neg (by simp; omega), Function.update_of_ne ha, memoryOf, List.getD_eq_getElem?_getD]

theorem HeapCall.onFlat_exec (c : HeapCall) (rounds : ℕ) :
    OnFlat l (c.exec l rounds)
      (Left fun out flat' => FlatStep (memoryOf flat) c out (memoryOf flat')) (.free, flat) := by
  cases c with
  | load addr =>
    refine onFlat_bind (onFlat_load rounds addr) ?_ ?_
    · rintro b _ ⟨rfl, hb⟩ _
      refine ⟨rfl, rfl, ?_⟩
      rintro _ ⟨⟩
      rw [memoryOf, List.getD_eq_getElem?_getD, hb b rfl]
      rfl
    · rintro e _ ⟨rfl, -⟩
      exact ⟨rfl, nofun⟩
  | store addr v =>
    refine onFlat_bind (onFlat_store rounds addr v) ?_ ?_
    · rintro _ _ ⟨hlt, rfl⟩ _
      exact ⟨rfl, memoryOf_splice hlt⟩
    · rintro e _ rfl
      exact rfl
  | flush =>
    refine onFlat_bind
      (onFlat_passive (passive_of_internal internal_flush) RemoteHeap.paced_flush) ?_ ?_
    · rintro _ _ rfl _
      exact ⟨rfl, rfl⟩
    · rintro e _ rfl
      exact rfl
  | flushAndEvictAll =>
    refine onFlat_bind (onFlat_passive (passive_of_internal internal_flushAndEvictAll)
      RemoteHeap.paced_flushAndEvictAll) ?_ ?_
    · rintro _ _ rfl _
      exact ⟨rfl, rfl⟩
    · rintro e _ rfl
      exact rfl

/-! ## Runs -/

def HeapWorld.start (l : HeapLayout) (b : β) : HeapWorld β :=
  { backend := b, block := List.replicate l.capacity 0 }

theorem stands_start {b : β} (hb : ∀ page, B.contents b page = none) :
    Stands B l (.start l b) (.free, List.replicate l.capacity 0) where
  pages :=
    { block_length := List.length_replicate
      flat_length := List.length_replicate
      inside := fun page h => absurd (hb page) h
      present := fun page _ h => nomatch (hb page).symm.trans h
      remote := fun _ => .inl rfl }
  claim _ := trivial
  orderly := ⟨fun _ => False.elim, fun _ _ => False.elim, fun _ _ _ => False.elim⟩

theorem Stands.call (hB : B.Contract) {w w' : HeapWorld β} {c : HeapCall}
    {out : Outcome HeapErr HeapValue} (h : Stands B l w (.free, flat))
    (hc : c.Completes B l w out w') :
    ∃ flat', Stands B l w' (.free, flat') ∧ FlatStep (memoryOf flat) c out (memoryOf flat') := by
  obtain ⟨hend, rounds, hrun⟩ := hc
  obtain ⟨⟨m, flat'⟩, hstands, hleft⟩ := hrun.simulate
    (fun o w x r w' hx ho henv => hx.step hB ho henv) h (c.onFlat_exec rounds)
  obtain ⟨rfl, hstep⟩ := hleft hend
  exact ⟨flat', hstands, hstep⟩

theorem Stands.run (hB : B.Contract) {w w' : HeapWorld β}
    {tr : List (HeapCall × Outcome HeapErr HeapValue)} (h : Stands B l w (.free, flat))
    (htr : Allowed (HeapCall.Completes B l) w tr w') :
    ∃ memory, Allowed FlatStep (memoryOf flat) tr memory := by
  induction htr generalizing flat with
  | nil w => exact ⟨_, .nil _⟩
  | cons hc _ ih =>
    obtain ⟨flat', hw', hstep⟩ := h.call hB hc
    obtain ⟨memory, hrest⟩ := ih hw'
    exact ⟨memory, .cons hstep hrest⟩

theorem memoryOf_zeros (n : ℕ) : memoryOf (List.replicate n 0) = fun _ => 0 := by
  ext1 a
  rw [memoryOf, List.getD_eq_getElem?_getD, List.getElem?_replicate]
  split <;> rfl

def winHandler (osPage : ℕ) :
    (o : HeapOp) → HeapWorld WinRegion → o.Res × HeapWorld WinRegion
  | .load page off, w => ((w.backend page).bind fun p => p.bytes[off]?, w)
  | .store page off v, w =>
    if (w.backend page).any fun p => off < p.bytes.length then
      (true, { w with backend := w.backend.store osPage page off v })
    else (false, w)
  | .read offset length, w => (.ok (slice w.block offset length), w)
  | .write offset data, w => (none, { w with block := splice w.block offset data })
  | .resolveFault page data isWrite, w =>
    (true, { w with backend := w.backend.resolveFault osPage page data isWrite })
  | .isDirty page, w => ((winBackend osPage).isDirty w.backend page, w)
  | .copy page, w => (((winBackend osPage).contents w.backend page).getD [], w)
  | .clearDirty page, w => ((), { w with backend := w.backend.clearDirty page })
  | .evictPages page, w => (true, { w with backend := w.backend.evictPages page })
  | .unresolved _, w => (false, w)
  | .lock, w => ((), { w with isLocked := true })
  | .unlock, w => ((), { w with isLocked := false })
  | .heap, w => (w.heap, w)
  | .setHeap heap, w => ((), { w with heap := heap })

/-- A lock that is free is taken, and a page that is present is copied. -/
def winGood : HeapOp → HeapWorld WinRegion → Bool
  | .copy page, w => (w.backend page).isSome
  | .lock, w => !w.isLocked
  | _, _ => true

theorem winHandler_allowed (osPage : ℕ) (o : HeapOp) (w : HeapWorld WinRegion)
    (hgood : winGood o w) :
    heapEnv (winBackend osPage) o w (winHandler osPage o w).1 (winHandler osPage o w).2 := by
  cases o with
  | load page off =>
    cases hp : w.backend page <;> simp [heapEnv, winHandler, winBackend, hp]
  | store page off v =>
    cases hp : w.backend page with
    | none => simp [heapEnv, winHandler, winBackend, hp]
    | some p =>
      by_cases hoff : off < p.bytes.length <;> simp [heapEnv, winHandler, winBackend, hp, hoff]
  | read offset length =>
    refine ⟨rfl, ?_⟩
    rintro bytes ⟨⟩
    rfl
  | write offset data => exact ⟨data, rfl, fun _ => rfl, rfl⟩
  | resolveFault page data isWrite => exact ⟨_, ⟨isWrite, id, rfl⟩, rfl⟩
  | isDirty page => exact ⟨rfl, rfl⟩
  | copy page =>
    obtain ⟨p, hp⟩ := Option.isSome_iff_exists.mp hgood
    refine ⟨?_, w.backend, rfl, rfl⟩
    simp [winHandler, winBackend, hp]
  | clearDirty page => exact ⟨_, .inr rfl, rfl⟩
  | evictPages page => exact ⟨_, rfl, rfl⟩
  | unresolved addr => exact ⟨rfl, rfl⟩
  | lock => exact ⟨by simpa [winGood] using hgood, rfl⟩
  | unlock => exact rfl
  | heap => exact ⟨rfl, rfl⟩
  | setHeap heap => exact rfl

/-- One thread that loads, stores, flushes and evicts sees a flat memory of zeros. Fetches,
write-backs and evictions may fail at any time. -/
theorem remote_heap_flat (hB : B.Contract) {b : β} (hb : ∀ page, B.contents b page = none)
    {tr : List (HeapCall × Outcome HeapErr HeapValue)} {w : HeapWorld β}
    (h : Allowed (HeapCall.Completes B l) (.start l b) tr w) :
    ∃ memory, Allowed FlatStep (fun _ => 0) tr memory := by
  have hrun := (stands_start hb).run hB h
  rwa [memoryOf_zeros] at hrun

theorem completes_win {c : HeapCall} {l : HeapLayout} {w : HeapWorld WinRegion} (rounds : ℕ)
    (hchecks : (c.exec l rounds).checks (winHandler 1) winGood w)
    (hend : ∀ x, ((c.exec l rounds).eval (winHandler 1) w).1 ≠ .aborted x) :
    c.Completes (winBackend 1) l w ((c.exec l rounds).eval (winHandler 1) w).1
      ((c.exec l rounds).eval (winHandler 1) w).2 :=
  ⟨hend, rounds, Prog.runs_of_checks (winHandler_allowed 1) _ hchecks⟩

/-- A store to one page, a load from the other, which evicts the first, and a load of what was
stored. -/
theorem remote_heap_flat_two_pages :
    ∃ w memory,
      Allowed (HeapCall.Completes (winBackend 1) smallLayout)
        (.start smallLayout WinRegion.reserveRegion)
        [(.store 1 7, .ok .done), (.load 2, .ok (.byte 0)), (.load 1, .ok (.byte 7))] w ∧
      Allowed FlatStep (fun _ => 0)
        [(.store 1 7, .ok .done), (.load 2, .ok (.byte 0)), (.load 1, .ok (.byte 7))] memory := by
  have h : Allowed (HeapCall.Completes (winBackend 1) smallLayout)
      (.start smallLayout WinRegion.reserveRegion)
      [(.store 1 7, .ok .done), (.load 2, .ok (.byte 0)), (.load 1, .ok (.byte 7))] _ :=
    .cons (completes_win 5 (by decide +kernel) nofun)
      (.cons (completes_win 5 (by decide +kernel) nofun)
        (.cons (completes_win 5 (by decide +kernel) nofun) (.nil _)))
  obtain ⟨memory, hm⟩ := remote_heap_flat (winBackend_contract 1) (fun _ => rfl) h
  exact ⟨_, memory, h, hm⟩

end MemInfo
