import MemInfo.Lib.Prog
import MemInfo.Memoryd.Refinement

/-! # The critical sections of the page tracker

A call of the page tracker is a sequence of critical sections, some under `mutex_` and some of
the slab allocator. `read` and `write` copy the page list under `mutex_`, and then go through
the pages one by one. A call that is not interrupted does what the sequential model says.
-/

namespace MemInfo

open Lib Prog

inductive CriticalSection where
  /-- The section of `read` and `write`. -/
  | find (handle ownerId : ℕ)
  | allocatePages (count : ℕ)
  /-- The section of `allocate`. -/
  | record (size : ℕ) (pages : List ℕ)
  /-- The section of `free`, with its call of `free_pages`. -/
  | free (handle ownerId : ℕ)
  | writePage (pageIdx pageOffset : ℕ) (data : List Byte)
  | readPage (pageIdx pageOffset size : ℕ)
  | assignOwner (handle ownerId : ℕ)
  | freeAllForOwner (ord : IterOrder ℕ) (ownerId : ℕ)

abbrev CriticalSection.Res : CriticalSection → Type
  | .find _ _ => Except Err Allocation
  | .allocatePages _ => Except Err (List ℕ)
  | .record _ _ => ℕ
  | .free _ _ => Except Err Unit
  | .writePage _ _ _ => Except Err Unit
  | .readPage _ _ _ => Except Err (List Byte)
  | .assignOwner _ _ => Unit
  | .freeAllForOwner _ _ => Unit

def PageTracker.enter (t : PageTracker) : (o : CriticalSection) → o.Res × PageTracker
  | .find handle ownerId => (t.checkOwnership handle ownerId, t)
  | .allocatePages count =>
    let r := t.allocator.allocatePages count
    (r.1, { t with allocator := r.2 })
  | .record size pages => (t.nextHandle, t.record size pages)
  | .free handle ownerId => t.free handle ownerId
  | .writePage pageIdx pageOffset data =>
    let r := t.allocator.writePage pageIdx pageOffset data
    (r.1, { t with allocator := r.2 })
  | .readPage pageIdx pageOffset size => (t.allocator.readPage pageIdx pageOffset size, t)
  | .assignOwner handle ownerId => ((), t.assignOwner handle ownerId)
  | .freeAllForOwner ord ownerId => ((), t.freeAllForOwner ord ownerId)

abbrev TrackerM := Prog CriticalSection CriticalSection.Res Err

namespace TrackerM

def enter (o : CriticalSection) : TrackerM o.Res := perform o

def leave {α : Type} : Except Err α → TrackerM α
  | .ok a => Pure.pure a
  | .error e => MonadExcept.throw e

def allocate (pageSize size : ℕ) : TrackerM ℕ :=
  if size = 0 then Pure.pure 0
  else if size > sizeMax - (pageSize - 1) then MonadExcept.throw .badAlloc
  else do
    let allocatedPages ← leave (← enter (.allocatePages (wrap (size + pageSize - 1) / pageSize)))
    enter (.record size allocatedPages)

def free (handle ownerId : ℕ) : TrackerM Unit := do
  leave (← enter (.free handle ownerId))

/-- The copying loop of `write`. -/
def writePages (pageSize : ℕ) (pages : List ℕ) (offset : ℕ) (data : List Byte) :
    ℕ → ℕ → TrackerM Unit
  | 0, _ => Pure.pure ()
  | fuel + 1, dataIdx =>
    if dataIdx < data.length then
      let logicalPos := wrap (offset + dataIdx)
      let pageIdx := logicalPos / pageSize
      let offsetInPage := logicalPos % pageSize
      let bytesToWrite := min (data.length - dataIdx) (pageSize - offsetInPage)
      match pages[pageIdx]? with
      | none => .abort .undefined
      | some p => do
        leave (← enter (.writePage p offsetInPage (slice data dataIdx bytesToWrite)))
        writePages pageSize pages offset data fuel (dataIdx + bytesToWrite)
    else Pure.pure ()

def write (pageSize handle offset : ℕ) (data : List Byte) (ownerId : ℕ) : TrackerM Unit :=
  if data.length = 0 then Pure.pure ()
  else do
    let a ← leave (← enter (.find handle ownerId))
    if offset > a.totalSize ∨ data.length > a.totalSize - offset then
      MonadExcept.throw (.outOfRange "Write exceeds allocation size")
    else writePages pageSize a.pages offset data data.length 0

/-- The copying loop of `read`, with the bytes copied so far. -/
def readPages (pageSize : ℕ) (pages : List ℕ) (offset size : ℕ) :
    ℕ → List Byte → TrackerM (List Byte)
  | 0, out => Pure.pure out
  | fuel + 1, out =>
    if out.length < size then
      let logicalPos := wrap (offset + out.length)
      let pageIdx := logicalPos / pageSize
      let offsetInPage := logicalPos % pageSize
      let bytesToRead := min (size - out.length) (pageSize - offsetInPage)
      match pages[pageIdx]? with
      | none => .abort .undefined
      | some p => do
        let bytes ← leave (← enter (.readPage p offsetInPage bytesToRead))
        readPages pageSize pages offset size fuel (out ++ bytes)
    else Pure.pure out

def read (pageSize handle offset size ownerId : ℕ) : TrackerM (List Byte) :=
  if size = 0 then Pure.pure []
  else do
    let a ← leave (← enter (.find handle ownerId))
    if offset > a.totalSize ∨ size > a.totalSize - offset then
      MonadExcept.throw (.outOfRange "Read exceeds allocation size")
    else readPages pageSize a.pages offset size size []

end TrackerM

/-- A call as a sequence of critical sections. `page_size_` never changes. -/
def Op.exec (pageSize : ℕ) : Op → TrackerM Reply
  | .allocate size => do
    let h ← TrackerM.allocate pageSize size
    Pure.pure (.handle h)
  | .assignOwner handle ownerId => do
    let _ ← TrackerM.enter (.assignOwner handle ownerId)
    Pure.pure .done
  | .write handle offset data ownerId => do
    TrackerM.write pageSize handle offset data ownerId
    Pure.pure .done
  | .read handle offset size ownerId => do
    let data ← TrackerM.read pageSize handle offset size ownerId
    Pure.pure (.bytes data)
  | .free handle ownerId => do
    TrackerM.free handle ownerId
    Pure.pure .done
  | .freeAllForOwner ord ownerId => do
    let _ ← TrackerM.enter (.freeAllForOwner ord ownerId)
    Pure.pure .done

section Alone

variable {α β : Type} {t : PageTracker}

def outcomeOf : Except Err α → Outcome Err α
  | .ok a => .ok a
  | .error .undefinedBehaviour => .aborted .undefined
  | .error e => .threw e

def Reply.outcome : Reply → Outcome Err Reply
  | .threw .undefinedBehaviour => .aborted .undefined
  | .threw e => .threw e
  | r => .ok r

def Reply.ofExcept (f : α → Reply) : Except Err α → Reply
  | .ok a => f a
  | .error e => .threw e

abbrev alone (p : TrackerM α) (t : PageTracker) : Outcome Err α × PageTracker :=
  eval (fun o t => t.enter o) p t

def Defined : Except Err α → Prop
  | .ok _ => True
  | .error e => e ≠ .undefinedBehaviour

theorem outcomeOf_error {e : Err} (he : e ≠ .undefinedBehaviour) :
    (outcomeOf (.error e) : Outcome Err α) = .threw e := by
  cases e with
  | undefinedBehaviour => exact absurd rfl he
  | _ => rfl

theorem defined_allocatePages (s : SlabAllocator) (count : ℕ) :
    Defined (s.allocatePages count).1 := by
  unfold SlabAllocator.allocatePages
  split_ifs
  · exact nofun
  · trivial

theorem defined_writePage (s : SlabAllocator) (p off : ℕ) (data : List Byte) :
    Defined (s.writePage p off data).1 ∧
      (s.writePage p off data).2.pageSize = s.pageSize := by
  unfold SlabAllocator.writePage
  split_ifs
  · exact ⟨nofun, rfl⟩
  · exact ⟨nofun, rfl⟩
  · exact ⟨trivial, rfl⟩

theorem defined_readPage (s : SlabAllocator) (p off n : ℕ) : Defined (s.readPage p off n) := by
  unfold SlabAllocator.readPage
  split_ifs
  · exact nofun
  · exact nofun
  · trivial

theorem defined_checkOwnership (t : PageTracker) (h o : ℕ) : Defined (t.checkOwnership h o) := by
  unfold PageTracker.checkOwnership
  cases t.allocations.lookup h with
  | none => exact nofun
  | some a =>
    dsimp only
    split_ifs
    · exact nofun
    · trivial

theorem alone_writePages (pages : List ℕ) (offset : ℕ) (data : List Byte) (fuel idx : ℕ) :
    alone (TrackerM.writePages t.allocator.pageSize pages offset data fuel idx) t =
      (outcomeOf (PageTracker.writeLoop pages offset data fuel idx t.allocator).1,
        { t with
          allocator := (PageTracker.writeLoop pages offset data fuel idx t.allocator).2 }) := by
  induction fuel generalizing t idx with
  | zero => rfl
  | succ fuel ih =>
    unfold TrackerM.writePages PageTracker.writeLoop
    split_ifs
    swap
    · rfl
    dsimp only
    cases pages[wrap (offset + idx) / t.allocator.pageSize]? with
    | none => rfl
    | some p =>
      dsimp only
      generalize wrap (offset + idx) % t.allocator.pageSize = off
      generalize min (data.length - idx) (t.allocator.pageSize - off) = n
      obtain ⟨hdef, hsize⟩ := defined_writePage t.allocator p off (slice data idx n)
      rw [TrackerM.enter, alone, eval_perform_bind]
      simp only [PageTracker.enter]
      rcases hw : t.allocator.writePage p off (slice data idx n) with ⟨e | u, s⟩
      · rw [hw] at hdef
        rw [outcomeOf_error hdef]
        rfl
      · rw [hw] at hsize
        have ih := ih (t := { t with allocator := s }) (idx + n)
        dsimp only at ih hsize
        rw [hsize] at ih
        exact ih

theorem alone_readPages (pages : List ℕ) (offset size fuel : ℕ) (out : List Byte) :
    alone (TrackerM.readPages t.allocator.pageSize pages offset size fuel out) t =
      (outcomeOf (PageTracker.readLoop t.allocator pages offset size fuel out), t) := by
  induction fuel generalizing out with
  | zero => rfl
  | succ fuel ih =>
    unfold TrackerM.readPages PageTracker.readLoop
    split_ifs
    swap
    · rfl
    dsimp only
    cases pages[wrap (offset + out.length) / t.allocator.pageSize]? with
    | none => rfl
    | some p =>
      dsimp only
      generalize wrap (offset + out.length) % t.allocator.pageSize = off
      generalize min (size - out.length) (t.allocator.pageSize - off) = n
      have hdef := defined_readPage t.allocator p off n
      rw [TrackerM.enter, alone, eval_perform_bind]
      simp only [PageTracker.enter]
      rcases hr : t.allocator.readPage p off n with e | bytes
      · rw [hr] at hdef
        rw [outcomeOf_error hdef]
        rfl
      · exact ih _

theorem alone_allocate (size : ℕ) :
    alone (TrackerM.allocate t.allocator.pageSize size) t =
      (outcomeOf (t.allocate size).1, (t.allocate size).2) := by
  unfold TrackerM.allocate PageTracker.allocate
  dsimp only
  split_ifs
  · rfl
  · rfl
  · have hdef := defined_allocatePages t.allocator
      (wrap (size + t.allocator.pageSize - 1) / t.allocator.pageSize)
    rw [TrackerM.enter, alone, eval_perform_bind]
    simp only [PageTracker.enter]
    rcases ha : t.allocator.allocatePages
      (wrap (size + t.allocator.pageSize - 1) / t.allocator.pageSize) with ⟨e | pages, s⟩
    · rw [ha] at hdef
      rw [outcomeOf_error hdef]
      rfl
    · rfl

section Find

variable {handle ownerId : ℕ} (k : Allocation → TrackerM α)

theorem alone_find_error {e : Err} (h : t.checkOwnership handle ownerId = .error e) :
    alone (TrackerM.enter (.find handle ownerId) >>= fun r => TrackerM.leave r >>= k) t =
      (outcomeOf (.error e), t) := by
  have hdef := defined_checkOwnership t handle ownerId
  rw [h] at hdef
  rw [outcomeOf_error hdef, TrackerM.enter, alone, eval_perform_bind]
  simp only [PageTracker.enter, h]
  rfl

theorem alone_find_ok {a : Allocation} (h : t.checkOwnership handle ownerId = .ok a) :
    alone (TrackerM.enter (.find handle ownerId) >>= fun r => TrackerM.leave r >>= k) t =
      alone (k a) t := by
  rw [TrackerM.enter, alone, eval_perform_bind]
  simp only [PageTracker.enter, h]
  rfl

end Find

theorem alone_write (handle offset : ℕ) (data : List Byte) (ownerId : ℕ) :
    alone (TrackerM.write t.allocator.pageSize handle offset data ownerId) t =
      (outcomeOf (t.write handle offset data ownerId).1,
        (t.write handle offset data ownerId).2) := by
  unfold TrackerM.write PageTracker.write
  split_ifs
  · rfl
  · rcases hc : t.checkOwnership handle ownerId with e | a
    · exact alone_find_error _ hc
    · rw [alone_find_ok _ hc]
      dsimp only
      split_ifs
      · rfl
      · exact alone_writePages ..

theorem alone_read (handle offset size ownerId : ℕ) :
    alone (TrackerM.read t.allocator.pageSize handle offset size ownerId) t =
      (outcomeOf (t.read handle offset size ownerId), t) := by
  unfold TrackerM.read PageTracker.read
  split_ifs
  · rfl
  · rcases hc : t.checkOwnership handle ownerId with e | a
    · exact alone_find_error _ hc
    · rw [alone_find_ok _ hc]
      dsimp only
      split_ifs
      · rfl
      · exact alone_readPages ..

theorem alone_free (handle ownerId : ℕ) :
    alone (TrackerM.free handle ownerId) t =
      (outcomeOf (t.free handle ownerId).1, (t.free handle ownerId).2) := by
  have hdef := defined_checkOwnership t handle ownerId
  unfold TrackerM.free PageTracker.free
  rw [TrackerM.enter, alone, eval_perform_bind]
  simp only [PageTracker.enter, PageTracker.free]
  rcases hc : t.checkOwnership handle ownerId with e | a
  · rw [hc] at hdef
    rw [outcomeOf_error hdef]
    rfl
  · rfl

theorem alone_bind_reply {p : TrackerM α} {r : Except Err α} {t' : PageTracker} {f : α → Reply}
    (hp : alone p t = (outcomeOf r, t')) (hf : ∀ a, (f a).outcome = .ok (f a)) :
    alone (p >>= fun a => Pure.pure (f a)) t = ((Reply.ofExcept f r).outcome, t') := by
  unfold alone at hp ⊢
  rw [eval_bind, hp]
  cases r with
  | ok a =>
    rw [Reply.ofExcept, hf]
    rfl
  | error e => cases e <;> rfl

/-- A call that is not interrupted does what the sequential model says. -/
theorem alone_exec (op : Op) :
    alone (op.exec t.allocator.pageSize) t = ((t.step op).1.outcome, (t.step op).2) := by
  cases op with
  | allocate size =>
    rw [Op.exec, alone_bind_reply (alone_allocate size) fun _ => rfl, PageTracker.step]
    rcases t.allocate size with ⟨e | h, t'⟩ <;> rfl
  | assignOwner handle ownerId => rfl
  | write handle offset data ownerId =>
    rw [Op.exec, alone_bind_reply (alone_write handle offset data ownerId) fun _ => rfl,
      PageTracker.step]
    rcases t.write handle offset data ownerId with ⟨e | u, t'⟩ <;> rfl
  | read handle offset size ownerId =>
    rw [Op.exec, alone_bind_reply (alone_read handle offset size ownerId) fun _ => rfl,
      PageTracker.step]
    rcases t.read handle offset size ownerId with e | data <;> rfl
  | free handle ownerId =>
    rw [Op.exec, alone_bind_reply (alone_free handle ownerId) fun _ => rfl, PageTracker.step]
    rcases t.free handle ownerId with ⟨e | u, t'⟩ <;> rfl
  | freeAllForOwner ord ownerId => rfl

end Alone

end MemInfo
