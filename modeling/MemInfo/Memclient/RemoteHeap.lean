import MemInfo.Lib.Dict
import MemInfo.Lib.Prog
import MemInfo.Platform.PageFaultBackend

/-! # The remote heap

A region of memory whose pages live on a peer and are fetched when they are touched. When more
bytes are resident than the budget allows, the oldest pages are written back and evicted. The
accesses of the application, the calls on the backend and on the client, and the lock of the
heap are effects.
-/

namespace MemInfo

open Lib

structure RemoteHeapConfig where
  capacityBytes : ℕ
  localBudgetBytes : ℕ
  pageBytes : ℕ := 64 * 1024
  deriving Repr

/-- The sizes that the constructor computes. The heap is made of whole pages, and the budget
has room for one. -/
structure HeapLayout where
  pageBytes : ℕ
  capacity : ℕ
  localBudgetBytes : ℕ
  pageBytes_pos : 0 < pageBytes
  capacity_lt : capacity < 2 ^ 64
  whole : pageBytes ∣ capacity
  pageBytes_le_budget : pageBytes ≤ localBudgetBytes
  deriving DecidableEq, Repr

def smallLayout : HeapLayout where
  pageBytes := 2
  capacity := 4
  localBudgetBytes := 2
  pageBytes_pos := by decide
  capacity_lt := by decide
  whole := by decide
  pageBytes_le_budget := by decide

/-- The arithmetic and the checks of the constructor, for the OS page size of the backend and
the `max_local_bytes` of the client. A page size that wraps to zero is divided by. -/
def RemoteHeapConfig.layout (config : RemoteHeapConfig) (osPage maxLocalBytes : ℕ) :
    Except Err HeapLayout :=
  if config.capacityBytes = 0 then
    .error (.runtimeError "RemoteHeap: capacity_bytes must be non-zero")
  else
    let pageBytes := roundUp (max config.pageBytes osPage) osPage
    if hpos : 0 < pageBytes then
      let capacity := roundUp config.capacityBytes pageBytes
      if capacity ≤ maxLocalBytes then
        .error (.runtimeError (
          "RemoteHeap: capacity (" ++ toString capacity ++
          " bytes) does not exceed the client's local cache (" ++ toString maxLocalBytes ++
          " bytes), so the backing block would stay in local memory"))
      else
        .ok
          { pageBytes
            capacity
            localBudgetBytes := max (roundUp config.localBudgetBytes pageBytes) pageBytes
            pageBytes_pos := hpos
            capacity_lt := roundUp_lt ..
            whole := Nat.dvd_mul_left ..
            pageBytes_le_budget := Nat.le_max_right .. }
    else .error .undefinedBehaviour

structure HeapStats where
  residentBytes : ℕ := 0
  fetches : ℕ := 0
  flushes : ℕ := 0
  evictions : ℕ := 0
  deriving DecidableEq, Repr

/-- A node of `resident_order_`. Its identity is what an iterator is. -/
structure PageNode where
  id : ℕ
  page : ℕ
  deriving DecidableEq, Repr

/-- What `heap_mutex_` guards. The resident pages are listed oldest first, and `resident_` maps
them to their nodes. -/
structure RemoteHeap where
  residentOrder : List PageNode := []
  resident : Dict ℕ ℕ := ∅
  stats : HeapStats := {}
  -- the identity of the next node
  nextId : ℕ := 0

/-- An access fails with a violation if its fault is not resolved. The rest are exceptions of
the client. -/
inductive HeapErr where
  | accessViolation
  | exception (e : Err)
  deriving DecidableEq, Repr

inductive HeapOp where
  /-- An access of the application to a byte of a page. It faults if the page is absent. -/
  | load (page off : ℕ)
  | store (page off : ℕ) (v : Byte)
  /-- `client_.read` and `client_.write` on the backing block. -/
  | read (offset length : ℕ)
  | write (offset : ℕ) (data : List Byte)
  | resolveFault (page : ℕ) (data : List Byte) (isWrite : Bool)
  | isDirty (page : ℕ)
  /-- The bytes of a page, copied by the heap itself. -/
  | copy (page : ℕ)
  | clearDirty (page : ℕ)
  | evictPages (page : ℕ)
  /-- The backend deals with a fault that its handler has not resolved. The answer is whether
  the access is executed again. -/
  | unresolved (addr : ℕ)
  | lock
  | unlock
  | heap
  | setHeap (heap : RemoteHeap)

@[reducible] def HeapOp.Res : HeapOp → Type
  | .load .. => Option Byte
  | .store .. => Bool
  | .read .. => Except Err (List Byte)
  | .write .. => Option Err
  | .resolveFault .. => Bool
  | .isDirty .. => Bool
  | .copy .. => List Byte
  | .evictPages .. => Bool
  | .unresolved .. => Bool
  | .heap => RemoteHeap
  | _ => Unit

abbrev HeapM := Prog HeapOp HeapOp.Res HeapErr

abbrev heapDo (o : HeapOp) : HeapM o.Res := Prog.perform o

namespace HeapLayout

variable (l : HeapLayout)

def offset (page : ℕ) : ℕ := page * l.pageBytes

def length (page : ℕ) : ℕ := min l.pageBytes (l.capacity - l.offset page)

def pageOf (block : List Byte) (page : ℕ) : List Byte :=
  slice block (l.offset page) (l.length page)

variable {l} {page q : ℕ}

theorem offset_add_le (h : page < q) : l.offset page + l.pageBytes ≤ l.offset q := by
  rw [offset, offset, ← Nat.succ_mul]
  exact Nat.mul_le_mul_right _ h

theorem end_le_capacity (h : l.offset page < l.capacity) :
    l.offset page + l.pageBytes ≤ l.capacity := by
  obtain ⟨n, hn⟩ := l.whole
  rw [hn, Nat.mul_comm] at h ⊢
  exact offset_add_le (Nat.lt_of_mul_lt_mul_right h)

theorem length_eq (h : l.offset page < l.capacity) : l.length page = l.pageBytes :=
  Nat.min_eq_left (by have := end_le_capacity h; omega)

theorem length_le : l.length page ≤ l.pageBytes := Nat.min_le_left ..

theorem apart (h : q ≠ page) : l.offset page + l.length page ≤ l.offset q ∨
    l.offset q + l.length q ≤ l.offset page := by
  have h₁ : l.length page ≤ l.pageBytes := length_le
  have h₂ : l.length q ≤ l.pageBytes := length_le
  rcases Nat.lt_or_gt_of_ne h with h | h
  · have := offset_add_le (l := l) h
    omega
  · have := offset_add_le (l := l) h
    omega

end HeapLayout

namespace RemoteHeap

variable (l : HeapLayout)

/-- The pages of `resident_order_`. -/
def pages (heap : RemoteHeap) : List ℕ := heap.residentOrder.map PageNode.page

/-- `resident_order_.splice` of a node to the end. -/
def moveToBack (heap : RemoteHeap) (id : ℕ) : RemoteHeap :=
  { heap with
    residentOrder :=
      heap.residentOrder.filter (·.id ≠ id) ++ heap.residentOrder.filter (·.id = id) }

def fetched (heap : RemoteHeap) (page : ℕ) : RemoteHeap :=
  let heap :=
    if (heap.resident.lookup page).isNone then
      { residentOrder := heap.residentOrder ++ [⟨heap.nextId, page⟩]
        resident := heap.resident.insert page heap.nextId
        stats := { heap.stats with
          residentBytes := wrap (heap.stats.residentBytes + l.length page) }
        nextId := heap.nextId + 1 }
    else heap
  { heap with stats := { heap.stats with fetches := heap.stats.fetches + 1 } }

def evicted (heap : RemoteHeap) (id page : ℕ) : RemoteHeap :=
  { heap with
    residentOrder := heap.residentOrder.filter (·.id ≠ id)
    resident := heap.resident.erase page
    stats := { heap.stats with
      residentBytes := wrapSub heap.stats.residentBytes (l.length page)
      evictions := heap.stats.evictions + 1 } }

def modify (f : RemoteHeap → RemoteHeap) : HeapM Unit := do
  let heap ← heapDo .heap
  heapDo (.setHeap (f heap))

/-- `flush_page`. The page stays dirty if the client cannot write it. -/
def flushPage (page : ℕ) : HeapM Unit := do
  if ← heapDo (.isDirty page) then
    let bytes ← heapDo (.copy page)
    match ← heapDo (.write (l.offset page) bytes) with
    | some e => throw (.exception e)
    | none =>
      heapDo (.clearDirty page)
      modify fun heap => { heap with
        stats := { heap.stats with flushes := heap.stats.flushes + 1 } }

/-- `evict_page`. A page that cannot be written back or released is moved to the back. -/
def evictPage (page : ℕ) : HeapM Unit := do
  let heap ← heapDo .heap
  match heap.resident.lookup page with
  | none => return
  | some id =>
    let flushed ← tryCatch (do flushPage l page; return true) fun _ => return false
    if flushed then
      if ← heapDo (.evictPages page) then
        modify (evicted l · id page)
      else
        modify (moveToBack · id)
    else
      modify (moveToBack · id)

/-- `enforce_budget`. The loop has no bound of its own: `rounds` is how often it may go round
before the run counts as endless. -/
def enforceBudget : ℕ → HeapM Unit
  | 0 => .abort .diverges
  | rounds + 1 => do
    let heap ← heapDo .heap
    match heap.residentOrder with
    | node :: _ :: _ =>
      if l.localBudgetBytes < heap.stats.residentBytes then
        evictPage l node.page
        enforceBudget rounds
    | _ => return

/-- A block under the lock guard, which is released however the block ends. -/
def locked {α : Type} (body : HeapM α) : HeapM α := do
  heapDo .lock
  let a ← tryCatch body fun e => do
    heapDo .unlock
    throw e
  heapDo .unlock
  return a

/-- `handle_fault`; the answer is whether the fault was resolved. -/
def handleFault (rounds addr : ℕ) (isWrite : Bool) : HeapM Bool := do
  if l.capacity ≤ addr then
    return false
  else
    let page := addr / l.pageBytes
    match ← heapDo (.read (l.offset page) (l.length page)) with
    | .error _ => return false
    | .ok bytes =>
      if bytes.length ≠ l.length page then
        return false
      else
        locked do
          let resolved ← heapDo (.resolveFault page bytes isWrite)
          modify (fetched l · page)
          enforceBudget l rounds
          return resolved

/-- `flush`. -/
def flush : HeapM Unit :=
  locked do
    let heap ← heapDo .heap
    heap.pages.forM (flushPage l)

/-- The loop of `flush_and_evict_all`, which goes round at most once for each page. -/
def evictAll : ℕ → HeapM Unit
  | 0 => return
  | rounds + 1 => do
    let heap ← heapDo .heap
    match heap.residentOrder with
    | [] => return
    | node :: _ =>
      evictPage l node.page
      let heap' ← heapDo .heap
      if heap'.residentOrder.length ≠ heap.residentOrder.length then
        evictAll rounds

/-- `flush_and_evict_all`. -/
def flushAndEvictAll : HeapM Unit :=
  locked do
    let heap ← heapDo .heap
    evictAll l heap.residentOrder.length

/-- The fault of an access. The access fails if nothing resolves it. -/
def serviceFault (rounds addr : ℕ) (isWrite : Bool) : HeapM Unit := do
  if !(← handleFault l rounds addr isWrite) then
    if !(← heapDo (.unresolved addr)) then
      throw .accessViolation

/-- A load of the application, which is executed again after its fault has been resolved. -/
def load : ℕ → ℕ → HeapM Byte
  | 0, _ => .abort .diverges
  | rounds + 1, addr => do
    match ← heapDo (.load (addr / l.pageBytes) (addr % l.pageBytes)) with
    | some b => return b
    | none =>
      serviceFault l rounds addr false
      load rounds addr

def store : ℕ → ℕ → Byte → HeapM Unit
  | 0, _, _ => .abort .diverges
  | rounds + 1, addr, v => do
    if !(← heapDo (.store (addr / l.pageBytes) (addr % l.pageBytes) v)) then
      serviceFault l rounds addr true
      store rounds addr v

end RemoteHeap

inductive HeapCall where
  | load (addr : ℕ)
  | store (addr : ℕ) (v : Byte)
  | flush
  | flushAndEvictAll
  deriving DecidableEq, Repr

inductive HeapValue where
  | byte (b : Byte)
  | done
  deriving DecidableEq, Repr

def HeapCall.exec (l : HeapLayout) (rounds : ℕ) : HeapCall → HeapM HeapValue
  | .load addr => .byte <$> RemoteHeap.load l rounds addr
  | .store addr v => (fun _ => .done) <$> RemoteHeap.store l rounds addr v
  | .flush => (fun _ => .done) <$> RemoteHeap.flush l
  | .flushAndEvictAll => (fun _ => .done) <$> RemoteHeap.flushAndEvictAll l

structure HeapWorld (β : Type) where
  backend : β
  block : List Byte
  heap : RemoteHeap := {}
  isLocked : Bool := false

/-- What the effects may do. A read returns the stored range or throws. A write that throws may
leave anything in its range. -/
def heapEnv {β : Type} (B : PageFaultBackend β) :
    (o : HeapOp) → HeapWorld β → o.Res → HeapWorld β → Prop
  | .load page off, w, r, w' =>
    match B.contents w.backend page with
    | none => r = none ∧ w' = w
    | some bytes => r = bytes[off]? ∧ ∃ b, B.load page w.backend b ∧ w' = { w with backend := b }
  | .store page off v, w, r, w' =>
    match B.contents w.backend page with
    | none => r = false ∧ w' = w
    | some bytes =>
      if off < bytes.length then
        r = true ∧ ∃ b, B.store page off v w.backend b ∧ w' = { w with backend := b }
      else r = false ∧ w' = w
  | .read offset length, w, r, w' =>
    w' = w ∧ ∀ bytes, r = .ok bytes → bytes = slice w.block offset length
  | .write offset data, w, r, w' =>
    ∃ bytes, bytes.length = data.length ∧ (r = none → bytes = data) ∧
      w' = { w with block := splice w.block offset bytes }
  | .resolveFault page data isWrite, w, r, w' =>
    ∃ b, B.resolveFault page data isWrite w.backend r b ∧ w' = { w with backend := b }
  | .isDirty page, w, r, w' => r = B.isDirty w.backend page ∧ w' = w
  -- copying an absent page would fault under the lock, and never return
  | .copy page, w, r, w' =>
    B.contents w.backend page = some r ∧
      ∃ b, B.load page w.backend b ∧ w' = { w with backend := b }
  | .clearDirty page, w, _, w' =>
    ∃ b, B.clearDirty page w.backend b ∧ w' = { w with backend := b }
  | .evictPages page, w, r, w' =>
    ∃ b, B.evictPages page w.backend r b ∧ w' = { w with backend := b }
  -- the access violation is let through
  | .unresolved _, w, r, w' => r = false ∧ w' = w
  | .lock, w, _, w' => w.isLocked = false ∧ w' = { w with isLocked := true }
  | .unlock, w, _, w' => w' = { w with isLocked := false }
  | .heap, w, r, w' => r = w.heap ∧ w' = w
  | .setHeap heap, w, _, w' => w' = { w with heap := heap }

end MemInfo
