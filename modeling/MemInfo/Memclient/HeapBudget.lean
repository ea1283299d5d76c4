import Mathlib.Data.Nat.Count
import MemInfo.Memclient.HeapBookkeeping

/-! # The loop that enforces the budget

Each call of `evict_page` takes the oldest page. A page that is written back and released leaves
the queue, the others go to its end. Which calls succeed decides whether the loop ends, and
whether it reaches the page that has just been faulted in.
-/

namespace MemInfo

open Lib
open Lib.Prog (eval eval_perform_bind eval_bind eval_bind_of_ok eval_tryCatch)

/-- What happens in the calls of `evict_page`, by their number: whether the page is dirty, what
the write-back throws, and whether the page cannot be released. -/
structure FailurePattern where
  dirty : ℕ → Bool
  writeFails : ℕ → Option Err
  evictFails : ℕ → Bool

def HeapLayout.budgetPages (l : HeapLayout) : ℕ := l.localBudgetBytes / l.pageBytes

namespace FailurePattern

variable (π : FailurePattern)

def succeeds (n : ℕ) : Bool := !(π.dirty n && (π.writeFails n).isSome) && !π.evictFails n

/-- The environment of one fault. Pages are fetched; each call of `evict_page` asks once whether
its page is dirty. -/
def handler : (o : HeapOp) → RemoteHeap × ℕ → o.Res × (RemoteHeap × ℕ)
  | .heap, (heap, n) => (heap, heap, n)
  | .setHeap new, (_, n) => ((), new, n)
  | .isDirty _, (heap, n) => (π.dirty n, heap, n + 1)
  | .write .., (heap, n) => (π.writeFails (n - 1), heap, n)
  | .evictPages _, (heap, n) => (!π.evictFails (n - 1), heap, n)
  | .read _ length, s => (.ok (List.replicate length 0), s)
  | .load .., s => (none, s)
  | .store .., s | .unresolved _, s => (false, s)
  | .resolveFault .., s => (true, s)
  | .copy _, s => ([], s)
  | .clearDirty _, s | .lock, s | .unlock, s => ((), s)

def attempt (l : HeapLayout) (n : ℕ) (heap : RemoteHeap) : RemoteHeap :=
  match heap.residentOrder with
  | [] => heap
  | node :: _ =>
    let heap :=
      if π.dirty n && (π.writeFails n).isNone then heap.withFlushes (heap.stats.flushes + 1)
      else heap
    if π.succeeds n then heap.evicted l node.id node.page else heap.moveToBack node.id

variable {π} {l : HeapLayout} {heap : RemoteHeap} {n rounds : ℕ}

theorem eval_modify {f : RemoteHeap → RemoteHeap} :
    eval π.handler (RemoteHeap.modify f) (heap, n) = (.ok (), f heap, n) := rfl

theorem eval_flushPage_failed {page : ℕ} {e : Err} (hd : π.dirty n)
    (hw : π.writeFails n = some e) :
    eval π.handler (RemoteHeap.flushPage l page) (heap, n) =
      (.threw (.exception e), heap, n + 1) := by
  simp only [RemoteHeap.flushPage, heapDo, eval_perform_bind, handler, hd, if_true,
    Nat.add_sub_cancel, hw]
  rfl

theorem eval_flushPage {page : ℕ} (hok : (π.dirty n && (π.writeFails n).isSome) = false) :
    eval π.handler (RemoteHeap.flushPage l page) (heap, n) =
      (.ok (), if π.dirty n && (π.writeFails n).isNone then
        heap.withFlushes (heap.stats.flushes + 1) else heap, n + 1) := by
  cases hd : π.dirty n with
  | false =>
    simp only [RemoteHeap.flushPage, heapDo, eval_perform_bind, handler, hd]
    rfl
  | true =>
    have hw : π.writeFails n = none := by simpa [hd] using hok
    simp only [RemoteHeap.flushPage, heapDo, eval_perform_bind, handler, hd, if_true,
      Nat.add_sub_cancel, hw]
    rfl

theorem eval_tryFlush {page : ℕ} :
    eval π.handler (tryCatch (do RemoteHeap.flushPage l page; return true) fun _ => return false)
        (heap, n) =
      (.ok (!(π.dirty n && (π.writeFails n).isSome)),
        if π.dirty n && (π.writeFails n).isNone then heap.withFlushes (heap.stats.flushes + 1)
        else heap, n + 1) := by
  cases hok : π.dirty n && (π.writeFails n).isSome with
  | false =>
    rw [eval_tryCatch, eval_bind_of_ok (eval_flushPage hok)]
    rfl
  | true =>
    obtain ⟨hd, hw⟩ := Bool.and_eq_true_iff.mp hok
    obtain ⟨e, he⟩ := Option.isSome_iff_exists.mp hw
    have hflush : eval π.handler (RemoteHeap.flushPage l page) (heap, n) =
        (.threw (.exception e), heap, n + 1) := eval_flushPage_failed hd he
    rw [eval_tryCatch, eval_bind, hflush, he]
    simp only [Option.isNone_some, Bool.and_false, Bool.false_eq_true, if_false]
    rfl

theorem eval_evictPage {node : PageNode} {rest : List PageNode} (h : Booked l heap)
    (horder : heap.residentOrder = node :: rest) :
    eval π.handler (RemoteHeap.evictPage l node.page) (heap, n) =
      (.ok (), π.attempt l n heap, n + 1) := by
  have hl : heap.resident.lookup node.page = some node.id :=
    (h.indexed _ _).mpr (horder ▸ List.mem_cons_self)
  simp only [RemoteHeap.evictPage, heapDo, eval_perform_bind, handler, hl, attempt, horder]
  rw [eval_bind_of_ok eval_tryFlush]
  generalize (if π.dirty n && (π.writeFails n).isNone then
    heap.withFlushes (heap.stats.flushes + 1) else heap) = flushed
  unfold succeeds
  cases π.dirty n && (π.writeFails n).isSome with
  | true => exact eval_modify
  | false =>
    simp only [Bool.not_false, if_true, eval_perform_bind, handler, Nat.add_sub_cancel,
      Bool.true_and]
    cases π.evictFails n with
    | true => exact eval_modify
    | false => exact eval_modify

/-! ## The queue of pages -/

def turn (gone : Bool) : List ℕ → List ℕ
  | [] => []
  | page :: pages => if gone then pages else pages ++ [page]

theorem booked_attempt (h : Booked l heap) : Booked l (π.attempt l n heap) := by
  unfold attempt
  split
  next => exact h
  next node rest horder =>
    have hl : heap.resident.lookup node.page = some node.id :=
      (h.indexed _ _).mpr (horder ▸ List.mem_cons_self)
    dsimp only
    split <;> split
    · exact (h.withFlushes _).evicted hl
    · exact h.evicted hl
    · exact (h.withFlushes _).moveToBack hl
    · exact h.moveToBack hl

theorem filter_front {node : PageNode} {rest : List PageNode}
    (hids : ((node :: rest).map PageNode.id).Nodup) :
    (node :: rest).filter (·.id ≠ node.id) = rest ∧
      (node :: rest).filter (·.id = node.id) = [node] := by
  rw [List.map_cons, List.nodup_cons] at hids
  have hne : ∀ m ∈ rest, m.id ≠ node.id := fun m hm he => hids.1 (he ▸ List.mem_map_of_mem hm)
  constructor
  · rw [List.filter_cons_of_neg (by simp), List.filter_eq_self.mpr (by simpa using hne)]
  · rw [List.filter_cons_of_pos (by simp), List.filter_eq_nil_iff.mpr (by simpa using hne)]

theorem pages_attempt (h : Booked l heap) :
    (π.attempt l n heap).pages = turn (π.succeeds n) heap.pages := by
  unfold attempt
  split
  next horder => rw [RemoteHeap.pages, horder]; rfl
  next node rest horder =>
    have hids := h.ids
    rw [horder] at hids
    obtain ⟨hrest, hself⟩ := filter_front hids
    have hfront : ∀ k, ((heap.withFlushes k).evicted l node.id node.page).pages =
        rest.map PageNode.page ∧ ((heap.withFlushes k).moveToBack node.id).pages =
        rest.map PageNode.page ++ [node.page] := by
      intro k
      simp only [RemoteHeap.pages, RemoteHeap.evicted, RemoteHeap.moveToBack,
        RemoteHeap.withFlushes, horder, hrest, hself, List.map_append, List.map_cons, List.map_nil,
        and_self]
    have hsame : heap = heap.withFlushes heap.stats.flushes := rfl
    have hpages : heap.pages = node.page :: rest.map PageNode.page := by
      rw [RemoteHeap.pages, horder, List.map_cons]
    rw [hpages, turn]
    dsimp only
    split <;> split
    · exact (hfront _).1
    · rw [hsame]
      exact (hfront _).1
    · exact (hfront _).2
    · rw [hsame]
      exact (hfront _).2

theorem eval_enforceBudget_succ (h : Booked l heap) :
    eval π.handler (RemoteHeap.enforceBudget l (rounds + 1)) (heap, n) =
      if l.budgetPages < heap.pages.length then
        eval π.handler (RemoteHeap.enforceBudget l rounds) (π.attempt l n heap, n + 1)
      else (.ok (), heap, n) := by
  have hone : 1 ≤ l.budgetPages := Nat.div_pos l.pageBytes_le_budget l.pageBytes_pos
  have hover : l.localBudgetBytes < heap.stats.residentBytes ↔
      l.budgetPages < heap.residentOrder.length := by
    rw [← Nat.not_le, h.bytes_le_iff, Nat.not_le, HeapLayout.budgetPages]
  have hlen : heap.pages.length = heap.residentOrder.length := List.length_map _
  have hheap : eval π.handler (heapDo .heap) (heap, n) = (.ok heap, heap, n) := rfl
  rw [hlen, RemoteHeap.enforceBudget, eval_bind_of_ok hheap]
  rcases horder : heap.residentOrder with _ | ⟨node, _ | ⟨next, rest⟩⟩
  · rw [List.length_nil, if_neg (Nat.not_lt_zero _)]
    rfl
  · rw [List.length_singleton, if_neg (Nat.not_lt.mpr hone)]
    rfl
  · rw [horder] at hover
    dsimp only
    by_cases hlt : l.budgetPages < (node :: next :: rest).length
    · rw [if_pos (hover.mpr hlt), if_pos hlt, eval_bind_of_ok (eval_evictPage h horder)]
    · rw [if_neg (mt hover.mp hlt), if_neg hlt]
      rfl

theorem length_turn {gone : Bool} {pages : List ℕ} (h : 0 < pages.length) :
    (turn gone pages).length + (if gone then 1 else 0) = pages.length := by
  match pages with
  | page :: pages => cases gone <;> simp [turn]

/-- The calls from number `n` on that succeed, among the next `k`. -/
abbrev released (π : FailurePattern) (n k : ℕ) : ℕ := Nat.count (fun i => π.succeeds (n + i)) k

theorem released_succ (k : ℕ) :
    π.released n (k + 1) = π.released (n + 1) k + if π.succeeds n then 1 else 0 := by
  rw [released, Nat.count_succ', released]
  simp only [Nat.add_assoc, Nat.add_comm 1, Nat.add_zero]

/-! ## Whether the loop ends -/

theorem length_attempt (h : Booked l heap) (hlt : l.budgetPages < heap.pages.length) :
    (π.attempt l n heap).pages.length + (if π.succeeds n then 1 else 0) = heap.pages.length := by
  rw [pages_attempt h]
  exact length_turn (Nat.zero_lt_of_lt hlt)

theorem le_released_of_ends (h : Booked l heap)
    (hend : ∀ x, (eval π.handler (RemoteHeap.enforceBudget l rounds) (heap, n)).1 ≠ .aborted x) :
    ∃ k, heap.pages.length - l.budgetPages ≤ π.released n k := by
  induction rounds generalizing heap n with
  | zero => exact absurd rfl (hend .diverges)
  | succ rounds ih =>
    rw [eval_enforceBudget_succ h] at hend
    split at hend
    next hlt =>
      obtain ⟨k, hk⟩ := ih (booked_attempt h) hend
      have hlen := length_attempt (n := n) (π := π) h hlt
      refine ⟨k + 1, ?_⟩
      rw [released_succ]
      omega
    next hle => exact ⟨0, by omega⟩

theorem ends_of_le_released {k : ℕ} (h : Booked l heap)
    (hk : heap.pages.length - l.budgetPages ≤ π.released n k) :
    ∃ rounds, ∀ x, (eval π.handler (RemoteHeap.enforceBudget l rounds) (heap, n)).1 ≠
      .aborted x := by
  induction k generalizing heap n with
  | zero =>
    refine ⟨1, ?_⟩
    rw [eval_enforceBudget_succ h, if_neg (by simp at hk; omega)]
    exact nofun
  | succ k ih =>
    by_cases hlt : l.budgetPages < heap.pages.length
    · have hlen := length_attempt (n := n) (π := π) h hlt
      rw [released_succ] at hk
      obtain ⟨rounds, hend⟩ := ih (n := n + 1) (booked_attempt (π := π) (n := n) h) (by omega)
      refine ⟨rounds + 1, ?_⟩
      rw [eval_enforceBudget_succ h, if_pos hlt]
      exact hend
    · refine ⟨1, ?_⟩
      rw [eval_enforceBudget_succ h, if_neg hlt]
      exact nofun

theorem endless_of_refused (hno : ∀ n, π.succeeds n = false) (h : Booked l heap)
    (hlt : l.budgetPages < heap.pages.length) :
    (eval π.handler (RemoteHeap.enforceBudget l rounds) (heap, n)).1 = .aborted .diverges := by
  induction rounds generalizing heap n with
  | zero => rfl
  | succ rounds ih =>
    rw [eval_enforceBudget_succ h, if_pos hlt]
    apply ih (booked_attempt h)
    have hlen := length_attempt (n := n) (π := π) h hlt
    simp only [hno, Bool.false_eq_true, if_false, Nat.add_zero] at hlen
    rwa [hlen]

end FailurePattern

/-- The loop of `enforce_budget` ends exactly if, sooner or later, as many calls of `evict_page`
succeed as there are pages above the budget. -/
theorem enforce_budget_ends_iff {l : HeapLayout} {heap : RemoteHeap} (h : Booked l heap)
    (π : FailurePattern) :
    (∃ rounds, ∀ x, (eval π.handler (RemoteHeap.enforceBudget l rounds) (heap, 0)).1 ≠
      .aborted x) ↔
    ∃ k, heap.pages.length - l.budgetPages ≤ Nat.count (fun n => π.succeeds n) k := by
  have hzero : ∀ k, π.released 0 k = Nat.count (fun n => π.succeeds n) k := by
    simp [FailurePattern.released]
  constructor
  · rintro ⟨rounds, hend⟩
    obtain ⟨k, hk⟩ := FailurePattern.le_released_of_ends h hend
    exact ⟨k, hzero k ▸ hk⟩
  · rintro ⟨k, hk⟩
    exact FailurePattern.ends_of_le_released h (hzero k ▸ hk)

def twoResident : RemoteHeap := (RemoteHeap.fetched smallLayout {} 0).fetched smallLayout 1

theorem booked_twoResident : Booked smallLayout twoResident :=
  (booked_new.fetched (by decide)).fetched (by decide)

def refusing : FailurePattern where
  dirty _ := true
  writeFails _ := some (.runtimeError "Peer not connected")
  evictFails _ := false

def unfailing : FailurePattern := ⟨fun _ => true, fun _ => none, fun _ => false⟩

theorem enforce_budget_ends_iff_unfailing :
    Booked smallLayout twoResident ∧ ∃ rounds, ∀ x,
      (eval unfailing.handler (RemoteHeap.enforceBudget smallLayout rounds) (twoResident, 0)).1 ≠
        .aborted x :=
  ⟨booked_twoResident, (enforce_budget_ends_iff booked_twoResident unfailing).mpr ⟨1, by decide⟩⟩

/-- The two pages take turns forever. -/
theorem budget_loop_endless :
    Booked smallLayout twoResident ∧ ∀ rounds,
      (eval refusing.handler (RemoteHeap.enforceBudget smallLayout rounds) (twoResident, 0)).1 =
        .aborted .diverges :=
  ⟨booked_twoResident, fun _ =>
    FailurePattern.endless_of_refused (fun _ => rfl) booked_twoResident (by decide)⟩

/-! ## Whether the loop reaches the page of the fault -/

namespace FailurePattern

/-- How many pages are queued before a page that was queued behind `older` others, when call
number `n` is made. It goes to the back again if its own call fails. -/
def place (π : FailurePattern) (older : ℕ) : ℕ → ℕ
  | 0 => older
  | n + 1 =>
    if π.place older n = 0 then older - Nat.count (fun i => π.succeeds i) n
    else π.place older n - 1

/-- Whenever the page is the oldest and the pages do not fit the budget yet, its call fails. -/
def Spares (π : FailurePattern) (l : HeapLayout) (older first : ℕ) : Prop :=
  ∀ n, first ≤ n → π.place older n = 0 →
    l.budgetPages < older + 1 - Nat.count (fun i => π.succeeds i) n → π.succeeds n = false

variable {π : FailurePattern} {l : HeapLayout} {heap heap' : RemoteHeap} {n n' rounds page : ℕ}

theorem mem_turn {gone : Bool} {pages : List ℕ} (h : page ∈ turn gone pages) : page ∈ pages := by
  match pages with
  | p :: pages =>
    cases gone with
    | true => exact List.mem_cons_of_mem _ h
    | false =>
      rcases List.mem_append.mp h with h | h
      · exact List.mem_cons_of_mem _ h
      · exact List.mem_singleton.mp h ▸ List.mem_cons_self

theorem mem_of_mem_end (h : Booked l heap) {out : Outcome HeapErr Unit}
    (heval : eval π.handler (RemoteHeap.enforceBudget l rounds) (heap, n) = (out, heap', n'))
    (hp : page ∈ heap'.pages) : page ∈ heap.pages := by
  induction rounds generalizing heap n with
  | zero =>
    obtain ⟨-, hs⟩ := Prod.mk.inj heval
    obtain ⟨rfl, -⟩ := Prod.mk.inj hs
    exact hp
  | succ rounds ih =>
    rw [eval_enforceBudget_succ h] at heval
    split at heval
    next =>
      have hmem := ih (booked_attempt h) heval
      rw [pages_attempt h] at hmem
      exact mem_turn hmem
    next =>
      obtain ⟨-, hs⟩ := Prod.mk.inj heval
      obtain ⟨rfl, -⟩ := Prod.mk.inj hs
      exact hp

theorem spares_succ_iff {m : ℕ} (hn : π.place m n = 0 →
      l.budgetPages < m + 1 - Nat.count (fun i => π.succeeds i) n → π.succeeds n = false) :
    π.Spares l m (n + 1) ↔ π.Spares l m n := by
  constructor
  · intro hs k hk
    rcases Nat.eq_or_lt_of_le hk with rfl | hk
    · exact hn
    · exact hs k hk
  · exact fun hs k hk => hs k (Nat.le_of_succ_le hk)

theorem mem_end_iff (h : Booked l heap) {older newer : List ℕ} {m : ℕ}
    (hq : heap.pages = older ++ page :: newer) (hplace : older.length = π.place m n)
    (hcount : older.length + newer.length + Nat.count (fun i => π.succeeds i) n = m)
    (heval : eval π.handler (RemoteHeap.enforceBudget l rounds) (heap, n) = (.ok (), heap', n')) :
    page ∈ heap'.pages ↔ π.Spares l m n := by
  induction rounds generalizing heap n older newer with
  | zero => cases (Prod.mk.inj heval).1
  | succ rounds ih =>
    have hlen : heap.pages.length = m + 1 - Nat.count (fun i => π.succeeds i) n := by
      rw [hq, List.length_append, List.length_cons]
      omega
    have hpages := pages_attempt (π := π) (n := n) h
    rw [eval_enforceBudget_succ h, hlen] at heval
    split at heval
    next hlt =>
      have hcounts := Nat.count_succ (fun i => π.succeeds i) n
      match older with
      | [] =>
        have hfront : π.place m n = 0 := hplace.symm
        have hback : π.place m (n + 1) = m - Nat.count (fun i => π.succeeds i) n := if_pos hfront
        rw [hq, List.nil_append] at hpages
        cases hgone : π.succeeds n with
        | true =>
          -- the page leaves the queue, and does not come back
          rw [hgone] at hpages
          have hnodup := h.nodup_pages
          rw [hq, List.nil_append, List.nodup_cons] at hnodup
          refine iff_of_false (fun hmem => ?_) fun hs => ?_
          · have hmem := mem_of_mem_end (booked_attempt h) heval hmem
            rw [hpages] at hmem
            exact hnodup.1 hmem
          · simp [hs n (Nat.le_refl _) hfront hlt] at hgone
        | false =>
          rw [hgone] at hpages hcounts
          have hq' : (π.attempt l n heap).pages = newer ++ page :: [] := hpages
          rw [ih (booked_attempt h) hq' ?_ ?_ heval, spares_succ_iff fun _ _ => hgone]
          · rw [hback]
            simp only [List.length_nil] at hcount
            omega
          · simp only [List.length_nil] at hcount ⊢
            simp only [Bool.false_eq_true, if_false] at hcounts
            omega
      | first :: older =>
        have hnot : π.place m n ≠ 0 := by
          rw [← hplace]
          exact Nat.succ_ne_zero _
        have hnext : π.place m (n + 1) = π.place m n - 1 := if_neg hnot
        have hplace' : older.length = π.place m (n + 1) := by
          rw [hnext, ← hplace, List.length_cons, Nat.add_sub_cancel]
        rw [hq, List.cons_append] at hpages
        rw [List.length_cons] at hcount
        rw [← spares_succ_iff fun hz => absurd hz hnot]
        cases hgone : π.succeeds n with
        | true =>
          rw [hgone] at hpages hcounts
          exact ih (booked_attempt h) hpages hplace' (by simp at hcounts; omega) heval
        | false =>
          rw [hgone] at hpages hcounts
          have hq' : (π.attempt l n heap).pages = older ++ page :: (newer ++ [first]) := by
            rw [hpages, turn]
            simp
          refine ih (booked_attempt h) hq' hplace' ?_ heval
          simp at hcounts ⊢
          omega
    next hle =>
      obtain ⟨-, hs⟩ := Prod.mk.inj heval
      obtain ⟨rfl, -⟩ := Prod.mk.inj hs
      refine iff_of_true (by simp [hq]) fun k hk _ hlt => absurd hlt ?_
      have hmono := Nat.count_monotone (fun i => π.succeeds i) hk
      omega

theorem eval_handleFault {addr : ℕ} {isWrite resolved : Bool} (hin : addr < l.capacity)
    (heval : eval π.handler (RemoteHeap.handleFault l rounds addr isWrite) (heap, n) =
      (.ok resolved, heap', n')) :
    eval π.handler (RemoteHeap.enforceBudget l rounds)
      (heap.fetched l (addr / l.pageBytes), n) = (.ok (), heap', n') := by
  have hbody : eval π.handler (RemoteHeap.handleFault l rounds addr isWrite) (heap, n) =
      eval π.handler (RemoteHeap.locked do
        let resolved ← heapDo (.resolveFault (addr / l.pageBytes)
          (List.replicate (l.length (addr / l.pageBytes)) 0) isWrite)
        RemoteHeap.modify (RemoteHeap.fetched l · (addr / l.pageBytes))
        RemoteHeap.enforceBudget l rounds
        return resolved) (heap, n) := by
    rw [RemoteHeap.handleFault, if_neg (Nat.not_le.mpr hin), heapDo, eval_perform_bind]
    simp only [handler, List.length_replicate, ne_eq, not_true_eq_false, if_false]
  rw [hbody, RemoteHeap.locked, heapDo, eval_perform_bind, eval_bind, eval_tryCatch, heapDo,
    eval_perform_bind, eval_bind_of_ok eval_modify, eval_bind] at heval
  simp only [handler] at heval
  generalize hloop : eval π.handler (RemoteHeap.enforceBudget l rounds)
    (heap.fetched l (addr / l.pageBytes), n) = after at heval
  obtain ⟨out, heap₁, n₁⟩ := after
  cases out with
  | ok a =>
    obtain ⟨-, hs⟩ := Prod.mk.inj heval
    rw [← hs]
    rfl
  | threw e => cases (Prod.mk.inj heval).1
  | aborted x => cases (Prod.mk.inj heval).1

end FailurePattern

/-- The page of a fault is resident when its handler returns exactly if each call of
`evict_page` that takes it, while the pages do not fit the budget, fails. -/
theorem faulted_page_resident_iff {l : HeapLayout} {heap heap' : RemoteHeap} (h : Booked l heap)
    (π : FailurePattern) {rounds addr n : ℕ} {isWrite resolved : Bool} (hin : addr < l.capacity)
    (habsent : heap.resident.lookup (addr / l.pageBytes) = none)
    (heval : eval π.handler (RemoteHeap.handleFault l rounds addr isWrite) (heap, 0) =
      (.ok resolved, heap', n)) :
    addr / l.pageBytes ∈ heap'.pages ↔
      ∀ k, π.place heap.pages.length k = 0 →
        l.budgetPages < heap.pages.length + 1 - Nat.count (fun i => π.succeeds i) k →
        π.succeeds k = false := by
  have hoffset : l.offset (addr / l.pageBytes) < l.capacity :=
    Nat.lt_of_le_of_lt (Nat.div_mul_le_self ..) hin
  have hpages : (heap.fetched l (addr / l.pageBytes)).pages =
      heap.pages ++ addr / l.pageBytes :: [] := by
    simp [RemoteHeap.fetched, RemoteHeap.pages, habsent]
  have hfate := FailurePattern.mem_end_iff (h.fetched hoffset) hpages rfl (by simp)
    (FailurePattern.eval_handleFault hin heval)
  rw [hfate]
  exact ⟨fun hs k => hs k (Nat.zero_le _), fun hs k _ => hs k⟩

/-- Only the first page is dirty, and it cannot be written back. -/
def oneRefused : FailurePattern where
  dirty n := n == 0
  writeFails _ := some (.runtimeError "Peer not connected")
  evictFails _ := false

def oneResident : RemoteHeap := RemoteHeap.fetched smallLayout {} 0

theorem booked_oneResident : Booked smallLayout oneResident := booked_new.fetched (by decide)

theorem faulted_page_resident_unfailing :
    Booked smallLayout oneResident ∧ oneResident.resident.lookup 1 = none ∧
      ∃ heap' n, eval unfailing.handler (RemoteHeap.handleFault smallLayout 3 2 false)
        (oneResident, 0) = (.ok true, heap', n) ∧ 1 ∈ heap'.pages := by
  have heval : ∃ heap' n, eval unfailing.handler (RemoteHeap.handleFault smallLayout 3 2 false)
      (oneResident, 0) = (.ok true, heap', n) := ⟨_, _, rfl⟩
  obtain ⟨heap', n, heval⟩ := heval
  refine ⟨booked_oneResident, rfl, heap', n, heval, ?_⟩
  apply (faulted_page_resident_iff booked_oneResident unfailing (by decide) rfl heval).mpr
  -- the page is second in the queue, and one success is enough
  intro k hk hover
  have hone : oneResident.pages.length = 1 := rfl
  cases k with
  | zero => exact absurd hk (by decide)
  | succ k =>
    have hcount : Nat.count (fun i => unfailing.succeeds i) 1 ≤
        Nat.count (fun i => unfailing.succeeds i) (k + 1) := Nat.count_monotone _ (by omega)
    have hfirst : Nat.count (fun i => unfailing.succeeds i) 1 = 1 := rfl
    have hroom : smallLayout.budgetPages = 1 := rfl
    omega

/-- The older page goes to the back, and the page of the fault is evicted by its own fault. -/
theorem faulted_page_evicted :
    Booked smallLayout oneResident ∧ oneResident.resident.lookup 1 = none ∧
      ∃ heap' n, eval oneRefused.handler (RemoteHeap.handleFault smallLayout 3 2 false)
        (oneResident, 0) = (.ok true, heap', n) ∧ 1 ∉ heap'.pages :=
  ⟨booked_oneResident, rfl, _, _, rfl, by decide⟩

end MemInfo
