import MemInfo.Memclient.RemoteHeap

/-! # The order of the effects of the remote heap

A thread in the code of the heap is in one of a few places, and its effects lead from one to
the other. Every program of the heap performs its effects in the order that the places allow:
it installs the bytes it fetched, writes back the bytes it copied, and evicts only a page
that it found clean or has just written back.
-/

namespace MemInfo

open Lib
open Lib.Prog (wp wp_bind wp_tryCatch wp_mono)

inductive Mark where
  | free
  /-- The page of an access was absent. -/
  | faulted (page : ℕ)
  | fetched (page : ℕ) (bytes : List Byte)
  /-- As before, with the lock. From here on every place has it. -/
  | installing (page : ℕ) (bytes : List Byte)
  | holding
  /-- The page was found dirty. -/
  | checked (page : ℕ)
  | copied (page : ℕ) (bytes : List Byte)
  /-- The page was not dirty, or has been written back. -/
  | clean (page : ℕ)
  deriving DecidableEq, Repr

namespace Mark

def Holds : Mark → Prop
  | .free | .faulted _ | .fetched .. => False
  | _ => True

/-- The thread is in a fault handler for the page, which it has not installed yet. -/
def Handles (m : Mark) (page : ℕ) : Prop :=
  match m with
  | .faulted p | .fetched p _ | .installing p _ => p = page
  | _ => False

def Flushes (m : Mark) (page : ℕ) : Prop :=
  match m with
  | .checked p | .copied p _ | .clean p => p = page
  | _ => False

instance (m : Mark) (page : ℕ) : Decidable (m.Handles page) := by
  unfold Handles; split <;> infer_instance

instance (m : Mark) (page : ℕ) : Decidable (m.Flushes page) := by
  unfold Flushes; split <;> infer_instance

/-- The thread has the lock and no page in work that it has not written back. -/
def Ready : Mark → Prop
  | .holding | .clean _ => True
  | _ => False

variable (l : HeapLayout)

def next (m : Mark) : (o : HeapOp) → o.Res → Mark
  | .load page _, r => if r = none ∧ l.offset page < l.capacity then .faulted page else .free
  | .store page _ _, r => if r = false ∧ l.offset page < l.capacity then .faulted page else .free
  | .read _ length, r =>
    match m, r with
    | .faulted page, .ok bytes => if bytes.length = length then .fetched page bytes else .free
    | _, _ => .free
  | .lock, _ =>
    match m with
    | .fetched page bytes => .installing page bytes
    | _ => .holding
  | .resolveFault .., _ => .holding
  | .isDirty page, r => if r then .checked page else .clean page
  | .copy page, r => .copied page r
  | .write .., r =>
    match m, r with
    | .copied page _, none => .clean page
    | _, _ => .holding
  | .evictPages _, _ => .holding
  | .unlock, _ | .unresolved _, _ => .free
  | .clearDirty _, _ | .heap, _ | .setHeap _, _ => m

def InOrder (m : Mark) : HeapOp → Prop
  | .load _ off | .store _ off _ => m = .free ∧ off < l.pageBytes
  | .read offset length =>
    ∃ page, m = .faulted page ∧ offset = l.offset page ∧ length = l.length page
  | .unresolved _ => m = .free
  | .lock => m = .free ∨ ∃ page bytes, m = .fetched page bytes
  | .resolveFault page data _ => m = .installing page data
  | .isDirty _ | .unlock => m.Ready
  | .copy page => m = .checked page
  | .write offset data => ∃ page, m = .copied page data ∧ offset = l.offset page
  | .clearDirty page | .evictPages page => m = .clean page
  | .heap | .setHeap _ => m.Holds

def paced (o : HeapOp) (m : Mark) (r : o.Res) (m' : Mark) : Prop := m' = m.next l o r

theorem Ready.holds {m : Mark} (h : m.Ready) : m.Holds := by
  cases m <;> trivial

end Mark

open Mark

abbrev Paced (l : HeapLayout) {α : Type} (p : HeapM α) (m : Mark)
    (Q : Outcome HeapErr α → Mark → Prop) : Prop :=
  wp (paced l) (fun o m => m.InOrder l o) p Q m

def Returned {α : Type} (P : Mark → Prop) (out : Outcome HeapErr α) (m : Mark) : Prop :=
  match out with
  | .aborted _ => True
  | _ => P m

def KeepsReady (l : HeapLayout) {α : Type} (p : HeapM α) : Prop :=
  ∀ m, m.Ready → Paced l p m (Returned Ready)

variable {l : HeapLayout} {α β : Type}

theorem paced_do {o : HeapOp} {f : o.Res → HeapM α} {m : Mark}
    {Q : Outcome HeapErr α → Mark → Prop} (ho : m.InOrder l o)
    (hf : ∀ r, Paced l (f r) (m.next l o r) Q) : Paced l (heapDo o >>= f) m Q := by
  refine ⟨ho, ?_⟩
  rintro r _ rfl
  exact hf r

theorem paced_bind {p : HeapM α} {f : α → HeapM β} {m : Mark} {P : Mark → Prop}
    {Q : Outcome HeapErr α → Mark → Prop} (hp : Paced l p m Q)
    (hok : ∀ a m', Q (.ok a) m' → Paced l (f a) m' (Returned P))
    (hthrew : ∀ e m', Q (.threw e) m' → P m') : Paced l (p >>= f) m (Returned P) := by
  refine wp_bind.mpr (wp_mono hp ?_)
  rintro (a | e | x) m' hq
  · exact hok a m' hq
  · exact hthrew e m' hq
  · trivial

theorem KeepsReady.bind {p : HeapM α} {f : α → HeapM β} (hp : KeepsReady l p)
    (hf : ∀ a, KeepsReady l (f a)) : KeepsReady l (p >>= f) := fun m hm =>
  paced_bind (hp m hm) (fun a m' hm' => hf a m' hm') fun _ _ hm' => hm'

theorem keepsReady_pure (a : α) : KeepsReady l (return a : HeapM α) := fun _ hm => hm

namespace RemoteHeap

theorem paced_modify {f : RemoteHeap → RemoteHeap} {m : Mark} (hm : m.Holds) :
    Paced l (modify f) m fun out m' => out = .ok () ∧ m' = m := by
  refine paced_do hm fun heap => ⟨hm, ?_⟩
  rintro ⟨⟩ _ rfl
  exact ⟨rfl, rfl⟩

theorem keepsReady_modify {f : RemoteHeap → RemoteHeap} : KeepsReady l (modify f) := by
  intro m hm
  apply wp_mono (paced_modify hm.holds)
  rintro _ _ ⟨rfl, rfl⟩
  exact hm

theorem keepsReady_heap {f : RemoteHeap → HeapM α} (h : ∀ heap, KeepsReady l (f heap)) :
    KeepsReady l (heapDo .heap >>= f) := fun m hm =>
  paced_do hm.holds fun heap => h heap m hm

theorem paced_flushPage {page : ℕ} {m : Mark} (hm : m.Ready) :
    Paced l (flushPage l page) m fun out m' =>
      match out with
      | .ok _ => m' = .clean page
      | _ => m' = .holding := by
  refine paced_do hm fun dirty => ?_
  cases dirty with
  | false => exact rfl
  | true =>
    refine paced_do rfl fun bytes => paced_do ⟨page, rfl, rfl⟩ fun answer => ?_
    cases answer with
    | some e => exact rfl
    | none =>
      refine paced_do rfl fun _ => wp_mono (paced_modify trivial) ?_
      rintro _ _ ⟨rfl, rfl⟩
      rfl

theorem keepsReady_flushPage {page : ℕ} : KeepsReady l (flushPage l page) := by
  intro m hm
  apply wp_mono (paced_flushPage hm)
  rintro (_ | e | x) _ rfl <;> trivial

theorem keepsReady_evictPage {page : ℕ} : KeepsReady l (evictPage l page) := by
  refine keepsReady_heap fun heap => ?_
  split
  · exact keepsReady_pure ()
  · intro m hm
    refine wp_bind.mpr (wp_tryCatch.mpr (wp_bind.mpr (wp_mono (paced_flushPage hm) ?_)))
    rintro (_ | e | x) _ rfl
    · refine paced_do rfl fun released => ?_
      cases released with
      | true => exact keepsReady_modify _ trivial
      | false => exact keepsReady_modify _ trivial
    · exact keepsReady_modify .holding trivial
    · trivial

theorem keepsReady_enforceBudget (rounds : ℕ) : KeepsReady l (enforceBudget l rounds) := by
  induction rounds with
  | zero => exact fun _ _ => trivial
  | succ rounds ih =>
    refine keepsReady_heap fun heap => ?_
    split
    · split
      · exact keepsReady_evictPage.bind fun _ => ih
      · exact keepsReady_pure ()
    · exact keepsReady_pure ()

theorem keepsReady_evictAll (rounds : ℕ) : KeepsReady l (evictAll l rounds) := by
  induction rounds with
  | zero => exact keepsReady_pure ()
  | succ rounds ih =>
    refine keepsReady_heap fun heap => ?_
    split
    · exact keepsReady_pure ()
    · refine keepsReady_evictPage.bind fun _ => keepsReady_heap fun heap' => ?_
      split
      · exact ih
      · exact keepsReady_pure ()

theorem keepsReady_forM (pages : List ℕ) : KeepsReady l (pages.forM (flushPage l)) := by
  induction pages with
  | nil => exact keepsReady_pure ()
  | cons page pages ih => exact keepsReady_flushPage.bind fun _ => ih

theorem paced_locked {body : HeapM α} {m : Mark} (hm : m.InOrder l .lock)
    (h : Paced l body (m.next l .lock ()) (Returned Ready)) :
    Paced l (locked body) m (Returned (· = .free)) := by
  refine paced_do hm fun _ => wp_bind.mpr (wp_tryCatch.mpr (wp_mono h ?_))
  rintro (a | e | x) m' hm'
  · exact paced_do hm' fun _ => rfl
  · exact paced_do hm' fun _ => rfl
  · trivial

theorem paced_flush : Paced l (flush l) .free (Returned (· = .free)) :=
  paced_locked (.inl rfl)
    (keepsReady_heap (fun heap => keepsReady_forM heap.pages) _ trivial)

theorem paced_flushAndEvictAll : Paced l (flushAndEvictAll l) .free (Returned (· = .free)) :=
  paced_locked (.inl rfl) (keepsReady_heap (fun _ => keepsReady_evictAll _) _ trivial)

def faultMark (l : HeapLayout) (addr : ℕ) : Mark :=
  if l.offset (addr / l.pageBytes) < l.capacity then .faulted (addr / l.pageBytes) else .free

theorem faultMark_of_lt {addr : ℕ} (h : addr < l.capacity) :
    faultMark l addr = .faulted (addr / l.pageBytes) :=
  if_pos (Nat.lt_of_le_of_lt (Nat.div_mul_le_self ..) h)

theorem faultMark_of_le {addr : ℕ} (h : l.capacity ≤ addr) : faultMark l addr = .free := by
  refine if_neg fun hlt => ?_
  have hend := HeapLayout.end_le_capacity hlt
  have hmod := Nat.mod_lt addr l.pageBytes_pos
  have hdiv := Nat.div_add_mod' addr l.pageBytes
  rw [HeapLayout.offset] at hend
  omega

theorem paced_handleFault {rounds addr : ℕ} {isWrite : Bool} :
    Paced l (handleFault l rounds addr isWrite) (faultMark l addr) (Returned (· = .free)) := by
  unfold handleFault
  split
  next h => exact faultMark_of_le h
  next h =>
    rw [faultMark_of_lt (Nat.lt_of_not_le h)]
    refine paced_do ⟨_, rfl, rfl, rfl⟩ fun answer => ?_
    cases answer with
    | error e => exact rfl
    | ok bytes =>
      by_cases hlen : bytes.length = l.length (addr / l.pageBytes)
      · simp only [Mark.next, hlen, if_true, ne_eq, not_true_eq_false, if_false]
        refine paced_locked (.inr ⟨_, _, rfl⟩) (paced_do rfl fun resolved => ?_)
        have hbudget : KeepsReady l (do
            modify (fetched l · (addr / l.pageBytes))
            enforceBudget l rounds
            return resolved) :=
          keepsReady_modify.bind fun _ =>
            (keepsReady_enforceBudget rounds).bind fun _ => keepsReady_pure resolved
        exact hbudget _ trivial
      · simp only [Mark.next, hlen, if_false, ne_eq, not_false_eq_true, if_true]
        exact rfl

theorem paced_serviceFault {rounds addr : ℕ} {isWrite : Bool} :
    Paced l (serviceFault l rounds addr isWrite) (faultMark l addr) (Returned (· = .free)) := by
  refine paced_bind paced_handleFault ?_ fun _ _ hm => hm
  rintro (_ | _) _ rfl
  · refine paced_do rfl fun again => ?_
    cases again <;> exact rfl
  · rfl

theorem paced_load (rounds addr : ℕ) :
    Paced l (load l rounds addr) .free (Returned (· = .free)) := by
  induction rounds with
  | zero => trivial
  | succ rounds ih =>
    refine paced_do ⟨rfl, Nat.mod_lt _ l.pageBytes_pos⟩ fun answer => ?_
    cases answer with
    | some b => exact rfl
    | none =>
      simp only [Mark.next, true_and]
      refine paced_bind paced_serviceFault ?_ fun _ _ hm => hm
      rintro _ _ rfl
      exact ih

theorem paced_store (rounds addr : ℕ) (v : Byte) :
    Paced l (store l rounds addr v) .free (Returned (· = .free)) := by
  induction rounds with
  | zero => trivial
  | succ rounds ih =>
    refine paced_do ⟨rfl, Nat.mod_lt _ l.pageBytes_pos⟩ fun answer => ?_
    cases answer with
    | true => exact rfl
    | false =>
      simp only [Mark.next, true_and]
      refine paced_bind paced_serviceFault ?_ fun _ _ hm => hm
      rintro _ _ rfl
      exact ih

end RemoteHeap

theorem HeapCall.paced_exec (c : HeapCall) (rounds : ℕ) :
    Paced l (c.exec l rounds) .free (Returned (· = .free)) := by
  cases c with
  | load addr =>
    exact paced_bind (RemoteHeap.paced_load rounds addr) (fun _ _ hm => hm) fun _ _ hm => hm
  | store addr v =>
    exact paced_bind (RemoteHeap.paced_store rounds addr v) (fun _ _ hm => hm) fun _ _ hm => hm
  | flush => exact paced_bind RemoteHeap.paced_flush (fun _ _ hm => hm) fun _ _ hm => hm
  | flushAndEvictAll =>
    exact paced_bind RemoteHeap.paced_flushAndEvictAll (fun _ _ hm => hm) fun _ _ hm => hm

end MemInfo
