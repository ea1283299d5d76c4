import Mathlib.Data.List.Nodup
import Mathlib.Data.List.Perm.Subperm
import MemInfo.Lib.Run
import MemInfo.Memclient.RemoteHeap

/-! # The bookkeeping of the remote heap

`resident_order_`, `resident_` and the byte count name the same pages, whatever the backend and
the client answer. Calls that return leave the resident bytes within the budget.
-/

namespace MemInfo

open Lib
open Lib.Prog (wp wp_bind wp_tryCatch wp_mono wp_iff Runs)

variable {l : HeapLayout} {heap heap' : RemoteHeap} {page id : ℕ}

structure Booked (l : HeapLayout) (heap : RemoteHeap) : Prop where
  indexed : ∀ page id, heap.resident.lookup page = some id ↔ ⟨id, page⟩ ∈ heap.residentOrder
  ids : (heap.residentOrder.map PageNode.id).Nodup
  fresh : ∀ n ∈ heap.residentOrder, n.id < heap.nextId
  inside : ∀ n ∈ heap.residentOrder, l.offset n.page < l.capacity
  bytes : heap.stats.residentBytes = l.pageBytes * heap.residentOrder.length

theorem booked_new : Booked l {} := by
  constructor <;> simp

theorem split_of_ids {nodes : List PageNode} {n : PageNode} (hids : (nodes.map PageNode.id).Nodup)
    (hn : n ∈ nodes) : ∃ older newer, nodes = older ++ n :: newer ∧
      nodes.filter (·.id ≠ n.id) = older ++ newer ∧ nodes.filter (·.id = n.id) = [n] := by
  obtain ⟨older, newer, rfl⟩ := List.append_of_mem hn
  rw [List.map_append, List.map_cons, List.nodup_middle, List.nodup_cons, ← List.map_append] at hids
  have hne : ∀ m ∈ older ++ newer, m.id ≠ n.id := fun m hm he =>
    hids.1 (he ▸ List.mem_map_of_mem hm)
  rw [List.forall_mem_append] at hne
  refine ⟨older, newer, rfl, ?_, ?_⟩
  · rw [List.filter_append, List.filter_cons_of_neg (by simp),
      List.filter_eq_self.mpr (by simpa using hne.1),
      List.filter_eq_self.mpr (by simpa using hne.2)]
  · rw [List.filter_append, List.filter_cons_of_pos (by simp),
      List.filter_eq_nil_iff.mpr (by simpa using hne.1),
      List.filter_eq_nil_iff.mpr (by simpa using hne.2), List.nil_append]

namespace Booked

variable (h : Booked l heap)

include h

theorem eq_of_page {n m : PageNode} (hn : n ∈ heap.residentOrder) (hm : m ∈ heap.residentOrder)
    (he : n.page = m.page) : n = m := by
  have h₁ := (h.indexed n.page n.id).mpr hn
  have h₂ := (h.indexed m.page m.id).mpr hm
  rw [he, h₂] at h₁
  exact List.inj_on_of_nodup_map h.ids hn hm (Option.some.inj h₁).symm

theorem nodup_pages : heap.pages.Nodup :=
  List.Nodup.map_on (fun _ hn _ hm he => h.eq_of_page hn hm he) (List.Nodup.of_map _ h.ids)

theorem mem_pages : page ∈ heap.pages ↔ (heap.resident.lookup page).isSome := by
  rw [Option.isSome_iff_exists, RemoteHeap.pages, List.mem_map]
  constructor
  · rintro ⟨n, hn, rfl⟩
    exact ⟨n.id, (h.indexed _ _).mpr hn⟩
  · rintro ⟨id, hid⟩
    exact ⟨_, (h.indexed _ _).mp hid, rfl⟩

theorem page_lt (hp : page ∈ heap.pages) : page < l.capacity / l.pageBytes := by
  obtain ⟨n, hn, rfl⟩ := List.mem_map.mp hp
  rw [Nat.lt_div_iff_mul_lt_of_dvd (Nat.ne_of_gt l.pageBytes_pos) l.whole]
  exact h.inside n hn

theorem length_le : heap.pages.length ≤ l.capacity / l.pageBytes := by
  have hsub : heap.pages ⊆ List.range (l.capacity / l.pageBytes) := fun p hp =>
    List.mem_range.mpr (h.page_lt hp)
  simpa using (h.nodup_pages.subperm hsub).length_le

theorem room (hnew : page ∉ heap.pages) (hin : l.offset page < l.capacity) :
    heap.pages.length + 1 ≤ l.capacity / l.pageBytes := by
  have hlt : page < l.capacity / l.pageBytes := by
    rw [Nat.lt_div_iff_mul_lt_of_dvd (Nat.ne_of_gt l.pageBytes_pos) l.whole]
    exact hin
  have hsub : page :: heap.pages ⊆ List.range (l.capacity / l.pageBytes) := by
    intro p hp
    rcases List.mem_cons.mp hp with rfl | hp
    · exact List.mem_range.mpr hlt
    · exact List.mem_range.mpr (h.page_lt hp)
  have hnodup : (page :: heap.pages).Nodup := List.nodup_cons.mpr ⟨hnew, h.nodup_pages⟩
  simpa using (hnodup.subperm hsub).length_le

theorem residentBytes_lt : heap.stats.residentBytes < 2 ^ 64 := by
  have hlen := h.length_le
  rw [RemoteHeap.pages, List.length_map] at hlen
  calc heap.stats.residentBytes
      = l.pageBytes * heap.residentOrder.length := h.bytes
    _ ≤ l.pageBytes * (l.capacity / l.pageBytes) := Nat.mul_le_mul_left _ hlen
    _ ≤ l.capacity := Nat.mul_div_le ..
    _ < 2 ^ 64 := l.capacity_lt

theorem of_perm (hperm : heap'.residentOrder.Perm heap.residentOrder)
    (hmap : heap'.resident = heap.resident) (hnext : heap'.nextId = heap.nextId)
    (hbytes : heap'.stats.residentBytes = heap.stats.residentBytes) : Booked l heap' where
  indexed page id := by rw [hmap, h.indexed, hperm.mem_iff]
  ids := (hperm.map _).nodup_iff.mpr h.ids
  fresh n hn := hnext ▸ h.fresh n (hperm.mem_iff.mp hn)
  inside n hn := h.inside n (hperm.mem_iff.mp hn)
  bytes := by rw [hbytes, h.bytes, hperm.length_eq]

theorem fetched (hin : l.offset page < l.capacity) : Booked l (heap.fetched l page) := by
  unfold RemoteHeap.fetched
  split
  next hnone =>
    have hnew : page ∉ heap.pages := by
      rw [h.mem_pages]
      simpa using hnone
    have hroom := h.room hnew hin
    rw [RemoteHeap.pages, List.length_map] at hroom
    constructor
    case indexed =>
      intro p id
      simp only [Dict.lookup_insert_iff, List.mem_append, List.mem_singleton, PageNode.mk.injEq]
      split_ifs with hp
      · subst hp
        simp only [Option.some.injEq, and_true]
        constructor
        · rintro rfl
          exact .inr rfl
        · rintro (hm | rfl)
          · exact absurd (List.mem_map_of_mem hm) hnew
          · rfl
      · simp only [h.indexed, hp, and_false, or_false]
    case ids =>
      simp only [List.map_append, List.map_cons, List.map_nil]
      apply h.ids.append (List.nodup_singleton _)
      simp only [List.disjoint_singleton, List.mem_map, not_exists, not_and]
      exact fun n hn he => Nat.lt_irrefl _ (he ▸ h.fresh n hn)
    case fresh =>
      intro n hn
      rcases List.mem_append.mp hn with hn | hn
      · exact Nat.lt_succ_of_lt (h.fresh n hn)
      · rw [List.mem_singleton.mp hn]
        exact Nat.lt_succ_self _
    case inside =>
      intro n hn
      rcases List.mem_append.mp hn with hn | hn
      · exact h.inside n hn
      · rw [List.mem_singleton.mp hn]
        exact hin
    case bytes =>
      have hlt : l.pageBytes * (heap.residentOrder.length + 1) < 2 ^ 64 :=
        Nat.lt_of_le_of_lt (Nat.le_trans (Nat.mul_le_mul_left _ hroom) (Nat.mul_div_le ..))
          l.capacity_lt
      simp only [List.length_append, List.length_singleton, HeapLayout.length_eq hin, h.bytes]
      rw [← Nat.mul_succ, wrap_of_lt hlt]
  next => exact h.of_perm (.refl _) rfl rfl rfl

theorem moveToBack (hl : heap.resident.lookup page = some id) : Booked l (heap.moveToBack id) := by
  refine h.of_perm ?_ rfl rfl rfl
  obtain ⟨older, newer, heq, hne, hself⟩ := split_of_ids h.ids ((h.indexed _ _).mp hl)
  rw [RemoteHeap.moveToBack, hne, hself, heq]
  exact List.perm_append_singleton .. |>.trans List.perm_middle.symm

theorem evicted (hl : heap.resident.lookup page = some id) :
    Booked l (heap.evicted l id page) := by
  have hmem := (h.indexed _ _).mp hl
  obtain ⟨older, newer, heq, hne, -⟩ := split_of_ids h.ids hmem
  have hlen : heap.residentOrder.length = (older ++ newer).length + 1 := by
    rw [heq]; simp; omega
  constructor
  case indexed =>
    intro p i
    simp only [RemoteHeap.evicted, Dict.lookup_erase_iff]
    split_ifs with hp
    · subst hp
      simp only [false_iff, List.mem_filter, not_and]
      intro hm
      have := h.eq_of_page hm hmem rfl
      simp_all
    · rw [h.indexed, List.mem_filter]
      refine ⟨fun hm => ⟨hm, ?_⟩, fun hm => hm.1⟩
      have hid : i ≠ id := by
        rintro rfl
        have he := List.inj_on_of_nodup_map h.ids hm hmem rfl
        exact hp (congrArg PageNode.page he)
      simpa using hid
  case ids => exact h.ids.sublist (List.filter_sublist.map _)
  case fresh => exact fun n hn => h.fresh n (List.mem_filter.mp hn).1
  case inside => exact fun n hn => h.inside n (List.mem_filter.mp hn).1
  case bytes =>
    have hle : l.pageBytes ≤ heap.stats.residentBytes := by
      rw [h.bytes, hlen, Nat.mul_succ]
      exact Nat.le_add_left ..
    simp only [RemoteHeap.evicted, hne, HeapLayout.length_eq (h.inside _ hmem)]
    rw [wrapSub_of_le hle h.residentBytes_lt, h.bytes, hlen, Nat.mul_succ, Nat.add_sub_cancel]

theorem bytes_le_iff :
    heap.stats.residentBytes ≤ l.localBudgetBytes ↔
      heap.residentOrder.length ≤ l.localBudgetBytes / l.pageBytes := by
  rw [h.bytes, Nat.le_div_iff_mul_le l.pageBytes_pos, Nat.mul_comm]

end Booked

/-! ## The programs -/

def bookEnv (ans : (o : HeapOp) → o.Res → Prop) :
    (o : HeapOp) → RemoteHeap → o.Res → RemoteHeap → Prop
  | .heap, heap, r, heap' => r = heap ∧ heap' = heap
  | .setHeap new, _, _, heap' => heap' = new
  | o, heap, r, heap' => ans o r ∧ heap' = heap

/-- A write-back that throws, or a page that cannot be released. -/
def HeapOp.Fails : (o : HeapOp) → o.Res → Prop
  | .write .., r => r ≠ none
  | .evictPages _, r => r = false
  | _, _ => False

abbrev Books (l : HeapLayout) (ans : (o : HeapOp) → o.Res → Prop) {α : Type} (p : HeapM α)
    (Q : Outcome HeapErr α → RemoteHeap → Prop) (heap : RemoteHeap) : Prop :=
  wp (bookEnv ans) (fun _ heap => Booked l heap) p Q heap

def RemoteHeap.withFlushes (heap : RemoteHeap) (n : ℕ) : RemoteHeap :=
  { heap with stats := { heap.stats with flushes := n } }

theorem Booked.withFlushes (h : Booked l heap) (n : ℕ) : Booked l (heap.withFlushes n) :=
  h.of_perm (.refl _) rfl rfl rfl

def Faulty (ans : (o : HeapOp) → o.Res → Prop) : Prop := ∃ o r, ans o r ∧ o.Fails r

def Attempted (l : HeapLayout) (ans : (o : HeapOp) → o.Res → Prop) (heap : RemoteHeap)
    (id page : ℕ) (heap' : RemoteHeap) : Prop :=
  ∃ n, heap' = (heap.withFlushes n).evicted l id page ∨
    Faulty ans ∧ heap' = (heap.withFlushes n).moveToBack id

section Programs

variable {ans : (o : HeapOp) → o.Res → Prop} {α : Type}

theorem Attempted.booked (ha : Attempted l ans heap id page heap') (h : Booked l heap)
    (hl : heap.resident.lookup page = some id) : Booked l heap' := by
  obtain ⟨n, rfl | ⟨-, rfl⟩⟩ := ha
  · exact (h.withFlushes n).evicted hl
  · exact (h.withFlushes n).moveToBack hl

theorem Booked.length_evicted (h : Booked l heap) (hl : heap.resident.lookup page = some id) :
    (heap.evicted l id page).residentOrder.length + 1 = heap.residentOrder.length := by
  obtain ⟨older, newer, heq, hne, -⟩ := split_of_ids h.ids ((h.indexed _ _).mp hl)
  rw [RemoteHeap.evicted, hne, heq]
  simp [Nat.add_assoc]

theorem Booked.length_moveToBack (h : Booked l heap) (hl : heap.resident.lookup page = some id) :
    (heap.moveToBack id).residentOrder.length = heap.residentOrder.length := by
  obtain ⟨older, newer, heq, hne, hself⟩ := split_of_ids h.ids ((h.indexed _ _).mp hl)
  rw [RemoteHeap.moveToBack, hne, hself, heq]
  simp

theorem Attempted.length (ha : Attempted l ans heap id page heap') (h : Booked l heap)
    (hl : heap.resident.lookup page = some id) :
    heap'.residentOrder.length + 1 = heap.residentOrder.length ∨
      Faulty ans ∧ heap'.residentOrder.length = heap.residentOrder.length := by
  obtain ⟨n, rfl | ⟨hf, rfl⟩⟩ := ha
  · exact .inl ((h.withFlushes n).length_evicted hl)
  · exact .inr ⟨hf, (h.withFlushes n).length_moveToBack hl⟩

theorem books_heap {f : RemoteHeap → HeapM α} {Q : Outcome HeapErr α → RemoteHeap → Prop}
    (h : Booked l heap) (hf : Books l ans (f heap) Q heap) :
    Books l ans (heapDo .heap >>= f) Q heap := by
  refine ⟨h, ?_⟩
  rintro _ _ ⟨rfl, rfl⟩
  exact hf

def HeapOp.Plain : HeapOp → Prop
  | .heap | .setHeap _ => False
  | _ => True

theorem books_do {o : HeapOp} {f : o.Res → HeapM α} {Q : Outcome HeapErr α → RemoteHeap → Prop}
    (ho : o.Plain) (h : Booked l heap) (hf : ∀ r, ans o r → Books l ans (f r) Q heap) :
    Books l ans (heapDo o >>= f) Q heap := by
  refine ⟨h, fun r heap' henv => ?_⟩
  obtain ⟨hans, rfl⟩ : ans o r ∧ heap' = heap := by
    cases o <;> first | exact henv | exact ho.elim
  exact hf r hans

theorem books_modify {f : RemoteHeap → RemoteHeap} {Q : Outcome HeapErr Unit → RemoteHeap → Prop}
    (h : Booked l heap) (hf : Q (.ok ()) (f heap)) : Books l ans (RemoteHeap.modify f) Q heap := by
  refine books_heap h ⟨h, ?_⟩
  rintro _ _ rfl
  exact hf

theorem books_flushPage (h : Booked l heap) :
    Books l ans (RemoteHeap.flushPage l page)
      (fun out heap' => (∃ n, heap' = heap.withFlushes n) ∧
        (out = .ok () ∨ (∃ e, out = .threw e) ∧ Faulty ans)) heap := by
  refine books_do trivial h fun dirty _ => ?_
  cases dirty with
  | false => exact ⟨⟨_, rfl⟩, .inl rfl⟩
  | true =>
    refine books_do trivial h fun bytes _ => books_do trivial h fun answer hans => ?_
    cases answer with
    | none => exact books_do trivial h fun _ _ => books_modify h ⟨⟨_, rfl⟩, .inl rfl⟩
    | some e => exact ⟨⟨_, rfl⟩, .inr ⟨⟨_, rfl⟩, _, _, hans, nofun⟩⟩

theorem books_evictPage (h : Booked l heap) (hl : heap.resident.lookup page = some id) :
    Books l ans (RemoteHeap.evictPage l page)
      (fun out heap' => out = .ok () ∧ Attempted l ans heap id page heap') heap := by
  apply books_heap h
  simp only [hl]
  refine wp_bind.mpr (wp_tryCatch.mpr (wp_bind.mpr (wp_mono (books_flushPage h) ?_)))
  rintro _ _ ⟨⟨n, rfl⟩, rfl | ⟨⟨e, rfl⟩, hfail⟩⟩
  · refine books_do trivial (h.withFlushes n) fun released hans => ?_
    cases released with
    | false => exact books_modify (h.withFlushes n) ⟨rfl, n, .inr ⟨⟨_, _, hans, rfl⟩, rfl⟩⟩
    | true => exact books_modify (h.withFlushes n) ⟨rfl, n, .inl rfl⟩
  · exact books_modify (h.withFlushes n) ⟨rfl, n, .inr ⟨hfail, rfl⟩⟩

theorem books_enforceBudget (rounds : ℕ) (h : Booked l heap) :
    Books l ans (RemoteHeap.enforceBudget l rounds)
      (fun out heap' => Booked l heap' ∧
        (out = .ok () ∧ heap'.stats.residentBytes ≤ l.localBudgetBytes ∨
          out = .aborted .diverges ∧ (Faulty ans ∨ rounds ≤ heap.residentOrder.length))) heap := by
  induction rounds generalizing heap with
  | zero => exact ⟨h, .inr ⟨rfl, .inr (Nat.zero_le _)⟩⟩
  | succ rounds ih =>
    apply books_heap h
    split
    next node next rest horder =>
      have hl : heap.resident.lookup node.page = some node.id :=
        (h.indexed _ _).mpr (horder ▸ List.mem_cons_self)
      split
      next hover =>
        refine wp_bind.mpr (wp_mono (books_evictPage h hl) ?_)
        rintro _ heap₁ ⟨rfl, ha⟩
        apply wp_mono (ih (ha.booked h hl))
        rintro out heap₂ ⟨hb, hend⟩
        refine ⟨hb, hend.imp_right fun ⟨hout, hwhy⟩ => ⟨hout, ?_⟩⟩
        rcases hwhy with hf | hle
        · exact .inl hf
        · rcases ha.length h hl with hlen | ⟨hf, -⟩
          · exact .inr (by omega)
          · exact .inl hf
      next hover => exact ⟨h, .inl ⟨rfl, Nat.le_of_not_lt hover⟩⟩
    next hshort =>
      refine ⟨h, .inl ⟨rfl, h.bytes_le_iff.mpr ?_⟩⟩
      have hone : 1 ≤ l.localBudgetBytes / l.pageBytes :=
        Nat.div_pos l.pageBytes_le_budget l.pageBytes_pos
      match horder : heap.residentOrder with
      | [] => exact Nat.zero_le _
      | [_] => exact hone
      | node :: next :: rest => exact absurd horder (hshort node next rest)

theorem books_locked {body : HeapM α} {Q : Outcome HeapErr α → RemoteHeap → Prop}
    (h : Booked l heap) (hbody : Books l ans body Q heap)
    (hQ : ∀ out heap', Q out heap' → Booked l heap') :
    Books l ans (RemoteHeap.locked body) Q heap := by
  refine books_do trivial h fun _ _ => wp_bind.mpr (wp_tryCatch.mpr (wp_mono hbody ?_))
  rintro (a | e | x) heap' hq
  · exact books_do trivial (hQ _ _ hq) fun _ _ => hq
  · exact books_do trivial (hQ _ _ hq) fun _ _ => hq
  · exact hq

/-- The books after a call: it has kept to the budget, or its loop does not end, which takes a
failure. -/
def Settled (l : HeapLayout) (ans : (o : HeapOp) → o.Res → Prop) (rounds : ℕ) (heap : RemoteHeap)
    (out : Outcome HeapErr α) (heap' : RemoteHeap) : Prop :=
  Booked l heap' ∧
    ((∀ x, out ≠ .aborted x) ∧ heap'.stats.residentBytes ≤ l.localBudgetBytes ∨
      out = .aborted .diverges ∧ (Faulty ans ∨ rounds ≤ heap.residentOrder.length + 1))

theorem books_handleFault (ans : (o : HeapOp) → o.Res → Prop) {rounds addr : ℕ} {isWrite : Bool}
    (h : Booked l heap)
    (hle : heap.stats.residentBytes ≤ l.localBudgetBytes) :
    Books l ans (RemoteHeap.handleFault l rounds addr isWrite)
      (fun out heap' => Settled l ans rounds heap out heap' ∧ ∀ e, out ≠ .threw e) heap := by
  have hsame : Settled l ans rounds heap (.ok false : Outcome HeapErr Bool) heap ∧
      ∀ e : HeapErr, (.ok false : Outcome HeapErr Bool) ≠ .threw e :=
    ⟨⟨h, .inl ⟨nofun, hle⟩⟩, nofun⟩
  unfold RemoteHeap.handleFault
  split
  next => exact hsame
  next hlt =>
    have hin : l.offset (addr / l.pageBytes) < l.capacity :=
      Nat.lt_of_le_of_lt (Nat.div_mul_le_self ..) (Nat.lt_of_not_le hlt)
    refine books_do trivial h fun answer _ => ?_
    cases answer with
    | error e => exact hsame
    | ok bytes =>
      dsimp only
      split
      next => exact hsame
      next =>
        refine books_locked h (books_do trivial h fun resolved _ => ?_) fun _ _ hq => hq.1.1
        refine wp_bind.mpr (books_modify h (wp_bind.mpr
          (wp_mono (books_enforceBudget rounds (h.fetched hin)) ?_)))
        have hlen : (heap.fetched l (addr / l.pageBytes)).residentOrder.length ≤
            heap.residentOrder.length + 1 := by
          unfold RemoteHeap.fetched
          split <;> simp
        rintro _ heap' ⟨hb, ⟨rfl, hbudget⟩ | ⟨rfl, hwhy⟩⟩
        · exact ⟨⟨hb, .inl ⟨nofun, hbudget⟩⟩, nofun⟩
        · exact ⟨⟨hb, .inr ⟨rfl, hwhy.imp_right fun hr => by omega⟩⟩, nofun⟩

theorem books_forM (pages : List ℕ) (h : Booked l heap) :
    Books l ans (pages.forM (RemoteHeap.flushPage l))
      (fun out heap' => (∃ n, heap' = heap.withFlushes n) ∧ ∀ x, out ≠ .aborted x) heap := by
  induction pages generalizing heap with
  | nil => exact ⟨⟨_, rfl⟩, nofun⟩
  | cons page pages ih =>
    refine wp_bind.mpr (wp_mono (books_flushPage h) ?_)
    rintro _ _ ⟨⟨n, rfl⟩, rfl | ⟨⟨e, rfl⟩, -⟩⟩
    · exact wp_mono (ih (h.withFlushes n)) fun out heap' ⟨⟨k, hk⟩, hout⟩ => ⟨⟨k, hk⟩, hout⟩
    · exact ⟨⟨n, rfl⟩, nofun⟩

theorem books_evictAll (rounds : ℕ) (h : Booked l heap) :
    Books l ans (RemoteHeap.evictAll l rounds)
      (fun out heap' => out = .ok () ∧ Booked l heap' ∧
        heap'.residentOrder.length ≤ heap.residentOrder.length ∧
        (heap.residentOrder.length ≤ rounds → heap'.residentOrder = [] ∨ Faulty ans)) heap := by
  induction rounds generalizing heap with
  | zero =>
    refine ⟨rfl, h, Nat.le_refl _, fun hle => .inl ?_⟩
    exact List.length_eq_zero_iff.mp (Nat.le_zero.mp hle)
  | succ rounds ih =>
    apply books_heap h
    split
    next hnil => exact ⟨rfl, h, Nat.le_refl _, fun _ => .inl hnil⟩
    next node rest horder =>
      have hl : heap.resident.lookup node.page = some node.id :=
        (h.indexed _ _).mpr (horder ▸ List.mem_cons_self)
      refine wp_bind.mpr (wp_mono (books_evictPage h hl) ?_)
      rintro _ heap₁ ⟨rfl, ha⟩
      have hb := ha.booked h hl
      apply books_heap hb
      rcases ha.length h hl with hlen | ⟨hf, hlen⟩
      · rw [if_pos (by omega)]
        apply wp_mono (ih hb)
        rintro out heap₂ ⟨rfl, hb₂, hle, hall⟩
        exact ⟨rfl, hb₂, by omega, fun hr => hall (by omega)⟩
      · rw [if_neg (by omega)]
        exact ⟨rfl, hb, by omega, fun _ => .inr hf⟩

theorem books_flushAndEvictAll (ans : (o : HeapOp) → o.Res → Prop) (h : Booked l heap) :
    Books l ans (RemoteHeap.flushAndEvictAll l)
      (fun out heap' => (out = .ok () ∧ Booked l heap') ∧
        heap'.residentOrder.length ≤ heap.residentOrder.length ∧
        (heap'.residentOrder = [] ∨ Faulty ans)) heap := by
  refine books_locked h (books_heap h (wp_mono (books_evictAll _ h) ?_)) fun _ _ hq => hq.1.2
  rintro _ heap' ⟨rfl, hb, hlen, hall⟩
  exact ⟨⟨rfl, hb⟩, hlen, hall (Nat.le_refl _)⟩

end Programs

/-! ## Runs -/

/-- What the application and the OS ask of the heap. Faults may be anywhere, also on a page
that is resident. -/
inductive HeapEvent where
  | fault (addr : ℕ) (isWrite : Bool)
  | flush
  | flushAndEvictAll
  deriving DecidableEq, Repr

def HeapEvent.exec (l : HeapLayout) (rounds : ℕ) : HeapEvent → HeapM Unit
  | .fault addr isWrite => do let _ ← RemoteHeap.handleFault l rounds addr isWrite
  | .flush => RemoteHeap.flush l
  | .flushAndEvictAll => RemoteHeap.flushAndEvictAll l

/-- An event whose call returns or throws, whatever is answered. -/
def HeapEvent.Returns (l : HeapLayout) (heap : RemoteHeap) (e : HeapEvent)
    (out : Outcome HeapErr Unit) (heap' : RemoteHeap) : Prop :=
  (∀ x, out ≠ .aborted x) ∧
    ∃ rounds, Runs (bookEnv fun _ _ => True) (e.exec l rounds) heap out heap'

def Faultless (o : HeapOp) (r : o.Res) : Prop := ¬ o.Fails r

theorem not_faulty_faultless : ¬ Faulty Faultless := fun ⟨_, _, hok, hfail⟩ => hok hfail

theorem books_exec (ans : (o : HeapOp) → o.Res → Prop) (e : HeapEvent) (rounds : ℕ)
    (h : Booked l heap) (hle : heap.stats.residentBytes ≤ l.localBudgetBytes) :
    Books l ans (e.exec l rounds) (Settled l ans rounds heap) heap := by
  cases e with
  | fault addr isWrite =>
    refine wp_bind.mpr (wp_mono (books_handleFault ans h hle) ?_)
    rintro (r | e | x) heap' ⟨⟨hb, hend⟩, hthrew⟩
    · refine ⟨hb, .inl ⟨nofun, (hend.resolve_right ?_).2⟩⟩
      rintro ⟨⟨⟩, -⟩
    · exact absurd rfl (hthrew e)
    · refine ⟨hb, hend.imp (fun ⟨hne, _⟩ => absurd rfl (hne x)) ?_⟩
      rintro ⟨⟨⟩, hwhy⟩
      exact ⟨rfl, hwhy⟩
  | flush =>
    have hbody : Books l ans (do
        let heap ← heapDo .heap
        heap.pages.forM (RemoteHeap.flushPage l)) (Settled l ans rounds heap) heap := by
      refine books_heap h (wp_mono (books_forM _ h) ?_)
      rintro out _ ⟨⟨n, rfl⟩, hout⟩
      exact ⟨h.withFlushes n, .inl ⟨hout, hle⟩⟩
    exact books_locked h hbody fun _ _ hq => hq.1
  | flushAndEvictAll =>
    apply wp_mono (books_flushAndEvictAll ans h)
    rintro _ heap' ⟨⟨rfl, hb⟩, hlen, -⟩
    refine ⟨hb, .inl ⟨nofun, hb.bytes_le_iff.mpr ?_⟩⟩
    exact Nat.le_trans hlen (h.bytes_le_iff.mp hle)

theorem booked_run {tr : List (HeapEvent × Outcome HeapErr Unit)}
    (hrun : Allowed (HeapEvent.Returns l) {} tr heap) :
    Booked l heap ∧ heap.stats.residentBytes ≤ l.localBudgetBytes := by
  refine hrun.invariant (P := fun _ => True)
    (I := fun heap => Booked l heap ∧ heap.stats.residentBytes ≤ l.localBudgetBytes) ?_
    (fun _ _ => trivial) ⟨booked_new, Nat.zero_le _⟩
  rintro heap e out heap' - ⟨h, hle⟩ ⟨hend, rounds, hr⟩
  obtain ⟨hb, hq⟩ := (wp_iff.mp (books_exec (fun _ _ => True) e rounds h hle)).2 out heap' hr
  refine ⟨hb, (hq.resolve_right ?_).2⟩
  rintro ⟨rfl, -⟩
  exact hend _ rfl

/-- The list names the pages of the map, each once and all inside the region, and the byte
count is that of the pages, so that taking a page off does not underflow. -/
structure Accounts (l : HeapLayout) (heap : RemoteHeap) : Prop where
  nodup : heap.pages.Nodup
  keys : ∀ page, page ∈ heap.pages ↔ (heap.resident.lookup page).isSome
  below : ∀ page ∈ heap.pages, page < l.capacity / l.pageBytes
  bytes : heap.stats.residentBytes = l.pageBytes * heap.pages.length
  covers : ∀ page ∈ heap.pages, l.length page ≤ heap.stats.residentBytes

theorem Booked.accounts (h : Booked l heap) : Accounts l heap where
  nodup := h.nodup_pages
  keys _ := h.mem_pages
  below _ := h.page_lt
  bytes := by rw [h.bytes, RemoteHeap.pages, List.length_map]
  covers page hp := by
    have hpos : 0 < heap.residentOrder.length := by
      have := List.length_pos_of_mem hp
      rwa [RemoteHeap.pages, List.length_map] at this
    rw [h.bytes]
    exact Nat.le_trans HeapLayout.length_le (Nat.le_mul_of_pos_right _ hpos)

def bookHandler : (o : HeapOp) → RemoteHeap → o.Res × RemoteHeap
  | .heap, heap => (heap, heap)
  | .setHeap new, _ => ((), new)
  | .load .., heap => (none, heap)
  | .read _ length, heap => (.ok (List.replicate length 0), heap)
  | .write .., heap => (none, heap)
  | .store .., heap | .isDirty _, heap | .unresolved _, heap => (false, heap)
  | .resolveFault .., heap | .evictPages _, heap => (true, heap)
  | .copy _, heap => ([], heap)
  | .clearDirty _, heap | .lock, heap | .unlock, heap => ((), heap)

theorem bookHandler_allowed (o : HeapOp) (heap : RemoteHeap) :
    bookEnv (fun _ _ => True) o heap (bookHandler o heap).1 (bookHandler o heap).2 := by
  cases o with
  | heap => exact ⟨rfl, rfl⟩
  | setHeap new => exact rfl
  | _ => exact ⟨trivial, rfl⟩

theorem returns_bookHandler {e : HeapEvent} {heap : RemoteHeap} (rounds : ℕ)
    (hend : ∀ x, ((e.exec l rounds).eval bookHandler heap).1 ≠ .aborted x) :
    e.Returns l heap ((e.exec l rounds).eval bookHandler heap).1
      ((e.exec l rounds).eval bookHandler heap).2 :=
  ⟨hend, rounds, (Prog.runs_eval (I := fun _ => True)
    (fun o heap _ => ⟨bookHandler_allowed o heap, trivial⟩) _ trivial).1⟩

/-- The bookkeeping is right after every sequence of faults, flushes and full evictions, and at
every effect of a further one. A fault without failures is handled within the budget, and a
full eviction without failures leaves nothing. -/
theorem residency_bookkeeping {tr : List (HeapEvent × Outcome HeapErr Unit)}
    (hrun : Allowed (HeapEvent.Returns l) {} tr heap) :
    Accounts l heap ∧
    (∀ (e : HeapEvent) (rounds : ℕ),
      Prog.Always (bookEnv fun _ _ => True) (fun _ heap' => Accounts l heap')
        (e.exec l rounds) heap) ∧
    (∀ addr isWrite rounds out heap', heap.pages.length + 1 < rounds →
      Runs (bookEnv Faultless) (RemoteHeap.handleFault l rounds addr isWrite) heap out heap' →
      (∃ resolved, out = .ok resolved) ∧ heap'.stats.residentBytes ≤ l.localBudgetBytes) ∧
    ∀ out heap', Runs (bookEnv Faultless) (RemoteHeap.flushAndEvictAll l) heap out heap' →
      out = .ok () ∧ heap'.pages = [] ∧ ∀ page, heap'.resident.lookup page = none := by
  obtain ⟨h, hle⟩ := booked_run hrun
  refine ⟨h.accounts, fun e rounds => ?_, ?_, ?_⟩
  · exact (wp_iff.mp (books_exec (fun _ _ => True) e rounds h hle)).1.mono fun _ _ hb => hb.accounts
  · intro addr isWrite rounds out heap' hrounds hr
    obtain ⟨⟨hb, hend⟩, hthrew⟩ :=
      (wp_iff.mp (books_handleFault Faultless h hle)).2 out heap' hr
    rw [RemoteHeap.pages, List.length_map] at hrounds
    rcases hend with ⟨hne, hbudget⟩ | ⟨-, hf | hle'⟩
    · refine ⟨?_, hbudget⟩
      cases out with
      | ok r => exact ⟨r, rfl⟩
      | threw e => exact absurd rfl (hthrew e)
      | aborted x => exact absurd rfl (hne x)
    · exact absurd hf not_faulty_faultless
    · omega
  · intro out heap' hr
    obtain ⟨⟨hout, hb⟩, -, hempty⟩ :=
      (wp_iff.mp (books_flushAndEvictAll Faultless h)).2 out heap' hr
    have hnil : heap'.pages = [] := by
      rw [RemoteHeap.pages, hempty.resolve_right not_faulty_faultless, List.map_nil]
    refine ⟨hout, hnil, fun page => ?_⟩
    have hkeys := hb.accounts.keys page
    rw [hnil] at hkeys
    simpa using hkeys

/-- Faults on both pages of a heap that has room for one. -/
theorem residency_bookkeeping_two_faults :
    ∃ heap, Allowed (HeapEvent.Returns smallLayout) {}
      [(.fault 0 true, .ok ()), (.fault 2 false, .ok ())] heap ∧
      heap.pages = [1] ∧ Accounts smallLayout heap := by
  have hrun : Allowed (HeapEvent.Returns smallLayout) {}
      [(.fault 0 true, .ok ()), (.fault 2 false, .ok ())] _ :=
    .cons (returns_bookHandler 3 nofun) (.cons (returns_bookHandler 3 nofun) (.nil _))
  exact ⟨_, hrun, rfl, (residency_bookkeeping hrun).1⟩

end MemInfo
