import Mathlib.Data.Fintype.Basic
import MemInfo.Lib.Threads
import MemInfo.Memoryd.CriticalSections

/-! # Several threads on the page tracker

`read` and `write` go through the pages of a handle after they have left `mutex_`. A page that
has been freed and handed out again by then belongs to another handle, and a look at its state
does not tell. As long as no handle is freed while it is accessed, calls for one handle stay away
from the pages of the others.
-/

namespace MemInfo

open Lib Prog

def Op.target : Op → Option ℕ
  | .write handle _ _ _ => some handle
  | .read handle _ _ _ => some handle
  | _ => none

namespace TrackerM

variable {α : Type}

def nextPage : TrackerM α → Option ℕ
  | .op (.writePage p _ _) _ => some p
  | .op (.readPage p _ _) _ => some p
  | _ => none

def inHand : TrackerM α → List ℕ
  | .op (.record _ pages) _ => pages
  | _ => []

end TrackerM

structure KeepsApart {ι : Type} (ops : ι → Op) (T : ι → TrackerM Reply) (t : PageTracker) :
    Prop where
  /-- A step of `write` leaves the bytes of all other handles as they are. -/
  write : ∀ i h offset data ownerId, ops i = .write h offset data ownerId →
    ∀ o k, T i = .op o k → ∀ h' ≠ h, (t.enter o).2.view h' = t.view h'
  /-- `read` takes no bytes from a page of another handle. -/
  read : ∀ i h offset size ownerId, ops i = .read h offset size ownerId →
    ∀ p ∈ (T i).nextPage, ∀ h' ≠ h, ∀ a, t.allocations.lookup h' = some a → p ∉ a.pages
  /-- No call touches a page that is to be recorded for a new handle. -/
  unrecorded : ∀ i j, ∀ p ∈ (T i).nextPage, p ∉ (T j).inHand

def CriticalSection.Frees (t : PageTracker) (h : ℕ) : CriticalSection → Prop
  | .free handle ownerId => handle = h ∧ (t.checkOwnership handle ownerId).isOk = true
  | .freeAllForOwner _ ownerId =>
    ownerId ≠ 0 ∧ (t.allocations.lookup h).map Allocation.ownerId = some ownerId
  | _ => False

/-- The next section does not free a handle with a call between its look at the page list and its
last page. -/
def Undisturbed {ι : Type} (ops : ι → Op) (T : ι → TrackerM Reply) (t : PageTracker) (_ : ι)
    (o : CriticalSection) : Prop :=
  ∀ j, ∀ h ∈ (ops j).target, (T j).nextPage ≠ none → ¬ o.Frees t h

def trackerEnv {ι : Type} (_ : ι) (o : CriticalSection) (t : PageTracker) (r : o.Res)
    (t' : PageTracker) : Prop :=
  (r, t') = t.enter o

section Contract

inductive Stage where
  | idle
  | accessing (pages : List ℕ)
  | taking (pages : List ℕ)

namespace Stage

def contract : (o : CriticalSection) → Stage → o.Res → Stage → Prop
  | .find _ _, _, .ok a, st' => st' = .accessing a.pages
  | .allocatePages count, _, .ok pages, st' => st' = .taking pages ∧ pages.length = count
  | .writePage _ _ _, st, _, st' => st' = st
  | .readPage _ _ _, st, _, st' => st' = st
  | _, _, _, st' => st' = .idle

def demand (pageSize : ℕ) (op : Op) : CriticalSection → Stage → Prop
  | .find h _, _ => op.target = some h
  | .writePage p _ _, st => op.target ≠ none ∧ ∃ pages, st = .accessing pages ∧ p ∈ pages
  | .readPage p _ _, st => op.target ≠ none ∧ ∃ pages, st = .accessing pages ∧ p ∈ pages
  | .record size pages, st => op.target = none ∧
      st = .taking pages ∧ 0 < size ∧ pages.length = size ⌈/⌉ pageSize
  | _, _ => op.target = none

end Stage

abbrev Keeps (pageSize : ℕ) (op : Op) {α : Type} (p : TrackerM α) (st : Stage) : Prop :=
  wp Stage.contract (Stage.demand pageSize op) p (fun _ _ => True) st

variable {pageSize : ℕ} {op : Op} {st : Stage} {α β : Type}

theorem keeps_bind {p : TrackerM α} {f : α → TrackerM β} (hp : Keeps pageSize op p st)
    (hf : ∀ a st', Keeps pageSize op (f a) st') : Keeps pageSize op (p >>= f) st := by
  apply wp_bind.mpr
  apply wp_mono hp
  rintro (a | e | x) st' -
  · exact hf a st'
  · trivial
  · trivial

theorem keeps_leave {r : Except Err α} {f : α → TrackerM β}
    (hf : ∀ a, r = .ok a → Keeps pageSize op (f a) st) :
    Keeps pageSize op (TrackerM.leave r >>= f) st := by
  cases r with
  | ok a => exact hf a rfl
  | error e => trivial

theorem keeps_find {handle ownerId : ℕ} {f : Allocation → TrackerM β}
    (ht : op.target = some handle) (hf : ∀ a, Keeps pageSize op (f a) (.accessing a.pages)) :
    Keeps pageSize op (TrackerM.enter (.find handle ownerId) >>= fun r => TrackerM.leave r >>= f)
      st := by
  refine ⟨ht, fun r st' hr => keeps_leave ?_⟩
  rintro a rfl
  obtain rfl : st' = .accessing a.pages := hr
  exact hf a

theorem keeps_writePages {pages : List ℕ} (ht : op.target ≠ none) (offset : ℕ) (data : List Byte)
    (fuel dataIdx : ℕ) :
    Keeps pageSize op (TrackerM.writePages pageSize pages offset data fuel dataIdx)
      (.accessing pages) := by
  induction fuel generalizing dataIdx with
  | zero => trivial
  | succ fuel ih =>
    unfold TrackerM.writePages
    split_ifs
    · dsimp only
      split
      · trivial
      · rename_i p hp
        refine ⟨⟨ht, pages, rfl, List.mem_of_getElem? hp⟩, ?_⟩
        rintro r st' rfl
        exact keeps_leave fun _ _ => ih _
    · trivial

theorem keeps_readPages {pages : List ℕ} (ht : op.target ≠ none) (offset size fuel : ℕ)
    (out : List Byte) :
    Keeps pageSize op (TrackerM.readPages pageSize pages offset size fuel out)
      (.accessing pages) := by
  induction fuel generalizing out with
  | zero => trivial
  | succ fuel ih =>
    unfold TrackerM.readPages
    split_ifs
    · dsimp only
      split
      · trivial
      · rename_i p hp
        refine ⟨⟨ht, pages, rfl, List.mem_of_getElem? hp⟩, ?_⟩
        rintro r st' rfl
        exact keeps_leave fun _ _ => ih _
    · trivial

theorem keeps_allocate {size : ℕ} (ht : op.target = none) :
    Keeps pageSize op (TrackerM.allocate pageSize size) .idle := by
  unfold TrackerM.allocate
  split_ifs with hz hbig
  · trivial
  · trivial
  · refine ⟨ht, fun r st' hr => keeps_leave ?_⟩
    rintro pages rfl
    obtain ⟨rfl, hlen⟩ := hr
    rw [PageTracker.pagesNeeded_eq hz hbig] at hlen
    exact ⟨⟨ht, rfl, Nat.pos_of_ne_zero hz, hlen⟩, fun _ _ _ => trivial⟩

theorem keeps_exec (pageSize : ℕ) (op : Op) : Keeps pageSize op (op.exec pageSize) .idle := by
  cases op with
  | allocate size => exact keeps_bind (keeps_allocate rfl) fun _ _ => trivial
  | assignOwner handle ownerId => exact ⟨rfl, fun _ _ _ => trivial⟩
  | write handle offset data ownerId =>
    refine keeps_bind ?_ fun _ _ => trivial
    unfold TrackerM.write
    split_ifs
    · trivial
    · refine keeps_find rfl fun a => ?_
      split_ifs
      · trivial
      · apply keeps_writePages
        exact Option.some_ne_none handle
  | read handle offset size ownerId =>
    refine keeps_bind ?_ fun _ _ => trivial
    unfold TrackerM.read
    split_ifs
    · trivial
    · refine keeps_find rfl fun a => ?_
      split_ifs
      · trivial
      · apply keeps_readPages
        exact Option.some_ne_none handle
  | free handle ownerId =>
    refine keeps_bind ⟨rfl, fun r _ _ => ?_⟩ fun _ _ => trivial
    cases r with
    | ok u => trivial
    | error e => trivial
  | freeAllForOwner ord ownerId => exact ⟨rfl, fun _ _ _ => trivial⟩

theorem Keeps.demand_page {p : TrackerM α} (hk : Keeps pageSize op p st) {page : ℕ}
    (hp : page ∈ p.nextPage) :
    op.target ≠ none ∧ ∃ pages, st = .accessing pages ∧ page ∈ pages := by
  match p, hk, hp with
  | .op (.writePage _ _ _) _, hk, hp =>
    obtain rfl := Option.some.inj hp
    exact hk.1
  | .op (.readPage _ _ _) _, hk, hp =>
    obtain rfl := Option.some.inj hp
    exact hk.1

theorem Keeps.demand_record {p : TrackerM α} (hk : Keeps pageSize op p st) {page : ℕ}
    (hp : page ∈ p.inHand) : ∃ pages, st = .taking pages ∧ page ∈ pages := by
  match p, hk, hp with
  | .op (.record _ pages) _, hk, hp => exact ⟨pages, hk.1.2.1, hp⟩

end Contract

/-- The page is out of reach for all handles but `h`. -/
structure Exclusive {ι : Type} (st : ι → Stage) (t : PageTracker) (h p : ℕ) : Prop where
  notFree : p ∉ t.allocator.freeList
  others : ∀ {k a}, t.allocations.lookup k = some a → p ∈ a.pages → k = h
  notTaken : ∀ {j pages}, st j = .taking pages → p ∉ pages

structure Conforms {ι : Type} (ops : ι → Op) (pageSize : ℕ) (T : ι → TrackerM Reply)
    (st : ι → Stage) (t : PageTracker) : Prop where
  inv : t.Inv
  pageSize_eq : t.allocator.pageSize = pageSize
  accessed : ∀ {i h pages}, (ops i).target = some h → (T i).nextPage ≠ none →
    st i = .accessing pages → ∀ p ∈ pages, Exclusive st t h p
  taken : ∀ {i pages}, st i = .taking pages →
    pages.Nodup ∧ ∀ p ∈ pages, p < t.allocator.totalPages ∧ p ∉ t.allPages
  disjoint : ∀ {i j pages pages'}, i ≠ j → st i = .taking pages → st j = .taking pages' →
    pages.Disjoint pages'

section Moves

variable {ι : Type} {ops : ι → Op} {pageSize : ℕ} {T : ι → TrackerM Reply} {st : ι → Stage}
  {t t' : PageTracker} {i : ι}

theorem Conforms.move (ha : Conforms ops pageSize T st t) (hi : t'.Inv)
    (hsize : t'.allocator.pageSize = t.allocator.pageSize)
    (htotal : t'.allocator.totalPages = t.allocator.totalPages)
    (hacc : ∀ {i h pages}, (ops i).target = some h → (T i).nextPage ≠ none →
      st i = .accessing pages → ∀ p ∈ pages, p ∉ t'.allocator.freeList ∧
        ∀ {k a}, t'.allocations.lookup k = some a → p ∈ a.pages → k = h)
    (htak : ∀ {i pages}, st i = .taking pages → ∀ p ∈ pages, p ∉ t'.allPages) :
    Conforms ops pageSize T st t' where
  inv := hi
  pageSize_eq := hsize.trans ha.pageSize_eq
  accessed ht hn hs p hp := by
    obtain ⟨hfree, hothers⟩ := hacc ht hn hs p hp
    exact ⟨hfree, hothers, (ha.accessed ht hn hs p hp).notTaken⟩
  taken hs := by
    obtain ⟨hnd, hp⟩ := ha.taken hs
    refine ⟨hnd, fun p hm => ⟨?_, htak hs p hm⟩⟩
    rw [htotal]
    exact (hp p hm).1
  disjoint := ha.disjoint

theorem Conforms.setBuffer (ha : Conforms ops pageSize T st t) (b : ℕ → Byte) :
    Conforms ops pageSize T st { t with allocator := { t.allocator with buffer := b } } := by
  apply ha.move (ha.inv.setBuffer b) rfl rfl
  · exact fun ht hn hs p hp => ⟨(ha.accessed ht hn hs p hp).notFree,
      (ha.accessed ht hn hs p hp).others⟩
  · exact fun hs p hp => ((ha.taken hs).2 p hp).2

theorem Conforms.take (ha : Conforms ops pageSize T st t) {n : ℕ}
    (hn : n ≤ t.allocator.freeList.length) :
    Conforms ops pageSize T st
      { t with allocator := t.allocator.taken (t.allocator.freeList.take n) } := by
  have hsub : t.allocator.freeList.drop (t.allocator.freeList.take n).length ⊆
      t.allocator.freeList := List.drop_subset _ _
  apply ha.move (ha.inv.take hn) rfl rfl
  · intro i h pages ht hnext hs p hp
    have hexcl := ha.accessed ht hnext hs p hp
    exact ⟨fun hm => hexcl.notFree (hsub hm), hexcl.others⟩
  · intro i pages hs p hp hm
    apply ((ha.taken hs).2 p hp).2
    rcases List.mem_append.mp hm with hm | hm
    · exact List.mem_append_left _ (hsub hm)
    · exact List.mem_append_right _ hm

theorem Conforms.record (ha : Conforms ops pageSize T st t) {size : ℕ} {pages : List ℕ}
    (hs : 0 < size) (hlen : pages.length = size ⌈/⌉ pageSize) (hnd : pages.Nodup)
    (hp : ∀ p ∈ pages, p < t.allocator.totalPages ∧ p ∉ t.allPages)
    (hacc : ∀ {i h ps}, (ops i).target = some h → (T i).nextPage ≠ none →
      st i = .accessing ps → ps.Disjoint pages)
    (htak : ∀ {i ps}, st i = .taking ps → ps.Disjoint pages) :
    Conforms ops pageSize T st (t.record size pages) := by
  have hlookup {k a} (hk : (t.record size pages).allocations.lookup k = some a) :
      a.pages = pages ∨ t.allocations.lookup k = some a := by
    rw [PageTracker.record, Dict.lookup_insert_iff] at hk
    split_ifs at hk
    · obtain rfl := Option.some.inj hk
      exact .inl rfl
    · exact .inr hk
  apply ha.move (ha.inv.record hs (ha.pageSize_eq ▸ hlen) hnd hp) rfl rfl
  · intro i h ps ht hnext hst p hm
    have hexcl := ha.accessed ht hnext hst p hm
    refine ⟨hexcl.notFree, fun hk hpa => ?_⟩
    rcases hlookup hk with he | hk
    · exact absurd (he ▸ hpa) (hacc ht hnext hst hm)
    · exact hexcl.others hk hpa
  · intro i ps hst p hm hall
    rcases List.mem_append.mp hall with hf | hheld
    · exact ((ha.taken hst).2 p hm).2 (List.mem_append_left _ hf)
    · obtain ⟨k, a, hk, hpa⟩ := PageTracker.mem_heldPages.mp hheld
      rcases hlookup hk with he | hk
      · exact htak hst hm (he ▸ hpa)
      · apply ((ha.taken hst).2 p hm).2
        exact List.mem_append_right _ (PageTracker.mem_heldPages.mpr ⟨k, a, hk, hpa⟩)

/-- A handle that no call is accessing is freed. -/
theorem Conforms.release (ha : Conforms ops pageSize T st t) {h : ℕ} {a : Allocation}
    (hl : t.allocations.lookup h = some a)
    (hquiet : ∀ i, (ops i).target = some h → (T i).nextPage = none) :
    Conforms ops pageSize T st (t.release h a) := by
  have hperm := ha.inv.allPages_release hl
  have hrel := ha.inv.release hl
  rw [ha.inv.release_eq hl] at hperm hrel ⊢
  apply ha.move hrel rfl rfl
  · intro i h' pages ht hnext hs p hp
    have hexcl := ha.accessed ht hnext hs p hp
    constructor
    · intro hm
      rcases List.mem_append.mp hm with hm | hm
      · obtain rfl := hexcl.others hl (List.mem_reverse.mp hm)
        exact hnext (hquiet i ht)
      · exact hexcl.notFree hm
    · intro k b hk hpb
      rw [Dict.lookup_erase_iff] at hk
      split_ifs at hk
      exact hexcl.others hk hpb
  · intro i pages hs p hp hm
    exact ((ha.taken hs).2 p hp).2 (hperm.mem_iff.mp hm)

theorem Conforms.assignOwner (ha : Conforms ops pageSize T st t) (h o : ℕ) :
    Conforms ops pageSize T st (t.assignOwner h o) := by
  have hperm := PageTracker.allPages_assignOwner t h o
  have hi := ha.inv.assignOwner h o
  unfold PageTracker.assignOwner at hperm hi ⊢
  cases hl : t.allocations.lookup h with
  | none => exact ha
  | some b =>
    rw [hl] at hperm hi
    apply ha.move hi rfl rfl
    · intro i h' pages ht hnext hs p hp
      have hexcl := ha.accessed ht hnext hs p hp
      refine ⟨hexcl.notFree, fun {k a} hk hpa => ?_⟩
      rw [Dict.lookup_insert_iff] at hk
      split_ifs at hk with hkh
      · obtain rfl := Option.some.inj hk
        rw [hkh]
        exact hexcl.others hl hpa
      · exact hexcl.others hk hpa
    · intro i pages hs p hp hm
      exact ((ha.taken hs).2 p hp).2 (hperm.mem_iff.mp hm)

theorem Conforms.foldl_sweep (ha : Conforms ops pageSize T st t) {o : ℕ} (l : List ℕ)
    (hquiet : ∀ i h a, (ops i).target = some h → t.allocations.lookup h = some a →
      a.ownerId = o → (T i).nextPage = none) :
    Conforms ops pageSize T st (l.foldl (PageTracker.sweep o) t) := by
  induction l generalizing t with
  | nil => exact ha
  | cons h l ih =>
    rw [List.foldl_cons]
    unfold PageTracker.sweep
    cases hl : t.allocations.lookup h with
    | none => exact ih ha hquiet
    | some a =>
      dsimp only
      split_ifs with ho
      · apply ih (ha.release hl fun i ht => hquiet i h a ht hl ho)
        intro i h' b ht hb
        rw [PageTracker.release, Dict.lookup_erase_iff] at hb
        split_ifs at hb
        exact hquiet i h' b ht hb
      · exact ih ha hquiet

theorem Conforms.exclusive (ha : Conforms ops pageSize T st t)
    (hkeep : Keeps pageSize (ops i) (T i) (st i)) {p : ℕ} (hp : p ∈ (T i).nextPage) :
    ∃ h, (ops i).target = some h ∧ Exclusive st t h p := by
  have hnext : (T i).nextPage ≠ none := by
    rw [hp]
    exact Option.some_ne_none p
  obtain ⟨htarget, pages, hst, hm⟩ := hkeep.demand_page hp
  obtain ⟨h, ht⟩ := Option.ne_none_iff_exists'.mp htarget
  exact ⟨h, ht, ha.accessed ht hnext hst p hm⟩

theorem Conforms.keepsApart (ha : Conforms ops pageSize T st t)
    (hkeep : ∀ i, Keeps pageSize (ops i) (T i) (st i)) : KeepsApart ops T t := by
  constructor
  · intro i h offset data ownerId hop o k hT h' hne
    have htarget : (ops i).target = some h := by
      rw [hop]
      rfl
    have hdemand := hkeep i
    rw [hT] at hdemand
    have hnot {o : CriticalSection} (hn : (ops i).target = none) :
        (t.enter o).2.view h' = t.view h' := absurd (htarget.symm.trans hn) nofun
    cases o with
    | find h o => rfl
    | readPage p off n => rfl
    | writePage p off data =>
      obtain ⟨h₁, ht, hexcl⟩ := ha.exclusive (hkeep i) (p := p) (by rw [hT]; rfl)
      obtain rfl := Option.some.inj (htarget.symm.trans ht)
      apply ha.inv.view_writePage
      exact fun a hl hm => hne (hexcl.others hl hm)
    | record size pages => exact hnot hdemand.1.1
    | _ => exact hnot hdemand.1
  · intro i h offset size ownerId hop p hp h' hne a hl hm
    obtain ⟨h₁, ht, hexcl⟩ := ha.exclusive (hkeep i) hp
    rw [hop] at ht
    obtain rfl := Option.some.inj ht
    exact hne (hexcl.others hl hm)
  · intro i j p hp hm
    obtain ⟨h, -, hexcl⟩ := ha.exclusive (hkeep i) hp
    obtain ⟨pages, hst, hm⟩ := (hkeep j).demand_record hm
    exact hexcl.notTaken hst hm

end Moves

section Steps

variable {ι : Type} [DecidableEq ι] {ops : ι → Op} {pageSize : ℕ} {T : ι → TrackerM Reply}
  {st : ι → Stage} {t t' : PageTracker} {i : ι} {u : Stage}

theorem Stage.of_update {v : Stage} {j : ι} (h : Function.update st i u j = v) :
    j = i ∧ u = v ∨ j ≠ i ∧ st j = v := by
  by_cases hj : j = i
  · rw [hj, Function.update_self] at h
    exact .inl ⟨hj, h⟩
  · rw [Function.update_of_ne hj] at h
    exact .inr ⟨hj, h⟩

theorem Conforms.restage (ha : Conforms ops pageSize T st t) (q : TrackerM Reply)
    (hu : ∀ pages, u ≠ .taking pages)
    (hacc : ∀ {h pages}, (ops i).target = some h → u = .accessing pages →
      ∀ p ∈ pages, Exclusive st t h p) :
    Conforms ops pageSize (Function.update T i q) (Function.update st i u) t := by
  have htaking {j pages} (hs : Function.update st i u j = .taking pages) :
      st j = .taking pages := by
    rcases Stage.of_update hs with ⟨-, he⟩ | ⟨-, hs⟩
    · exact absurd he (hu pages)
    · exact hs
  constructor
  · exact ha.inv
  · exact ha.pageSize_eq
  · intro j h pages ht hnext hs p hp
    have hexcl : Exclusive st t h p := by
      rcases Stage.of_update hs with ⟨rfl, he⟩ | ⟨hj, hs⟩
      · exact hacc ht he p hp
      · rw [Function.update_of_ne hj] at hnext
        exact ha.accessed ht hnext hs p hp
    exact ⟨hexcl.notFree, hexcl.others, fun hs => hexcl.notTaken (htaking hs)⟩
  · exact fun hs => ha.taken (htaking hs)
  · exact fun hne hs hs' => ha.disjoint hne (htaking hs) (htaking hs')

theorem Conforms.idle (ha : Conforms ops pageSize T st t) (q : TrackerM Reply) :
    Conforms ops pageSize (Function.update T i q) (Function.update st i .idle) t :=
  ha.restage q nofun nofun

theorem Conforms.taking (ha : Conforms ops pageSize T st t) (q : TrackerM Reply) {pages : List ℕ}
    (hnd : pages.Nodup) (hp : ∀ p ∈ pages, p < t.allocator.totalPages ∧ p ∉ t.allPages)
    (hacc : ∀ {j h ps}, (ops j).target = some h → (T j).nextPage ≠ none →
      st j = .accessing ps → ps.Disjoint pages)
    (htak : ∀ {j ps}, st j = .taking ps → ps.Disjoint pages) :
    Conforms ops pageSize (Function.update T i q) (Function.update st i (.taking pages)) t := by
  have htaking {j ps} (hs : Function.update st i (.taking pages) j = .taking ps) :
      ps = pages ∧ j = i ∨ j ≠ i ∧ st j = .taking ps := by
    rcases Stage.of_update hs with ⟨hj, he⟩ | hs
    · exact .inl ⟨(Stage.taking.inj he).symm, hj⟩
    · exact .inr hs
  constructor
  · exact ha.inv
  · exact ha.pageSize_eq
  · intro j h ps ht hnext hs p hm
    rcases Stage.of_update hs with ⟨-, he⟩ | ⟨hj, hst⟩
    · cases he
    · rw [Function.update_of_ne hj] at hnext
      have hexcl := ha.accessed ht hnext hst p hm
      refine ⟨hexcl.notFree, hexcl.others, fun hs' => ?_⟩
      rcases htaking hs' with ⟨rfl, -⟩ | ⟨-, hs'⟩
      · exact hacc ht hnext hst hm
      · exact hexcl.notTaken hs'
  · intro j ps hs
    rcases htaking hs with ⟨rfl, -⟩ | ⟨-, hs⟩
    · exact ⟨hnd, hp⟩
    · exact ha.taken hs
  · intro j j' ps ps' hne hs hs'
    rcases htaking hs with ⟨rfl, rfl⟩ | ⟨-, h₁⟩
    · rcases htaking hs' with ⟨rfl, rfl⟩ | ⟨-, h₂⟩
      · exact absurd rfl hne
      · exact (htak h₂).symm
    · rcases htaking hs' with ⟨rfl, rfl⟩ | ⟨-, h₂⟩
      · exact htak h₁
      · exact ha.disjoint hne h₁ h₂

theorem Conforms.step_find (ha : Conforms ops pageSize T st t) {h o : ℕ} (q : TrackerM Reply)
    (ht : (ops i).target = some h) :
    ∃ u, Stage.contract (.find h o) (st i) (t.checkOwnership h o) u ∧
      Conforms ops pageSize (Function.update T i q) (Function.update st i u) t := by
  cases hc : t.checkOwnership h o with
  | error e => exact ⟨.idle, rfl, ha.idle q⟩
  | ok a =>
    have hl := PageTracker.lookup_of_checkOwnership hc
    refine ⟨.accessing a.pages, rfl, ha.restage q nofun ?_⟩
    intro h' pages ht' hs p hp
    obtain rfl := Option.some.inj (ht.symm.trans ht')
    obtain rfl := Stage.accessing.inj hs
    have hheld : p ∈ t.heldPages := PageTracker.mem_heldPages.mpr ⟨h, a, hl, hp⟩
    constructor
    · exact fun hf => (List.disjoint_of_nodup_append ha.inv.nodup) hf hheld
    · intro k b hk hpb
      by_contra hne
      exact ha.inv.pages_disjoint hne hk hl hpb hp
    · exact fun hs hm => ((ha.taken hs).2 p hm).2 (List.mem_append_right _ hheld)

theorem Conforms.step_allocatePages (ha : Conforms ops pageSize T st t) {n : ℕ}
    (q : TrackerM Reply) :
    ∃ u, Stage.contract (.allocatePages n) (st i) (t.enter (.allocatePages n)).1 u ∧
      Conforms ops pageSize (Function.update T i q) (Function.update st i u)
        (t.enter (.allocatePages n)).2 := by
  simp only [PageTracker.enter, SlabAllocator.allocatePages_eq ha.inv.pageSize_pos]
  split_ifs with hshort
  · exact ⟨.idle, rfl, ha.idle q⟩
  · have hn := Nat.le_of_not_lt hshort
    have hlen : (t.allocator.freeList.take n).length = n := by simp [hn]
    have hfree {p} (hp : p ∈ t.allocator.freeList.take n) : p ∈ t.allocator.freeList :=
      List.mem_of_mem_take hp
    refine ⟨.taking (t.allocator.freeList.take n), ⟨rfl, hlen⟩, (ha.take hn).taking q ?_ ?_ ?_ ?_⟩
    · exact (List.nodup_append.mp ha.inv.nodup).1.sublist (List.take_sublist _ _)
    · intro p hp
      obtain ⟨hlt, hdrop, hheld⟩ := ha.inv.take_fresh hp
      refine ⟨hlt, fun hall => ?_⟩
      simp only [PageTracker.allPages, SlabAllocator.taken_freeList, hlen] at hall
      rcases List.mem_append.mp hall with hm | hm
      · exact hdrop hm
      · exact hheld hm
    · exact fun ht hnext hs p hp hm => (ha.accessed ht hnext hs p hp).notFree (hfree hm)
    · exact fun hs p hp hm => ((ha.taken hs).2 p hp).2 (List.mem_append_left _ (hfree hm))

theorem Conforms.step_record (ha : Conforms ops pageSize T st t) {size : ℕ} {pages : List ℕ}
    (q : TrackerM Reply) (hst : st i = .taking pages) (hs : 0 < size)
    (hlen : pages.length = size ⌈/⌉ pageSize) :
    Conforms ops pageSize (Function.update T i q) (Function.update st i .idle)
      (t.record size pages) := by
  obtain ⟨hnd, hp⟩ := ha.taken hst
  apply (ha.idle q).record hs hlen hnd hp
  · intro j h ps ht hnext hs p hm hm'
    rcases Stage.of_update hs with ⟨-, he⟩ | ⟨hj, hs⟩
    · cases he
    · rw [Function.update_of_ne hj] at hnext
      exact (ha.accessed ht hnext hs p hm).notTaken hst hm'
  · intro j ps hs
    rcases Stage.of_update hs with ⟨-, he⟩ | ⟨hj, hs⟩
    · cases he
    · exact ha.disjoint hj hs hst

theorem Conforms.step_page (ha : Conforms ops pageSize T st t) (q : TrackerM Reply) {p : ℕ}
    (hnext : (T i).nextPage ≠ none) (hst : ∃ pages, st i = .accessing pages ∧ p ∈ pages) :
    Conforms ops pageSize (Function.update T i q) (Function.update st i (st i)) t := by
  obtain ⟨pages, hst, -⟩ := hst
  rw [hst]
  apply ha.restage q
  · exact nofun
  · exact fun ht hs => ha.accessed ht hnext (hst.trans hs)

theorem Conforms.step_free (ha : Conforms ops pageSize T st t) {h o : ℕ} (q : TrackerM Reply)
    (hquiet : Undisturbed ops T t i (.free h o)) :
    Conforms ops pageSize (Function.update T i q) (Function.update st i .idle)
      (t.free h o).2 := by
  have ha' : Conforms ops pageSize T st (t.free h o).2 := by
    unfold PageTracker.free
    cases hc : t.checkOwnership h o with
    | error e => exact ha
    | ok a =>
      apply ha.release (PageTracker.lookup_of_checkOwnership hc)
      intro j ht
      by_contra hnext
      exact hquiet j h ht hnext ⟨rfl, by rw [hc]; rfl⟩
  exact ha'.idle q

theorem Conforms.step (ha : Conforms ops pageSize T st t) {o : CriticalSection}
    {k : o.Res → TrackerM Reply} {r : o.Res} (hop : T i = .op o k)
    (hquiet : Undisturbed ops T t i o) (hkeep : Keeps pageSize (ops i) (T i) (st i))
    (hr : trackerEnv i o t r t') :
    ∃ u, Stage.contract o (st i) r u ∧
      Conforms ops pageSize (Function.update T i (k r)) (Function.update st i u) t' := by
  rw [hop] at hkeep
  have hdemand := hkeep.1
  obtain ⟨rfl, rfl⟩ := Prod.mk.inj hr
  cases o with
  | find h o => exact ha.step_find _ hdemand
  | allocatePages n => exact ha.step_allocatePages _
  | record size pages =>
    obtain ⟨-, hst, hs, hlen⟩ := hdemand
    exact ⟨.idle, rfl, ha.step_record _ hst hs hlen⟩
  | free h o => exact ⟨.idle, rfl, ha.step_free _ hquiet⟩
  | writePage p off data =>
    refine ⟨st i, rfl, ?_⟩
    have hnext : (T i).nextPage ≠ none := by
      rw [hop]
      exact Option.some_ne_none p
    have ha' : Conforms ops pageSize T st (t.enter (.writePage p off data)).2 := by
      simp only [PageTracker.enter, SlabAllocator.writePage]
      split_ifs
      · exact ha
      · exact ha
      · exact ha.setBuffer _
    exact ha'.step_page _ hnext hdemand.2
  | readPage p off n =>
    refine ⟨st i, rfl, ha.step_page _ ?_ hdemand.2⟩
    rw [hop]
    exact Option.some_ne_none p
  | assignOwner h o => exact ⟨.idle, rfl, (ha.assignOwner h o).idle _⟩
  | freeAllForOwner ord o =>
    refine ⟨.idle, rfl, ?_⟩
    have ha' : Conforms ops pageSize T st (t.freeAllForOwner ord o) := by
      unfold PageTracker.freeAllForOwner
      split_ifs with hz
      · exact ha
      · apply ha.foldl_sweep
        intro j h a ht hl ho
        by_contra hnext
        exact hquiet j h ht hnext ⟨hz, by rw [hl, Option.map_some, ho]⟩
    exact ha'.idle _

/-- The handles are kept apart in every state of every run of calls in which no section frees a
handle while a call is going through its pages. -/
theorem handles_apart {totalSize pageSize : ℕ} {garbage : ℕ → Byte} {slab : SlabAllocator}
    (hnew : SlabAllocator.new totalSize pageSize garbage = .ok slab) (ops : ι → Op)
    (hreach : ReachesWhile (Undisturbed ops) trackerEnv (fun i => (ops i).exec slab.pageSize)
      (PageTracker.new slab) T t) :
    KeepsApart ops T t := by
  have hstart : Conforms ops slab.pageSize (fun i => (ops i).exec slab.pageSize) (fun _ => .idle)
      (PageTracker.new slab) :=
    ⟨PageTracker.Inv.new hnew, rfl, nofun, nofun, nofun⟩
  obtain ⟨st, ha, hkeep⟩ := hreach.contract (I := Conforms ops slab.pageSize)
    (fun T st t i o k r t' ha hop hquiet hkeep hr => ha.step hop hquiet (hkeep i) hr) hstart
    fun i => keeps_exec slab.pageSize (ops i)
  exact ha.keepsApart hkeep

end Steps

instance (t : PageTracker) (h : ℕ) : DecidablePred (CriticalSection.Frees t h)
  | .free _ _ => instDecidableAnd
  | .freeAllForOwner _ _ => instDecidableAnd
  | .find _ _ | .allocatePages _ | .record _ _ | .writePage _ _ _ | .readPage _ _ _
  | .assignOwner _ _ => instDecidableFalse

instance {n : ℕ} (ops : Fin n → Op) (T : Fin n → TrackerM Reply) (t : PageTracker) (i : Fin n)
    (o : CriticalSection) : Decidable (Undisturbed ops T t i o) :=
  inferInstanceAs (Decidable (∀ j, ∀ h ∈ (ops j).target, (T j).nextPage ≠ none → ¬ o.Frees t h))

def twoByteSlab : SlabAllocator :=
  { pageSize := 1, totalPages := 2, buffer := fun _ => 0, pageStates := fun _ => .free
    freeList := [0, 1] }

def calmOps : Fin 5 → Op
  | 0 => .allocate 1
  | 1 => .allocate 1
  | 2 => .write 1 0 [7] 0
  | 3 => .free 2 0
  | 4 => .allocate 1

theorem handles_apart_recycled :
    ∃ T t, ReachesWhile (Undisturbed calmOps) trackerEnv (fun i => (calmOps i).exec 1)
        (PageTracker.new twoByteSlab) T t ∧
      (∃ k, T 2 = .op (.writePage 0 0 [7]) k) ∧ t.view 3 = some ⟨0, [0]⟩ ∧
      KeepsApart calmOps T t := by
  have hnew : SlabAllocator.new 2 1 (fun _ => 0) = .ok twoByteSlab := rfl
  have hgood : ∀ T t i o, decide (Undisturbed calmOps T t i o) = true →
      Undisturbed calmOps T t i o := fun _ _ _ _ => of_decide_eq_true
  have henv : ∀ (i : Fin 5) o (t : PageTracker), trackerEnv i o t (t.enter o).1 (t.enter o).2 :=
    fun _ _ _ => rfl
  have hreach := reachesWhile_play hgood henv [0, 0, 1, 1, 2, 3, 4, 4]
    (ReachesWhile.start (T := fun i => (calmOps i).exec 1) (s := PageTracker.new twoByteSlab))
    (by decide +kernel)
  exact ⟨_, _, hreach, ⟨_, rfl⟩, by decide +kernel, handles_apart hnew calmOps hreach⟩

def oneByteSlab : SlabAllocator :=
  { pageSize := 1, totalPages := 1, buffer := fun _ => 0, pageStates := fun _ => .free
    freeList := [0] }

def staleOps : Fin 6 → Op
  | 0 => .allocate 1
  | 1 => .write 1 0 [7] 0
  | 2 => .read 1 0 1 0
  | 3 => .free 1 0
  | 4 => .allocate 1
  | 5 => .write 2 0 [9] 0

/-- The first handle is freed while a write and a read are at its page. The second handle gets the
page and is written to before the read goes on. -/
def staleSchedule : List (Fin 6) := [0, 0, 1, 2, 3, 4, 4, 5, 5, 2]

/-- The read of the first handle returns the byte of the second, and the write to the first is
about to change it. -/
theorem stale_pages_shared :
    SlabAllocator.new 1 1 (fun _ => 0) = .ok oneByteSlab ∧
    ∃ T t, Reaches trackerEnv (fun i => (staleOps i).exec 1) (PageTracker.new oneByteSlab) T t ∧
      T 2 = .pure (.bytes [9]) ∧ t.view 2 = some ⟨0, [9]⟩ ∧ ¬ KeepsApart staleOps T t := by
  have henv : ∀ (i : Fin 6) o (t : PageTracker), trackerEnv i o t (t.enter o).1 (t.enter o).2 :=
    fun _ _ _ => rfl
  have hreach := reaches_turns henv staleSchedule
    (Reaches.start (T := fun i => (staleOps i).exec 1) (s := PageTracker.new oneByteSlab))
  refine ⟨rfl, _, _, hreach, rfl, by decide +kernel, fun hk => ?_⟩
  have hview := hk.write 1 1 0 [7] 0 rfl _ _ rfl 2 (by decide)
  exact absurd hview (by decide +kernel)

end MemInfo
