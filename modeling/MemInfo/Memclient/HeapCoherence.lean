import Mathlib.Logic.Function.Basic
import MemInfo.Memclient.HeapProtocol

/-! # The pages of the remote heap and flat memory

Threads use the heap at the same time. Beside the heap, a scene keeps where each thread is and
the flat memory: the value of the latest store to each address. A page is absent, clean or
dirty. The peer has the current bytes of an absent or clean page, the region those of a clean
or dirty one.
-/

namespace MemInfo

open Lib

/-- The heap, the memory it stands for, and the places of the threads. -/
structure Scene (ι β : Type) where
  world : HeapWorld β
  flat : List Byte
  marks : ι → Mark

variable {ι β : Type} {B : PageFaultBackend β} {l : HeapLayout}

/-- The flat memory after an effect: stores that do not fault go into it. -/
def stored (l : HeapLayout) (flat : List Byte) : (o : HeapOp) → o.Res → List Byte
  | .store page off v, r => if r then splice flat (l.offset page + off) [v] else flat
  | _, _ => flat

def sceneEnv [DecidableEq ι] (B : PageFaultBackend β) (l : HeapLayout) (i : ι) (o : HeapOp)
    (S : Scene ι β) (r : o.Res) (S' : Scene ι β) : Prop :=
  heapEnv B o S.world r S'.world ∧ S'.flat = stored l S.flat o r ∧
    S'.marks = Function.update S.marks i ((S.marks i).next l o r)

structure Pages (B : PageFaultBackend β) (l : HeapLayout) (w : HeapWorld β) (flat : List Byte) :
    Prop where
  block_length : w.block.length = l.capacity
  flat_length : flat.length = l.capacity
  inside : ∀ page, B.contents w.backend page ≠ none → l.offset page < l.capacity
  present : ∀ page bytes, B.contents w.backend page = some bytes → bytes = l.pageOf flat page
  remote : ∀ page, l.pageOf w.block page = l.pageOf flat page ∨
    B.contents w.backend page ≠ none ∧ B.isDirty w.backend page

def Claim (B : PageFaultBackend β) (l : HeapLayout) (w : HeapWorld β) (flat : List Byte) :
    Mark → Prop
  | .free | .holding => True
  | .faulted page => B.contents w.backend page = none ∧ l.offset page < l.capacity
  | .fetched page bytes | .installing page bytes =>
    (B.contents w.backend page = none ∧ l.offset page < l.capacity) ∧ bytes = l.pageOf flat page
  | .checked page => B.isDirty w.backend page
  | .copied page bytes => B.isDirty w.backend page ∧ B.contents w.backend page = some bytes
  | .clean page => l.pageOf w.block page = l.pageOf flat page

/-- One thread at a time has the lock, and there is one handler for a page. -/
structure Orderly (w : HeapWorld β) (marks : ι → Mark) : Prop where
  locked : ∀ i, (marks i).Holds → w.isLocked = true
  exclusive : ∀ i j, (marks i).Holds → (marks j).Holds → i = j
  handlers : ∀ i j page, (marks i).Handles page → (marks j).Handles page → i = j

structure Coherent (B : PageFaultBackend β) (l : HeapLayout) (S : Scene ι β) : Prop where
  pages : Pages B l S.world S.flat
  claim : ∀ i, Claim B l S.world S.flat (S.marks i)
  orderly : Orderly S.world S.marks

/-! ## Pages -/

section Bytes

variable {block data : List Byte} {page q off : ℕ} {v : Byte}

theorem HeapLayout.length_pageOf (hb : block.length = l.capacity) (h : l.offset page < l.capacity) :
    (l.pageOf block page).length = l.pageBytes := by
  have hend := HeapLayout.end_le_capacity h
  rw [HeapLayout.pageOf, length_slice, HeapLayout.length_eq h]
  omega

theorem HeapLayout.pageOf_splice_same (hb : block.length = l.capacity)
    (h : l.offset page < l.capacity) (hd : data.length = l.pageBytes) :
    l.pageOf (splice block (l.offset page) data) page = data := by
  have hend := HeapLayout.end_le_capacity h
  rw [HeapLayout.pageOf, HeapLayout.length_eq h, ← hd]
  exact slice_splice_self (by omega)

theorem HeapLayout.pageOf_splice_other (hb : block.length = l.capacity)
    (h : l.offset page < l.capacity) (hoff : off + data.length ≤ l.pageBytes) (hq : q ≠ page) :
    l.pageOf (splice block (l.offset page + off) data) q = l.pageOf block q := by
  have hend := HeapLayout.end_le_capacity h
  have hlen := HeapLayout.length_eq h
  have hq := HeapLayout.apart (l := l) hq
  exact slice_splice_outside (by omega) (by omega)

theorem HeapLayout.pageOf_store (hb : block.length = l.capacity) (h : l.offset page < l.capacity)
    (hoff : off < l.pageBytes) :
    l.pageOf (splice block (l.offset page + off) [v]) page =
      splice (l.pageOf block page) off [v] := by
  have hend := HeapLayout.end_le_capacity h
  have hlen := HeapLayout.length_eq h
  rw [HeapLayout.pageOf, slice_splice_inside (by omega) (by simp; omega) (by omega),
    Nat.add_sub_cancel_left, HeapLayout.pageOf]

theorem HeapLayout.getElem?_pageOf (h : l.offset page < l.capacity) (hoff : off < l.pageBytes) :
    (l.pageOf block page)[off]? = block[l.offset page + off]? := by
  rw [HeapLayout.pageOf, getElem?_slice, HeapLayout.length_eq h, if_pos hoff]

end Bytes

def Quiet (B : PageFaultBackend β) (b b' : β) : Prop :=
  ∀ page, B.contents b' page = B.contents b page ∧ (B.isDirty b page → B.isDirty b' page)

theorem PageFaultBackend.Contract.quiet (hB : B.Contract) {page : ℕ} {b b' : β}
    (h : B.load page b b') : Quiet B b b' := by
  obtain ⟨helse, hmine⟩ := hB.load h
  intro q
  by_cases hq : q = page
  · exact hq ▸ hmine
  · exact helse q hq

section Steps

variable {w : HeapWorld β} {flat : List Byte} {b : β} {page : ℕ} {bytes : List Byte} {m : Mark}

theorem Pages.quiet (h : Pages B l w flat) (hq : Quiet B w.backend b) :
    Pages B l { w with backend := b } flat where
  block_length := h.block_length
  flat_length := h.flat_length
  inside p hp := h.inside p ((hq p).1 ▸ hp)
  present p bytes hp := h.present p bytes ((hq p).1 ▸ hp)
  remote p := (h.remote p).imp_right fun ⟨hc, hd⟩ => ⟨(hq p).1.symm ▸ hc, (hq p).2 hd⟩

theorem Pages.remote_of_absent (h : Pages B l w flat) (hc : B.contents w.backend page = none) :
    l.pageOf w.block page = l.pageOf flat page :=
  (h.remote page).resolve_right fun hr => hr.1 hc

theorem Pages.remote_of_clean (h : Pages B l w flat) (hd : B.isDirty w.backend page = false) :
    l.pageOf w.block page = l.pageOf flat page :=
  (h.remote page).resolve_right fun hr => by simp [hd] at hr

theorem Pages.elsewhere (h : Pages B l w flat) (he : B.Elsewhere page w.backend b)
    (hin : B.contents b page ≠ none → l.offset page < l.capacity)
    (hp : ∀ bytes, B.contents b page = some bytes → bytes = l.pageOf flat page)
    (hr : l.pageOf w.block page = l.pageOf flat page) :
    Pages B l { w with backend := b } flat where
  block_length := h.block_length
  flat_length := h.flat_length
  inside q hq := by
    by_cases hqp : q = page
    · subst hqp
      exact hin hq
    · exact h.inside q ((he q hqp).1 ▸ hq)
  present q bytes hq := by
    by_cases hqp : q = page
    · subst hqp
      exact hp bytes hq
    · exact h.present q bytes ((he q hqp).1 ▸ hq)
  remote q := by
    by_cases hqp : q = page
    · exact .inl (hqp ▸ hr)
    · exact (h.remote q).imp_right fun ⟨hc, hd⟩ =>
        ⟨(he q hqp).1.symm ▸ hc, (he q hqp).2 hd⟩

theorem Pages.written (h : Pages B l w flat) (hc : B.contents w.backend page ≠ none)
    (hd : B.isDirty w.backend page) (hlen : bytes.length = l.pageBytes) :
    Pages B l { w with block := splice w.block (l.offset page) bytes } flat where
  block_length := by
    have hend := HeapLayout.end_le_capacity (h.inside page hc)
    have hb := h.block_length
    exact (length_splice (by omega)).trans hb
  flat_length := h.flat_length
  inside := h.inside
  present := h.present
  remote q := by
    by_cases hqp : q = page
    · subst hqp
      exact .inr ⟨hc, hd⟩
    · have hother : l.pageOf (splice w.block (l.offset page + 0) bytes) q = l.pageOf w.block q :=
        HeapLayout.pageOf_splice_other h.block_length (h.inside page hc) (by omega) hqp
      exact (h.remote q).imp_left fun hr => hother.trans hr

theorem Pages.store (h : Pages B l w flat) {off : ℕ} {v : Byte}
    (he : B.Elsewhere page w.backend b) (hc : B.contents w.backend page = some bytes)
    (hoff : off < l.pageBytes) (hc' : B.contents b page = some (splice bytes off [v]))
    (hd : B.isDirty b page) :
    Pages B l { w with backend := b } (splice flat (l.offset page + off) [v]) := by
  have hin : l.offset page < l.capacity := h.inside page (by simp [hc])
  have hend := HeapLayout.end_le_capacity hin
  have hf := h.flat_length
  have hother : ∀ q, q ≠ page →
      l.pageOf (splice flat (l.offset page + off) [v]) q = l.pageOf flat q := fun q hq =>
    HeapLayout.pageOf_splice_other hf hin (by simp; omega) hq
  constructor
  case block_length => exact h.block_length
  case flat_length => exact (length_splice (by simp; omega)).trans hf
  case inside =>
    intro q hq
    by_cases hqp : q = page
    · exact hqp ▸ hin
    · exact h.inside q ((he q hqp).1 ▸ hq)
  case present =>
    intro q bytes' hq
    by_cases hqp : q = page
    · subst hqp
      obtain rfl := Option.some.inj (hc'.symm.trans hq)
      rw [HeapLayout.pageOf_store hf hin hoff, h.present q bytes hc]
    · exact (h.present q bytes' ((he q hqp).1 ▸ hq)).trans (hother q hqp).symm
  case remote =>
    intro q
    by_cases hqp : q = page
    · subst hqp
      exact .inr ⟨by simp [hc'], hd⟩
    · rw [hother q hqp]
      apply (h.remote q).imp_right
      rintro ⟨hc, hd⟩
      exact ⟨(he q hqp).1.symm ▸ hc, (he q hqp).2 hd⟩

/-! ## What the other threads rely on -/

theorem Claim.quiet (h : Claim B l w flat m) (hq : Quiet B w.backend b) :
    Claim B l { w with backend := b } flat m := by
  cases m with
  | free => trivial
  | holding => trivial
  | faulted p => exact ⟨(hq p).1.trans h.1, h.2⟩
  | fetched p bytes => exact ⟨⟨(hq p).1.trans h.1.1, h.1.2⟩, h.2⟩
  | installing p bytes => exact ⟨⟨(hq p).1.trans h.1.1, h.1.2⟩, h.2⟩
  | checked p => exact (hq p).2 h
  | copied p bytes => exact ⟨(hq p).2 h.1, (hq p).1.trans h.2⟩
  | clean p => exact h

theorem Claim.unlocked {w' : HeapWorld β} (h : Claim B l w flat m) (hm : ¬ m.Holds)
    (hc : ∀ p, m.Handles p → B.contents w.backend p = none → B.contents w'.backend p = none) :
    Claim B l w' flat m := by
  cases m with
  | free => trivial
  | faulted p => exact ⟨hc p rfl h.1, h.2⟩
  | fetched p bytes => exact ⟨⟨hc p rfl h.1.1, h.1.2⟩, h.2⟩
  | _ => exact absurd trivial hm

theorem Claim.store (h : Claim B l w flat m) (hp : Pages B l w flat) {off : ℕ} {v : Byte}
    (he : B.Elsewhere page w.backend b) (hc : B.contents w.backend page = some bytes)
    (hoff : off < l.pageBytes) (hm : ¬ m.Flushes page) :
    Claim B l { w with backend := b } (splice flat (l.offset page + off) [v]) m := by
  have hother : ∀ q, q ≠ page →
      l.pageOf (splice flat (l.offset page + off) [v]) q = l.pageOf flat q := fun q hq =>
    HeapLayout.pageOf_splice_other hp.flat_length (hp.inside page (by simp [hc]))
      (by simp; omega) hq
  have habsent : ∀ q, B.contents w.backend q = none → q ≠ page := by
    rintro q hq rfl
    simp [hc] at hq
  cases m with
  | free => trivial
  | holding => trivial
  | faulted q => exact ⟨(he q (habsent q h.1)).1.trans h.1, h.2⟩
  | fetched q bytes' =>
    have hq := habsent q h.1.1
    exact ⟨⟨(he q hq).1.trans h.1.1, h.1.2⟩, h.2.trans (hother q hq).symm⟩
  | installing q bytes' =>
    have hq := habsent q h.1.1
    exact ⟨⟨(he q hq).1.trans h.1.1, h.1.2⟩, h.2.trans (hother q hq).symm⟩
  | checked q => exact (he q hm).2 h
  | copied q bytes' => exact ⟨(he q hm).2 h.1, (he q hm).1.trans h.2⟩
  | clean q => exact Eq.trans h (hother q hm).symm

end Steps

/-! ## One effect -/

/-- The accesses that do not disturb the other threads: one that faults on a page for which no
other handler is at work, and a store to a page that no other thread is flushing. -/
def Scene.Unraced (B : PageFaultBackend β) (S : Scene ι β) (i : ι) : HeapOp → Prop
  | .load page _ =>
    B.contents S.world.backend page = none → ∀ j, j ≠ i → ¬ (S.marks j).Handles page
  | .store page _ _ =>
    (B.contents S.world.backend page = none → ∀ j, j ≠ i → ¬ (S.marks j).Handles page) ∧
      ∀ j, j ≠ i → ¬ (S.marks j).Flushes page
  | _ => True

theorem Scene.unraced [Subsingleton ι] (S : Scene ι β) (i : ι) (o : HeapOp) : S.Unraced B i o := by
  have hother : ∀ j, j ≠ i → False := fun j hj => hj (Subsingleton.elim j i)
  cases o with
  | load page off => exact fun _ j hj => (hother j hj).elim
  | store page off v => exact ⟨fun _ j hj => (hother j hj).elim, fun j hj => (hother j hj).elim⟩
  | _ => trivial

/-- A load gives the byte of the flat memory, and a store goes to an address that it has. -/
def Agrees (l : HeapLayout) (flat : List Byte) : (o : HeapOp) → o.Res → Prop
  | .load page off, r => ∀ b, r = some b → flat[l.offset page + off]? = some b
  | .store page off _, r => r = true → l.offset page + off < flat.length
  | _, _ => True

section Step

variable {S : Scene ι β} {i : ι} {w : HeapWorld β} {flat : List Byte} {m : Mark}

theorem Pages.length_contents {bytes : List Byte} {page : ℕ} (h : Pages B l w flat)
    (hc : B.contents w.backend page = some bytes) : bytes.length = l.pageBytes := by
  rw [h.present page bytes hc]
  exact HeapLayout.length_pageOf h.flat_length (h.inside page (by simp [hc]))

theorem Pages.byte {bytes : List Byte} {page off : ℕ} (h : Pages B l w flat)
    (hc : B.contents w.backend page = some bytes) (hoff : off < l.pageBytes) :
    ∃ v, bytes[off]? = some v ∧ flat[l.offset page + off]? = some v := by
  have hin := h.inside page (by simp [hc])
  have hlen := h.length_contents hc
  have hv : bytes[off]? = some bytes[off] := List.getElem?_eq_getElem (by omega)
  refine ⟨_, hv, ?_⟩
  rw [← HeapLayout.getElem?_pageOf hin hoff, ← h.present page bytes hc, hv]

variable [DecidableEq ι]

theorem unique_update {marks : ι → Mark} {P : Mark → Prop}
    (h : ∀ j k, P (marks j) → P (marks k) → j = k) (hm : P m → ∀ j, j ≠ i → ¬ P (marks j))
    (j k : ι) (hj : P (Function.update marks i m j)) (hk : P (Function.update marks i m k)) :
    j = k := by
  by_cases hji : j = i <;> by_cases hki : k = i
  · rw [hji, hki]
  · rw [hji, Function.update_self] at hj
    rw [Function.update_of_ne hki] at hk
    exact absurd hk (hm hj k hki)
  · rw [hki, Function.update_self] at hk
    rw [Function.update_of_ne hji] at hj
    exact absurd hj (hm hk j hji)
  · rw [Function.update_of_ne hji] at hj
    rw [Function.update_of_ne hki] at hk
    exact h j k hj hk

theorem Orderly.update {marks : ι → Mark} {w' : HeapWorld β} (h : Orderly w marks)
    (hlocked : ∀ j, j ≠ i → (marks j).Holds → w'.isLocked = true)
    (hholds : m.Holds → w'.isLocked = true ∧ ∀ j, j ≠ i → ¬ (marks j).Holds)
    (hhandles : ∀ page, m.Handles page → ∀ j, j ≠ i → ¬ (marks j).Handles page) :
    Orderly w' (Function.update marks i m) where
  locked := (Function.forall_update_iff marks fun _ m => m.Holds → w'.isLocked = true).mpr
    ⟨fun hm => (hholds hm).1, hlocked⟩
  exclusive := unique_update h.exclusive fun hm => (hholds hm).2
  handlers j k page :=
    unique_update (P := (Mark.Handles · page)) (fun j k => h.handlers j k page) (hhandles page) j k

omit [DecidableEq ι] in
theorem Orderly.others_free {marks : ι → Mark} (h : Orderly w marks) (hi : (marks i).Holds)
    (j : ι) (hj : j ≠ i) : ¬ (marks j).Holds := fun hm => hj (h.exclusive j i hm hi)

theorem Orderly.keep {marks : ι → Mark} {w' : HeapWorld β} (h : Orderly w marks)
    (hlock : w'.isLocked = w.isLocked) (hholds : m.Holds → (marks i).Holds)
    (hhandles : ∀ page, m.Handles page → (marks i).Handles page ∨
      ∀ j, j ≠ i → ¬ (marks j).Handles page) :
    Orderly w' (Function.update marks i m) := by
  refine h.update (fun j _ hj => hlock.trans (h.locked j hj)) (fun hm => ?_) fun page hm j hj => ?_
  · exact ⟨hlock.trans (h.locked i (hholds hm)), h.others_free (hholds hm)⟩
  · rcases hhandles page hm with hi | hothers
    · exact fun hk => hj (h.handlers j i page hk hi)
    · exact hothers j hj

theorem Coherent.moved (hpages : Pages B l w flat) (hmine : Claim B l w flat m)
    (hothers : ∀ j, j ≠ i → Claim B l w flat (S.marks j))
    (horderly : Orderly w (Function.update S.marks i m)) :
    Coherent B l ⟨w, flat, Function.update S.marks i m⟩ :=
  ⟨hpages, (Function.forall_update_iff S.marks fun _ m => Claim B l w flat m).mpr
    ⟨hmine, hothers⟩, horderly⟩

abbrev Scene.after (l : HeapLayout) (S : Scene ι β) (i : ι) (o : HeapOp) (r : o.Res)
    (w : HeapWorld β) : Scene ι β :=
  ⟨w, stored l S.flat o r, Function.update S.marks i ((S.marks i).next l o r)⟩

theorem Pages.guarded (h : Pages B l w flat) (heap : RemoteHeap) (isLocked : Bool) :
    Pages B l { w with heap := heap, isLocked := isLocked } flat :=
  ⟨h.block_length, h.flat_length, h.inside, h.present, h.remote⟩

theorem Claim.guarded (h : Claim B l w flat m) (heap : RemoteHeap) (isLocked : Bool) :
    Claim B l { w with heap := heap, isLocked := isLocked } flat m := h

variable {page off : ℕ} (h : Coherent B l S)

include h

theorem Coherent.stay (hmine : Claim B l S.world S.flat m) (hholds : m.Holds → (S.marks i).Holds)
    (hhandles : ∀ page, m.Handles page → (S.marks i).Handles page) :
    Coherent B l ⟨S.world, S.flat, Function.update S.marks i m⟩ :=
  .moved h.pages hmine (fun j _ => h.claim j)
    (h.orderly.keep rfl hholds fun page hm => .inl (hhandles page hm))

theorem Coherent.fault (hc : B.contents S.world.backend page = none)
    (hu : ∀ j, j ≠ i → ¬ (S.marks j).Handles page) :
    Coherent B l ⟨S.world, S.flat, Function.update S.marks i
      (if l.offset page < l.capacity then .faulted page else .free)⟩ := by
  split
  next hin =>
    refine .moved h.pages ⟨hc, hin⟩ (fun j _ => h.claim j) (h.orderly.keep rfl False.elim ?_)
    rintro _ rfl
    exact .inr hu
  next => exact h.stay trivial False.elim fun _ => False.elim

theorem Coherent.quiet {b : β} (hq : Quiet B S.world.backend b)
    (hmine : Claim B l { S.world with backend := b } S.flat m)
    (hholds : m.Holds → (S.marks i).Holds) (hhandles : ∀ page, ¬ m.Handles page) :
    Coherent B l ⟨{ S.world with backend := b }, S.flat, Function.update S.marks i m⟩ :=
  .moved (h.pages.quiet hq) hmine (fun j _ => (h.claim j).quiet hq)
    (h.orderly.keep rfl hholds fun page hm => absurd hm (hhandles page))

/-- The holder of the lock changes one page, whose current bytes the peer has. The handlers at
work on the page have to find it absent again. -/
theorem Coherent.elsewhere {b : β} (hm : (S.marks i).Holds)
    (he : B.Elsewhere page S.world.backend b)
    (hin : B.contents b page ≠ none → l.offset page < l.capacity)
    (hp : ∀ bytes, B.contents b page = some bytes → bytes = l.pageOf S.flat page)
    (hr : l.pageOf S.world.block page = l.pageOf S.flat page)
    (habsent : ∀ j, j ≠ i → (S.marks j).Handles page → B.contents S.world.backend page = none →
      B.contents b page = none)
    (hmine : Claim B l { S.world with backend := b } S.flat m)
    (hhandles : ∀ page, ¬ m.Handles page) :
    Coherent B l ⟨{ S.world with backend := b }, S.flat, Function.update S.marks i m⟩ := by
  refine .moved (h.pages.elsewhere he hin hp hr) hmine (fun j hj => ?_)
    (h.orderly.keep rfl (fun _ => hm) fun page hp => absurd hp (hhandles page))
  refine (h.claim j).unlocked (h.orderly.others_free hm j hj) fun q hq hc => ?_
  by_cases hqp : q = page
  · subst hqp
    exact habsent j hj hq hc
  · exact (he q hqp).1.trans hc

section Effects

variable {w : HeapWorld β}

/-! The effects, one by one. -/

theorem Coherent.load (hB : B.Contract) {r : Option Byte} (hoff : off < l.pageBytes)
    (hu : S.Unraced B i (.load page off)) (henv : heapEnv B (.load page off) S.world r w) :
    Coherent B l (S.after l i (.load page off) r w) ∧ Agrees l S.flat (.load page off) r := by
  simp only [heapEnv] at henv
  simp only [Scene.after, Mark.next, stored]
  split at henv
  next hc =>
    obtain ⟨rfl, rfl⟩ := henv
    simp only [true_and]
    refine ⟨h.fault hc (hu hc), ?_⟩
    rintro _ ⟨⟩
  next bytes hc =>
    obtain ⟨rfl, b, hload, rfl⟩ := henv
    obtain ⟨v, hv, hflat⟩ := h.pages.byte hc hoff
    simp only [hv, reduceCtorEq, false_and, if_false]
    refine ⟨h.quiet (hB.quiet hload) trivial False.elim fun _ => id, ?_⟩
    rintro _ ⟨⟩
    exact hflat

theorem Coherent.store (hB : B.Contract) {v : Byte} {r : Bool} (hoff : off < l.pageBytes)
    (hu : S.Unraced B i (.store page off v)) (henv : heapEnv B (.store page off v) S.world r w) :
    Coherent B l (S.after l i (.store page off v) r w) ∧
      Agrees l S.flat (.store page off v) r := by
  obtain ⟨hfault, hflush⟩ := hu
  simp only [heapEnv] at henv
  simp only [Scene.after, Mark.next, stored]
  split at henv
  next hc =>
    obtain ⟨rfl, rfl⟩ := henv
    simp only [true_and]
    refine ⟨h.fault hc (hfault hc), ?_⟩
    rintro ⟨⟩
  next bytes hc =>
    have hlt : off < bytes.length := by rwa [h.pages.length_contents hc]
    rw [if_pos hlt] at henv
    obtain ⟨rfl, b, hstore, rfl⟩ := henv
    obtain ⟨he, hc', hd⟩ := hB.store hstore hc hlt
    simp only [reduceCtorEq, false_and, if_false, if_true]
    refine ⟨.moved (h.pages.store he hc hoff hc' hd) trivial
      (fun j hj => (h.claim j).store h.pages he hc hoff (hflush j hj))
      (h.orderly.keep rfl False.elim fun _ => False.elim), fun _ => ?_⟩
    obtain ⟨_, -, hflat⟩ := h.pages.byte hc hoff
    exact (List.getElem?_eq_some_iff.mp hflat).1

theorem Coherent.read {r : Except Err (List Byte)} (hm : S.marks i = .faulted page)
    (henv : heapEnv B (.read (l.offset page) (l.length page)) S.world r w) :
    Coherent B l (S.after l i (.read (l.offset page) (l.length page)) r w) := by
  obtain ⟨rfl, hr⟩ := henv
  have hclaim := h.claim i
  have hfree : Coherent B l ⟨S.world, S.flat, Function.update S.marks i .free⟩ :=
    h.stay trivial False.elim fun _ => False.elim
  simp only [Scene.after, Mark.next, stored, hm]
  rw [hm] at hclaim
  cases r with
  | error e => exact hfree
  | ok bytes =>
    obtain rfl := hr bytes rfl
    simp only
    split
    · refine h.stay ⟨hclaim, h.pages.remote_of_absent hclaim.1⟩ False.elim ?_
      rintro _ rfl
      rw [hm]
      rfl
    · exact hfree

/-- A thread writes back the bytes that it copied. Whatever happens to them, the page is still
dirty. -/
theorem Coherent.write {data : List Byte} {r : Option Err} (hm : S.marks i = .copied page data)
    (henv : heapEnv B (.write (l.offset page) data) S.world r w) :
    Coherent B l (S.after l i (.write (l.offset page) data) r w) := by
  obtain ⟨bytes, hlen, hr, rfl⟩ := henv
  have hclaim := h.claim i
  have hholds : (S.marks i).Holds := by rw [hm]; trivial
  rw [hm] at hclaim
  obtain ⟨hd, hc⟩ := hclaim
  have hbytes := hlen.trans (h.pages.length_contents hc)
  have hmoved : ∀ m, Claim B l { S.world with block := splice S.world.block (l.offset page) bytes }
      S.flat m → (∀ page, ¬ m.Handles page) → Coherent B l
        ⟨{ S.world with block := splice S.world.block (l.offset page) bytes }, S.flat,
          Function.update S.marks i m⟩ := fun m hmine hhandles =>
    .moved (h.pages.written (by simp [hc]) hd hbytes) hmine
      (fun j hj => (h.claim j).unlocked (h.orderly.others_free hholds j hj) fun _ _ hq => hq)
      (h.orderly.keep rfl (fun _ => hholds) fun page hp => absurd hp (hhandles page))
  simp only [Scene.after, Mark.next, stored, hm]
  cases r with
  | some e => exact hmoved _ trivial fun _ => id
  | none =>
    obtain rfl := hr rfl
    have hin := h.pages.inside page (by simp [hc])
    exact hmoved _ ((HeapLayout.pageOf_splice_same h.pages.block_length hin hbytes).trans
      (h.pages.present page bytes hc)) fun _ => id

theorem Coherent.resolveFault (hB : B.Contract) {data : List Byte} {isWrite r : Bool}
    (hm : S.marks i = .installing page data)
    (henv : heapEnv B (.resolveFault page data isWrite) S.world r w) :
    Coherent B l (S.after l i (.resolveFault page data isWrite) r w) := by
  obtain ⟨b, hb, rfl⟩ := henv
  have hclaim := h.claim i
  have hholds : (S.marks i).Holds := by rw [hm]; trivial
  have hmine : (S.marks i).Handles page := by rw [hm]; rfl
  rw [hm] at hclaim
  obtain ⟨⟨hc, hin⟩, hdata⟩ := hclaim
  cases r with
  | false =>
    obtain rfl := hB.resolveFault_failed hb
    exact h.stay trivial (fun _ => hholds) fun _ => False.elim
  | true =>
    obtain ⟨he, hc'⟩ := hB.resolveFault hb
    refine h.elsewhere hholds he (fun _ => hin) (fun bytes hbytes => ?_)
      (h.pages.remote_of_absent hc)
      (fun j hj hk => absurd (h.orderly.handlers j i page hk hmine) hj) trivial fun _ => id
    exact (Option.some.inj (hc'.symm.trans hbytes)).symm.trans hdata

theorem Coherent.isDirty {r : Bool} (hm : (S.marks i).Ready)
    (henv : heapEnv B (.isDirty page) S.world r w) :
    Coherent B l (S.after l i (.isDirty page) r w) := by
  obtain ⟨rfl, rfl⟩ := henv
  simp only [Scene.after, Mark.next, stored]
  cases hd : B.isDirty S.world.backend page with
  | true => exact h.stay hd (fun _ => hm.holds) fun _ => False.elim
  | false => exact h.stay (h.pages.remote_of_clean hd) (fun _ => hm.holds) fun _ => False.elim

theorem Coherent.copy (hB : B.Contract) {r : List Byte} (hm : S.marks i = .checked page)
    (henv : heapEnv B (.copy page) S.world r w) :
    Coherent B l (S.after l i (.copy page) r w) := by
  obtain ⟨hc, b, hload, rfl⟩ := henv
  have hclaim := h.claim i
  rw [hm] at hclaim
  have hq := hB.quiet hload
  exact h.quiet hq ⟨(hq page).2 hclaim, (hq page).1.trans hc⟩ (fun _ => by rw [hm]; trivial)
    fun _ => id

theorem Coherent.clearDirty (hB : B.Contract) {r : Unit} (hm : S.marks i = .clean page)
    (henv : heapEnv B (.clearDirty page) S.world r w) :
    Coherent B l (S.after l i (.clearDirty page) r w) := by
  obtain ⟨b, hb, rfl⟩ := henv
  have hclaim := h.claim i
  have hholds : (S.marks i).Holds := by rw [hm]; trivial
  rw [hm] at hclaim
  obtain ⟨he, hc⟩ := hB.clearDirty hb
  simp only [Scene.after, Mark.next, stored, hm]
  exact h.elsewhere hholds he (fun hin => h.pages.inside page (hc ▸ hin))
    (fun bytes hbytes => h.pages.present page bytes (hc ▸ hbytes)) hclaim
    (fun _ _ _ habsent => hc.trans habsent) hclaim fun _ => id

theorem Coherent.evictPages (hB : B.Contract) {r : Bool} (hm : S.marks i = .clean page)
    (henv : heapEnv B (.evictPages page) S.world r w) :
    Coherent B l (S.after l i (.evictPages page) r w) := by
  obtain ⟨b, hb, rfl⟩ := henv
  have hclaim := h.claim i
  have hholds : (S.marks i).Holds := by rw [hm]; trivial
  rw [hm] at hclaim
  cases r with
  | false =>
    obtain rfl := hB.evictPages_failed hb
    exact h.stay trivial (fun _ => hholds) fun _ => False.elim
  | true =>
    obtain ⟨he, hc⟩ := hB.evictPages hb
    exact h.elsewhere hholds he (fun hin => absurd hc hin)
      (fun bytes hbytes => nomatch hc.symm.trans hbytes) hclaim (fun _ _ _ _ => hc) trivial
      fun _ => id

theorem Coherent.lock {r : Unit} (hm : (S.marks i).InOrder l .lock)
    (henv : heapEnv B .lock S.world r w) : Coherent B l (S.after l i .lock r w) := by
  obtain ⟨hunlocked, rfl⟩ := henv
  have hnone : ∀ j, ¬ (S.marks j).Holds := fun j hj => by simp [h.orderly.locked j hj] at hunlocked
  have hmoved : ∀ m, Claim B l S.world S.flat m →
      (∀ page, m.Handles page → (S.marks i).Handles page) →
      Coherent B l ⟨{ S.world with isLocked := true }, S.flat, Function.update S.marks i m⟩ := by
    intro m hmine hhandles
    refine .moved (h.pages.guarded _ true) (hmine.guarded _ true)
      (fun j _ => (h.claim j).guarded _ true) (h.orderly.update (fun _ _ _ => rfl)
      (fun _ => ⟨rfl, fun j _ => hnone j⟩) fun page hp j hj hk => ?_)
    exact hj (h.orderly.handlers j i page hk (hhandles page hp))
  rcases hm with hm | ⟨page, bytes, hm⟩
  · simp only [Scene.after, Mark.next, hm]
    exact hmoved _ trivial fun _ => False.elim
  · have hclaim := h.claim i
    rw [hm] at hclaim
    simp only [Scene.after, Mark.next, hm]
    exact hmoved _ hclaim fun _ hp => hm ▸ hp

theorem Coherent.unlock {r : Unit} (hm : (S.marks i).Ready)
    (henv : heapEnv B .unlock S.world r w) : Coherent B l (S.after l i .unlock r w) := by
  obtain rfl := henv
  exact .moved (h.pages.guarded _ false) trivial (fun j _ => (h.claim j).guarded _ false)
    (h.orderly.update (fun j hj hk => absurd hk (h.orderly.others_free hm.holds j hj)) False.elim
      fun _ => False.elim)

theorem Coherent.setHeap {heap : RemoteHeap} {r : Unit}
    (henv : heapEnv B (.setHeap heap) S.world r w) :
    Coherent B l (S.after l i (.setHeap heap) r w) := by
  obtain rfl := henv
  exact .moved (h.pages.guarded heap _) ((h.claim i).guarded heap _)
    (fun j _ => (h.claim j).guarded heap _) (h.orderly.keep rfl id fun _ => .inl)

end Effects

omit h

/-- An effect that is in order and races with no other thread keeps the scene coherent, and a
load gives the latest store. -/
theorem Coherent.step (hB : B.Contract) (h : Coherent B l S) {o : HeapOp} {r : o.Res}
    {S' : Scene ι β} (ho : (S.marks i).InOrder l o) (hu : S.Unraced B i o)
    (hs : sceneEnv B l i o S r S') : Coherent B l S' ∧ Agrees l S.flat o r := by
  obtain ⟨w, flat, marks⟩ := S'
  obtain ⟨henv, rfl, rfl⟩ : heapEnv B o S.world r w ∧ flat = stored l S.flat o r ∧
    marks = Function.update S.marks i ((S.marks i).next l o r) := hs
  cases o with
  | load page off => exact h.load hB ho.2 hu henv
  | store page off v => exact h.store hB ho.2 hu henv
  | read offset length =>
    obtain ⟨page, hm, rfl, rfl⟩ := ho
    exact ⟨h.read hm henv, trivial⟩
  | write offset data =>
    obtain ⟨page, hm, rfl⟩ := ho
    exact ⟨h.write hm henv, trivial⟩
  | resolveFault page data isWrite => exact ⟨h.resolveFault hB ho henv, trivial⟩
  | isDirty page => exact ⟨h.isDirty ho henv, trivial⟩
  | copy page => exact ⟨h.copy hB ho henv, trivial⟩
  | clearDirty page => exact ⟨h.clearDirty hB ho henv, trivial⟩
  | evictPages page => exact ⟨h.evictPages hB ho henv, trivial⟩
  | unresolved addr =>
    obtain ⟨-, rfl⟩ := henv
    exact ⟨h.stay trivial False.elim fun _ => False.elim, trivial⟩
  | lock => exact ⟨h.lock ho henv, trivial⟩
  | unlock => exact ⟨h.unlock ho henv, trivial⟩
  | heap =>
    obtain ⟨-, rfl⟩ := henv
    exact ⟨h.stay (h.claim i) id fun _ => id, trivial⟩
  | setHeap heap => exact ⟨h.setHeap henv, trivial⟩

end Step

end MemInfo
