import MemInfo.Lib.Run
import MemInfo.Memoryd.View

/-! # The page tracker refines a map of byte arrays

Every run of the page tracker is a trace of the abstract store as long as the
64-bit handle counter does not wrap around.
-/

namespace MemInfo

open Lib

def Reply.ofUnit : Except Err Unit → Reply
  | .ok () => .done
  | .error e => .threw e

namespace PageTracker

def step (t : PageTracker) : Op → Reply × PageTracker
  | .allocate size =>
    match t.allocate size with
    | (.ok h, t') => (.handle h, t')
    | (.error e, t') => (.threw e, t')
  | .assignOwner h o => (.done, t.assignOwner h o)
  | .write h offset data o =>
    let r := t.write h offset data o
    (.ofUnit r.1, r.2)
  | .read h offset size o =>
    match t.read h offset size o with
    | .ok bs => (.bytes bs, t)
    | .error e => (.threw e, t)
  | .free h o =>
    let r := t.free h o
    (.ofUnit r.1, r.2)
  | .freeAllForOwner ord o => (.done, t.freeAllForOwner ord o)

end PageTracker

def isGrant : Op × Reply → Bool
  | (.allocate size, .handle _) => size ≠ 0
  | _ => false

namespace PageTracker

variable {t : PageTracker} {h : ℕ} {a : Allocation}

/-- `n` handles have been handed out so far, counted from 1 in 64 bits. -/
structure Issued (t : PageTracker) (n : ℕ) : Prop where
  next : t.nextHandle = wrap (n + 1)
  live : ∀ {h a}, t.allocations.lookup h = some a → ∃ k, 1 ≤ k ∧ k ≤ n ∧ h = wrap k

theorem Issued.new (s : SlabAllocator) : Issued (PageTracker.new s) 0 :=
  ⟨rfl, fun hl => by simp [PageTracker.new] at hl⟩

theorem Issued.fresh {n : ℕ} (hn : Issued t n) (hlt : n < 2 ^ 64) :
    t.allocations.lookup t.nextHandle = none := by
  cases hl : t.allocations.lookup t.nextHandle with
  | none => rfl
  | some a =>
    obtain ⟨k, h₁, h₂, he⟩ := hn.live hl
    rw [hn.next] at he
    unfold wrap at he
    omega

theorem Issued.of_subset {n : ℕ} {t' : PageTracker} (hn : Issued t n)
    (hnext : t'.nextHandle = t.nextHandle)
    (hsub : ∀ h, t.view h = none → t'.view h = none) : Issued t' n := by
  refine ⟨hnext.trans hn.next, fun {h a} hl => ?_⟩
  cases hl' : t.allocations.lookup h with
  | none =>
    have := view_eq_none.mp (hsub h (view_eq_none.mpr hl'))
    simp [hl] at this
  | some b => exact hn.live hl'

theorem Issued.granted {n : ℕ} (hn : Issued t n) (size : ℕ) : Issued (t.granted size) (n + 1) := by
  constructor
  · simp only [PageTracker.granted, hn.next, wrap]
    omega
  · intro k b hl
    simp only [PageTracker.granted, Dict.lookup_insert_iff] at hl
    split_ifs at hl with hk
    · exact ⟨n + 1, by omega, le_rfl, hk.trans hn.next⟩
    · obtain ⟨j, h₁, h₂, he⟩ := hn.live hl
      exact ⟨j, h₁, by omega, he⟩

/-- What one call does to a tracker that has handed out `n` handles. -/
structure StepSound (t : PageTracker) (n : ℕ) (op : Op) (r : Reply) (t' : PageTracker) : Prop where
  inv : Inv t'
  issued : Issued t' (n + if isGrant (op, r) then 1 else 0)
  refines : (isGrant (op, r) → n + 1 < 2 ^ 64) → ByteMap.Step t.view op r t'.view

theorem allocate_sound {n : ℕ} (hi : Inv t) (hn : Issued t n) (size : ℕ) :
    StepSound t n (.allocate size) (t.step (.allocate size)).1 (t.step (.allocate size)).2 := by
  simp only [step, hi.allocate_eq]
  split_ifs with h₀ h₁
  · exact ⟨hi, by simpa [isGrant, h₀] using hn, fun _ => by simp [ByteMap.Step, h₀]⟩
  · exact ⟨hi, hn, fun _ => by simp [ByteMap.Step, h₀]⟩
  · rw [not_or, Nat.not_lt] at h₁
    have hs := Nat.pos_of_ne_zero h₀
    refine ⟨hi.granted hs (by omega), by simpa [isGrant, h₀] using hn.granted size, fun hb => ?_⟩
    have hlt := hb (by simp [isGrant, h₀])
    have hnext : t.nextHandle = n + 1 := hn.next.trans (wrap_of_lt hlt)
    simp only [ByteMap.Step, if_neg h₀]
    exact Or.inr ⟨t.nextHandle, by omega, view_eq_none.mpr (hn.fresh (by omega)), rfl,
      hi.view_granted hs (by omega)⟩

theorem write_sound {n : ℕ} (hi : Inv t) (hn : Issued t n) (h offset : ℕ) (data : List Byte)
    (o : ℕ) : StepSound t n (.write h offset data o) (t.step (.write h offset data o)).1
      (t.step (.write h offset data o)).2 := by
  simp only [step]
  obtain ⟨hd, hw⟩ | ⟨hd, e, hw, hr⟩ | ⟨hd, hr, b, hw, hv⟩ := hi.write_cases h offset data o
  · rw [hw]
    exact ⟨hi, hn, fun _ => by simp [ByteMap.Step, hd, Reply.ofUnit]⟩
  · rw [hw]
    exact ⟨hi, hn, fun _ => by simp [ByteMap.Step, hd, hr, Reply.ofUnit]⟩
  · rw [hw]
    refine ⟨hi.setBuffer b, ⟨hn.next, hn.live⟩, fun _ => ?_⟩
    simp only [ByteMap.Step, if_neg hd, hr, Reply.ofUnit]
    exact ⟨trivial, hv⟩

theorem read_sound {n : ℕ} (hi : Inv t) (hn : Issued t n) (h offset size o : ℕ) :
    StepSound t n (.read h offset size o) (t.step (.read h offset size o)).1
      (t.step (.read h offset size o)).2 := by
  simp only [step, hi.read_eq]
  split_ifs with h₀
  · exact ⟨hi, hn, fun _ => by simp [ByteMap.Step, h₀]⟩
  · cases hr : ByteMap.refusal t.view h offset size o "Read exceeds allocation size" with
    | none => exact ⟨hi, hn, fun _ => by simp [ByteMap.Step, h₀, hr]⟩
    | some e => exact ⟨hi, hn, fun _ => by simp [ByteMap.Step, h₀, hr]⟩

theorem free_sound {n : ℕ} (hi : Inv t) (hn : Issued t n) (h o : ℕ) :
    StepSound t n (.free h o) (t.step (.free h o)).1 (t.step (.free h o)).2 := by
  simp only [step]
  obtain ⟨e, hf, hr⟩ | ⟨a, hl, hf, hr⟩ := free_cases t h o
  · rw [hf]
    exact ⟨hi, hn, fun _ => by simp [ByteMap.Step, hr, Reply.ofUnit]⟩
  · rw [hf]
    have hv := hi.view_release hl
    refine ⟨hi.release hl, hn.of_subset rfl fun k hk => ?_, fun _ => ?_⟩
    · rw [hv, Function.update_apply, hk, ite_self]
    · simp only [ByteMap.Step, hr, Reply.ofUnit]
      exact ⟨trivial, hv⟩

theorem assignOwner_sound {n : ℕ} (hi : Inv t) (hn : Issued t n) (h o : ℕ) :
    StepSound t n (.assignOwner h o) .done (t.assignOwner h o) := by
  have hv := view_assignOwner t h o
  refine ⟨hi.assignOwner h o, hn.of_subset ?_ fun k hk => ?_, fun _ => ⟨rfl, hv⟩⟩
  · unfold assignOwner
    split <;> rfl
  · rw [hv, Function.update_apply]
    split_ifs with he
    · rw [← he, hk, Option.map_none]
    · exact hk

theorem nextHandle_sweep (l : List ℕ) (o : ℕ) :
    (l.foldl (sweep o) t).nextHandle = t.nextHandle := by
  induction l generalizing t with
  | nil => rfl
  | cons h l ih =>
    rw [List.foldl_cons, ih]
    unfold sweep
    split
    · rfl
    · split_ifs <;> rfl

theorem freeAllForOwner_sound {n : ℕ} (hi : Inv t) (hn : Issued t n) (ord : IterOrder ℕ) (o : ℕ) :
    StepSound t n (.freeAllForOwner ord o) .done (t.freeAllForOwner ord o) := by
  obtain ⟨hi', hv⟩ := hi.freeAllForOwner ord o
  refine ⟨hi', hn.of_subset ?_ fun k hk => ?_, fun _ => ⟨rfl, hv⟩⟩
  · unfold freeAllForOwner
    split_ifs
    · rfl
    · exact nextHandle_sweep _ _
  · rw [hv]
    split_ifs
    · exact hk
    · simp [hk]

theorem step_sound {n : ℕ} (hi : Inv t) (hn : Issued t n) (op : Op) :
    StepSound t n op (t.step op).1 (t.step op).2 := by
  cases op with
  | allocate size => exact allocate_sound hi hn size
  | assignOwner h o => exact assignOwner_sound hi hn h o
  | write h offset data o => exact write_sound hi hn h offset data o
  | read h offset size o => exact read_sound hi hn h offset size o
  | free h o => exact free_sound hi hn h o
  | freeAllForOwner ord o => exact freeAllForOwner_sound hi hn ord o

/-- What holds after `n` handles have been handed out. -/
def Reached (n : ℕ) (t : PageTracker) : Prop := Inv t ∧ Issued t n

theorem Reached.step {n : ℕ} {t : PageTracker} (hr : Reached n t) (op : Op) :
    Reached (n + if isGrant (op, (t.step op).1) then 1 else 0) (t.step op).2 :=
  ⟨(step_sound hr.1 hr.2 op).inv, (step_sound hr.1 hr.2 op).issued⟩

/-- The invariant after a run, with the number of handles it handed out. -/
theorem Reached.run {n : ℕ} (hr : Reached n t) (ops : List Op) :
    Reached (n + (trace PageTracker.step t ops).countP isGrant)
      (Lib.run PageTracker.step t ops).2 :=
  run_counted Reached isGrant (fun _ _ op hr => hr.step op) hr

theorem Reached.allowed {n : ℕ} (hr : Reached n t) {ops : List Op}
    (hb : n + (trace PageTracker.step t ops).countP isGrant < 2 ^ 64) :
    Allowed ByteMap.Step t.view (trace PageTracker.step t ops)
      (Lib.run PageTracker.step t ops).2.view := by
  refine run_counted_refines Reached isGrant view (fun _ _ op hr => hr.step op) ?_ hr hb
  intro n t op hr hlt
  refine (step_sound hr.1 hr.2 op).refines fun hg => ?_
  rwa [if_pos hg] at hlt

theorem Reached.new {totalSize pageSize : ℕ} {garbage : ℕ → Byte} {s : SlabAllocator}
    (h : SlabAllocator.new totalSize pageSize garbage = .ok s) : Reached 0 (PageTracker.new s) :=
  ⟨Inv.new h, Issued.new s⟩

theorem Inv.write_frame (hi : Inv t) {h k : ℕ} (hk : k ≠ h) (offset : ℕ) (data : List Byte)
    (o : ℕ) : Inv (t.write h offset data o).2 ∧ (t.write h offset data o).2.view k = t.view k := by
  obtain ⟨-, hw⟩ | ⟨-, e, hw, -⟩ | ⟨-, -, b, hw, hv⟩ := hi.write_cases h offset data o
  · rw [hw]
    exact ⟨hi, rfl⟩
  · rw [hw]
    exact ⟨hi, rfl⟩
  · rw [hw]
    exact ⟨hi.setBuffer b, by rw [hv, ByteMap.setBytes, Function.update_of_ne hk]⟩

theorem Inv.free_frame (hi : Inv t) {h k : ℕ} (hk : k ≠ h) (o : ℕ) :
    Inv (t.free h o).2 ∧ (t.free h o).2.view k = t.view k := by
  obtain ⟨e, hf, -⟩ | ⟨a, hl, hf, -⟩ := free_cases t h o
  · rw [hf]
    exact ⟨hi, rfl⟩
  · rw [hf]
    exact ⟨hi.release hl, by rw [hi.view_release hl, Function.update_of_ne hk]⟩

theorem Inv.read_congr (hi : Inv t) {t' : PageTracker} (hi' : Inv t') {k : ℕ}
    (hv : t'.view k = t.view k) (offset n o : ℕ) : t'.read k offset n o = t.read k offset n o := by
  simp only [hi.read_eq, hi'.read_eq, ByteMap.refusal, ByteMap.bytes, hv]

section Success

variable {o : ℕ} (hl : t.allocations.lookup h = some a) (ho : a.ownerId = 0 ∨ a.ownerId = o)

include hl ho

theorem refusal_of_permitted (offset n : ℕ) (what : String) :
    ByteMap.refusal t.view h offset n o what =
      if offset + n ≤ a.totalSize then none else some (.outOfRange what) := by
  have hp : (Block.mk a.ownerId (t.contents a)).Permits o := ho
  simp only [ByteMap.refusal, view_of_lookup hl, hp, not_true_eq_false, if_false, length_contents]

theorem Inv.read_ok_iff (hi : Inv t) (offset n : ℕ) :
    (∃ bs, t.read h offset n o = .ok bs) ↔ n = 0 ∨ offset + n ≤ a.totalSize := by
  rw [hi.read_eq, refusal_of_permitted hl ho]
  split_ifs with h₀ h₁
  · simp [h₀]
  · simp [h₁]
  · simp [h₀, h₁]

theorem Inv.write_ok_iff (hi : Inv t) (offset : ℕ) (data : List Byte) :
    (t.write h offset data o).1 = .ok () ↔ data = [] ∨ offset + data.length ≤ a.totalSize := by
  have hr := refusal_of_permitted hl ho offset data.length "Write exceeds allocation size"
  obtain ⟨hd, hw⟩ | ⟨hd, e, hw, he⟩ | ⟨hd, he, b, hw, -⟩ := hi.write_cases h offset data o
  · rw [hw]
    simp [hd]
  · rw [he] at hr
    split_ifs at hr with hle
    simp [hw, hd, hle]
  · rw [he] at hr
    split_ifs at hr with hle
    simp [hw, hle]

end Success

/-- For every pool the constructor accepts and every run that hands out fewer than
`2 ^ 64` handles: the run is a trace of the abstract store, writing or freeing one
handle leaves what the others read, and a permitted access to a live handle succeeds
exactly when it is empty or lies inside the allocation. -/
theorem refines_byteMap {totalSize pageSize : ℕ} {garbage : ℕ → Byte} {slab : SlabAllocator}
    (hnew : SlabAllocator.new totalSize pageSize garbage = .ok slab) (ops : List Op)
    (hgrants : (trace step (PageTracker.new slab) ops).countP isGrant < 2 ^ 64) :
    let t := (run step (PageTracker.new slab) ops).2
    Allowed ByteMap.Step (fun _ => none) (trace step (PageTracker.new slab) ops) t.view ∧
    (∀ h k, k ≠ h → ∀ offset data o offset' n o',
      (t.write h offset data o).2.read k offset' n o' = t.read k offset' n o' ∧
      (t.free h o).2.read k offset' n o' = t.read k offset' n o') ∧
    (∀ h a, t.allocations.lookup h = some a → ∀ o, a.ownerId = 0 ∨ a.ownerId = o → ∀ offset,
      (∀ n, (∃ bs, t.read h offset n o = .ok bs) ↔ n = 0 ∨ offset + n ≤ a.totalSize) ∧
      (∀ data, (t.write h offset data o).1 = .ok () ↔
        data = [] ∨ offset + data.length ≤ a.totalSize)) := by
  intro t
  have hr := Reached.new hnew
  have hi : Inv t := (hr.run ops).1
  refine ⟨hr.allowed (by omega), ?_, ?_⟩
  · intro h k hk offset data o offset' n o'
    obtain ⟨hw, hwv⟩ := hi.write_frame hk offset data o
    obtain ⟨hf, hfv⟩ := hi.free_frame hk o
    exact ⟨hi.read_congr hw hwv offset' n o', hi.read_congr hf hfv offset' n o'⟩
  · intro h a hl o ho offset
    exact ⟨hi.read_ok_iff hl ho offset, hi.write_ok_iff hl ho offset⟩

/-- Two pages of two bytes: the second handle gets the page of the first one, cleared. -/
theorem refines_byteMap_recycled :
    ∃ slab, SlabAllocator.new 4 2 (fun _ => 9) = .ok slab ∧
      Allowed ByteMap.Step (fun _ => none)
        (trace step (PageTracker.new slab) [.allocate 3, .write 1 1 [5, 6] 7, .free 1 7,
          .allocate 2, .read 2 0 2 7])
        (run step (PageTracker.new slab) [.allocate 3, .write 1 1 [5, 6] 7, .free 1 7,
          .allocate 2, .read 2 0 2 7]).2.view := by
  have hnew : SlabAllocator.new 4 2 (fun _ => 9) = .ok _ := rfl
  exact ⟨_, hnew, (refines_byteMap hnew _ (by decide)).1⟩

end PageTracker

end MemInfo
