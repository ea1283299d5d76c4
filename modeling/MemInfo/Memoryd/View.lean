import MemInfo.Memoryd.ByteMap
import MemInfo.Memoryd.Invariant

/-! # Handles as byte arrays

The view of a handle is its owner and the bytes that lie on its pages. Reads and
writes through the pages are slices and splices of the view, and no operation on
one handle changes the view of another.
-/

namespace MemInfo

open Lib

namespace PageTracker

def contents (t : PageTracker) (a : Allocation) : List Byte :=
  gather t.allocator.buffer t.allocator.pageSize a.pages a.totalSize

def view (t : PageTracker) (h : ℕ) : Option Block :=
  (t.allocations.lookup h).map fun a => ⟨a.ownerId, t.contents a⟩

section Loops

variable {s : SlabAllocator} {pages : List ℕ} {offset : ℕ}

def Usable (s : SlabAllocator) (pages : List ℕ) : Prop :=
  ∀ p ∈ pages, p < s.totalPages ∧ s.pageStates p = .allocated

theorem writePage_eq (hu : Usable s pages) {i : ℕ} (hi : i < pages.length) (off : ℕ)
    (data : List Byte) (hoff : off + data.length ≤ s.pageSize) :
    s.writePage pages[i] off data =
      (.ok (), { s with buffer := blit s.buffer (pages[i] * s.pageSize + off) data }) := by
  obtain ⟨hlt, hst⟩ := hu _ (List.getElem_mem hi)
  unfold SlabAllocator.writePage
  rw [if_neg (by omega), if_neg (by simp [hst])]

theorem readPage_eq (hu : Usable s pages) {i : ℕ} (hi : i < pages.length) (off n : ℕ)
    (hoff : off + n ≤ s.pageSize) :
    s.readPage pages[i] off n = .ok (window s.buffer (pages[i] * s.pageSize + off) n) := by
  obtain ⟨hlt, hst⟩ := hu _ (List.getElem_mem hi)
  unfold SlabAllocator.readPage
  rw [if_neg (by omega), if_neg (by simp [hst])]

variable (hps : 0 < s.pageSize) (hlt : pages.length * s.pageSize < 2 ^ 64)

include hps hlt

theorem writeLoop_spec {data : List Byte} (hnd : pages.Nodup) (hu : Usable s pages)
    (hle : offset + data.length ≤ pages.length * s.pageSize) {fuel idx : ℕ}
    (hf : data.length ≤ idx + fuel) :
    ∃ b, writeLoop pages offset data fuel idx s = (.ok (), { s with buffer := b }) ∧
      Scattered s.pageSize pages (offset + idx) (data.drop idx) s.buffer b := by
  induction fuel generalizing idx s with
  | zero =>
    refine ⟨s.buffer, rfl, ?_⟩
    rw [List.drop_eq_nil_of_le (by omega)]
    exact .nil _
  | succ fuel ih =>
    by_cases hlen : idx < data.length
    · have hpage : (offset + idx) / s.pageSize < pages.length := page_index_lt hps (by omega)
      have hmod := Nat.mod_lt (offset + idx) hps
      generalize hn : min (data.length - idx) (s.pageSize - (offset + idx) % s.pageSize) = n
      have hslice : (slice data idx n).length = n := by rw [length_slice]; omega
      have haddr : pageAddr s.pageSize pages (offset + idx) =
          pages[(offset + idx) / s.pageSize] * s.pageSize + (offset + idx) % s.pageSize := by
        rw [pageAddr, List.getD_eq_getElem _ _ hpage]
      have hw := writePage_eq hu hpage ((offset + idx) % s.pageSize) (slice data idx n) (by omega)
      rw [← haddr] at hw
      obtain ⟨b, hb, hs⟩ := @ih { s with
        buffer := blit s.buffer (pageAddr s.pageSize pages (offset + idx)) (slice data idx n) }
        hps hlt hu hle (idx + n) (by omega)
      refine ⟨b, ?_, ?_⟩
      · rw [writeLoop, if_pos hlen]
        simp only [wrap_of_lt (show offset + idx < 2 ^ 64 by omega),
          List.getElem?_eq_getElem hpage, hn, hw, hb]
      · have hsplit : data.drop idx = slice data idx n ++ data.drop (idx + n) := by
          rw [slice, ← List.drop_drop, List.take_append_drop]
        rw [hsplit]
        refine (Scattered.of_blit (by omega)).append hps hnd ?_ ?_
        · rw [hslice, List.length_drop]; omega
        · rw [hslice, Nat.add_assoc]; exact hs
    · refine ⟨s.buffer, ?_, ?_⟩
      · rw [writeLoop, if_neg hlen]
      · rw [List.drop_eq_nil_of_le (by omega)]
        exact .nil _

theorem readLoop_spec (hu : Usable s pages) {n size : ℕ} (hn : n ≤ pages.length * s.pageSize)
    (hle : offset + size ≤ n) {fuel : ℕ} {out : List Byte} (hf : size ≤ out.length + fuel)
    (hout : out = slice (gather s.buffer s.pageSize pages n) offset out.length)
    (ho : out.length ≤ size) :
    readLoop s pages offset size fuel out =
      .ok (slice (gather s.buffer s.pageSize pages n) offset size) := by
  induction fuel generalizing out with
  | zero =>
    have he : out.length = size := by omega
    rw [readLoop, ← he, ← hout]
  | succ fuel ih =>
    by_cases hlen : out.length < size
    · have hpage : (offset + out.length) / s.pageSize < pages.length :=
        page_index_lt hps (by omega)
      have hmod := Nat.mod_lt (offset + out.length) hps
      generalize hk : min (size - out.length)
        (s.pageSize - (offset + out.length) % s.pageSize) = k
      have haddr : pages[(offset + out.length) / s.pageSize] * s.pageSize +
          (offset + out.length) % s.pageSize = pageAddr s.pageSize pages (offset + out.length) := by
        rw [pageAddr, List.getD_eq_getElem _ _ hpage]
      have hr := readPage_eq hu hpage ((offset + out.length) % s.pageSize) k (by omega)
      rw [haddr, window_eq_slice (n := n) (by omega) (by omega)] at hr
      rw [readLoop, if_pos hlen]
      simp only [wrap_of_lt (show offset + out.length < 2 ^ 64 by omega),
        List.getElem?_eq_getElem hpage, hk, hr]
      have hlen' :
          (out ++ slice (gather s.buffer s.pageSize pages n) (offset + out.length) k).length =
            out.length + k := by
        rw [List.length_append, length_slice, length_gather]; omega
      refine ih (by omega) ?_ (by omega)
      rw [hlen', ← slice_append_slice, ← hout]
    · have he : out.length = size := by omega
      rw [readLoop, if_neg hlen, ← he, ← hout]

end Loops

variable {t : PageTracker} {h h' : ℕ} {a : Allocation}

theorem bytes_of_lookup (hl : t.allocations.lookup h = some a) :
    ByteMap.bytes t.view h = t.contents a := by
  simp [ByteMap.bytes, view, hl]

@[simp] theorem length_contents : (t.contents a).length = a.totalSize := length_gather

theorem view_eq_none : t.view h = none ↔ t.allocations.lookup h = none := by
  simp [view]

theorem view_of_lookup (hl : t.allocations.lookup h = some a) :
    t.view h = some ⟨a.ownerId, t.contents a⟩ := by
  simp [view, hl]

theorem lookup_of_view {b : Block} (hv : t.view h = some b) :
    ∃ a, t.allocations.lookup h = some a ∧ b = ⟨a.ownerId, t.contents a⟩ := by
  obtain ⟨a, hl, he⟩ := Option.map_eq_some_iff.mp hv
  exact ⟨a, hl, he.symm⟩

theorem access_cases (t : PageTracker) (h offset n o : ℕ) (what : String) :
    (∃ a, t.allocations.lookup h = some a ∧ t.checkOwnership h o = .ok a ∧
      offset + n ≤ a.totalSize ∧ ByteMap.refusal t.view h offset n o what = none) ∨
    (∃ a, t.checkOwnership h o = .ok a ∧ ¬ offset + n ≤ a.totalSize ∧
      ByteMap.refusal t.view h offset n o what = some (.outOfRange what)) ∨
    ∃ e, t.checkOwnership h o = .error e ∧
      ByteMap.refusal t.view h offset n o what = some e := by
  unfold checkOwnership ByteMap.refusal
  cases hl : t.allocations.lookup h with
  | none => exact Or.inr (Or.inr ⟨_, rfl, by simp only [view_eq_none.mpr hl]⟩)
  | some a =>
    simp only [view_of_lookup hl, length_contents, Block.Permits, not_or]
    by_cases hp : ¬ a.ownerId = 0 ∧ ¬ a.ownerId = o
    · exact Or.inr (Or.inr ⟨.permissionDenied, by rw [if_pos hp], by rw [if_pos hp]⟩)
    · by_cases hle : offset + n ≤ a.totalSize
      · exact Or.inl ⟨a, rfl, by rw [if_neg hp], hle, by rw [if_neg hp, if_pos hle]⟩
      · exact Or.inr (Or.inl ⟨a, by rw [if_neg hp], hle, by rw [if_neg hp, if_neg hle]⟩)

/-- A free removes the view of its handle, or is refused and changes nothing. -/
theorem free_cases (t : PageTracker) (h o : ℕ) :
    (∃ e, t.free h o = (.error e, t) ∧ ByteMap.refusal t.view h 0 0 o "" = some e) ∨
    ∃ a, t.allocations.lookup h = some a ∧ t.free h o = (.ok (), t.release h a) ∧
      ByteMap.refusal t.view h 0 0 o "" = none := by
  unfold PageTracker.free
  obtain ⟨a, hl, hc, -, hr⟩ | ⟨a, hc, hle, -⟩ | ⟨e, hc, hr⟩ := access_cases t h 0 0 o ""
  · exact Or.inr ⟨a, hl, by simp only [hc], hr⟩
  · exact absurd (Nat.zero_le _) hle
  · exact Or.inl ⟨e, by simp only [hc], hr⟩

section Views

variable (hi : Inv t)

include hi

theorem Inv.usable (hl : t.allocations.lookup h = some a) : Usable t.allocator a.pages :=
  fun _ hp => hi.page_allocated hl hp

theorem Inv.span_lt (hl : t.allocations.lookup h = some a) :
    a.pages.length * t.allocator.pageSize < 2 ^ 64 :=
  (Nat.mul_le_mul_right _ (hi.pages_length_le hl)).trans_lt hi.pool_lt

/-- A read returns a slice of the view, or the refusal of the abstract store. -/
theorem Inv.read_eq (h offset size o : ℕ) :
    t.read h offset size o =
      if size = 0 then .ok []
      else match ByteMap.refusal t.view h offset size o "Read exceeds allocation size" with
        | some e => .error e
        | none => .ok (slice (ByteMap.bytes t.view h) offset size) := by
  unfold PageTracker.read
  split_ifs with h₀
  · rfl
  obtain ⟨a, hl, hc, hle, hr⟩ | ⟨a, hc, hle, hr⟩ | ⟨e, hc, hr⟩ :=
    access_cases t h offset size o "Read exceeds allocation size"
  · simp only [hc, hr, bytes_of_lookup hl]
    rw [if_neg (by omega), readLoop_spec hi.pageSize_pos (hi.span_lt hl) (hi.usable hl)
      (hi.size_le hl) hle (by simp) (by simp [slice]) (by simp)]
    rfl
  · simp only [hc, hr]
    rw [if_pos (by omega)]
  · simp only [hc, hr]

theorem Inv.view_scattered (hl : t.allocations.lookup h = some a) {offset : ℕ} {data : List Byte}
    {b : ℕ → Byte} (hle : offset + data.length ≤ a.totalSize)
    (hs : Scattered t.allocator.pageSize a.pages offset data t.allocator.buffer b) :
    view { t with allocator := { t.allocator with buffer := b } } =
      Function.update t.view h (some ⟨a.ownerId, splice (t.contents a) offset data⟩) := by
  funext k
  by_cases hk : k = h
  · subst hk
    have hc := hs.gather_splice hi.pageSize_pos (hi.pages_nodup hl) (hi.size_le hl) hle
    simp only [view, hl, Option.map_some, contents, hc, Function.update_self]
  · rw [Function.update_of_ne hk]
    unfold view
    cases hl' : t.allocations.lookup k with
    | none => rfl
    | some a' =>
      have hc := hs.gather_disjoint hi.pageSize_pos
        (hi.pages_disjoint (Ne.symm hk) hl hl') (hle.trans (hi.size_le hl)) (hi.size_le hl')
      simp only [Option.map_some, contents, hc]

theorem Inv.view_writePage {p off k : ℕ} {data : List Byte}
    (hp : ∀ a, t.allocations.lookup k = some a → p ∉ a.pages) :
    view { t with allocator := (t.allocator.writePage p off data).2 } k = t.view k := by
  unfold SlabAllocator.writePage
  split_ifs with hbounds
  · rfl
  · rfl
  · refine Option.map_congr fun a hl => congrArg _ (gather_congr fun j hj => blit_outside ?_)
    by_contra hin
    dsimp only at hj hin
    have hps := hi.pageSize_pos
    have hpage := pageAddr_page_mem hps (Nat.lt_of_lt_of_le hj (hi.size_le hl))
    have hdiv : pageAddr t.allocator.pageSize a.pages j / t.allocator.pageSize = p :=
      Nat.div_eq_of_lt_le (by omega) (by rw [Nat.add_mul]; omega)
    exact hp a hl (hdiv ▸ hpage)

/-- A write splices the view of its handle, or is refused and changes nothing. -/
theorem Inv.write_cases (h offset : ℕ) (data : List Byte) (o : ℕ) :
    (data = [] ∧ t.write h offset data o = (.ok (), t)) ∨
    (data ≠ [] ∧ ∃ e, t.write h offset data o = (.error e, t) ∧
      ByteMap.refusal t.view h offset data.length o "Write exceeds allocation size" = some e) ∨
    (data ≠ [] ∧
      ByteMap.refusal t.view h offset data.length o "Write exceeds allocation size" = none ∧
      ∃ b, t.write h offset data o =
          (.ok (), { t with allocator := { t.allocator with buffer := b } }) ∧
        view { t with allocator := { t.allocator with buffer := b } } =
          ByteMap.setBytes t.view h (splice (ByteMap.bytes t.view h) offset data)) := by
  by_cases hd : data = []
  · exact Or.inl ⟨hd, by simp [PageTracker.write, hd]⟩
  have hne : ¬ data.length = 0 := by simpa using hd
  obtain ⟨a, hl, hc, hle, hr⟩ | ⟨a, hc, hle, hr⟩ | ⟨e, hc, hr⟩ :=
    access_cases t h offset data.length o "Write exceeds allocation size"
  · obtain ⟨b, hb, hs⟩ := writeLoop_spec hi.pageSize_pos (hi.span_lt hl) (hi.pages_nodup hl)
      (hi.usable hl) (hle.trans (hi.size_le hl)) (show data.length ≤ 0 + data.length by omega)
    refine Or.inr (Or.inr ⟨hd, hr, b, ?_, ?_⟩)
    · simp only [PageTracker.write, hne, if_false, hc, hb]
      rw [if_neg (by omega)]
    · rw [hi.view_scattered hl hle (by simpa using hs), bytes_of_lookup hl, ByteMap.setBytes,
        view_of_lookup hl]
      rfl
  · refine Or.inr (Or.inl ⟨hd, _, ?_, hr⟩)
    simp only [PageTracker.write, hne, if_false, hc]
    rw [if_pos (by omega)]
  · refine Or.inr (Or.inl ⟨hd, e, ?_, hr⟩)
    simp only [PageTracker.write, hne, if_false, hc]

theorem Inv.view_granted {size : ℕ} (hs : 0 < size)
    (hp : size ⌈/⌉ t.allocator.pageSize ≤ t.allocator.freeList.length) :
    (t.granted size).view =
      Function.update t.view t.nextHandle (some ⟨0, List.replicate size 0⟩) := by
  have hps := hi.pageSize_pos
  have hi' := hi.granted hs hp
  have hne : t.allocator.freeList.take (size ⌈/⌉ t.allocator.pageSize) ⊆ t.allocator.freeList :=
    List.take_subset _ _
  funext k
  by_cases hk : k = t.nextHandle
  · subst hk
    have hl : (t.granted size).allocations.lookup t.nextHandle = some ⟨size,
        t.allocator.freeList.take (size ⌈/⌉ t.allocator.pageSize), 0⟩ := AList.lookup_insert _
    rw [Function.update_self, view_of_lookup hl]
    congr 2
    refine List.eq_replicate_iff.mpr ⟨length_contents, fun x hx => ?_⟩
    obtain ⟨i, hlt, rfl⟩ := List.mem_map.mp hx
    have hmem := pageAddr_page_mem (i := i) hps
      ((List.mem_range.mp hlt).trans_le (hi'.size_le hl))
    simp only [PageTracker.granted, SlabAllocator.taken] at hmem ⊢
    rw [if_pos hmem]
  · rw [Function.update_of_ne hk]
    unfold view
    simp only [PageTracker.granted, AList.lookup_insert_ne hk]
    cases hl : t.allocations.lookup k with
    | none => rfl
    | some a =>
      simp only [Option.map_some, contents, SlabAllocator.taken_pageSize]
      congr 2
      refine gather_congr fun i hlt => ?_
      have hmem := pageAddr_page_mem hps (hlt.trans_le (hi.size_le hl))
      refine if_neg fun hc => ?_
      exact List.disjoint_of_nodup_append hi.nodup (hne hc) (mem_heldPages.mpr ⟨k, a, hl, hmem⟩)

theorem Inv.view_release (hl : t.allocations.lookup h = some a) :
    (t.release h a).view = Function.update t.view h none := by
  rw [hi.release_eq hl]
  funext k
  simp only [view, Dict.lookup_erase_iff, Function.update_apply]
  split_ifs <;> rfl

end Views

theorem view_assignOwner (t : PageTracker) (h : ℕ) (o : ℕ) :
    (t.assignOwner h o).view =
      Function.update t.view h ((t.view h).map fun b => { b with owner := o }) := by
  unfold assignOwner
  cases hl : t.allocations.lookup h with
  | none => simp [view_eq_none.mpr hl]
  | some a =>
    funext k
    by_cases hk : k = h
    · subst hk
      simp [view, hl, contents]
    · simp only [Function.update_of_ne hk, view, AList.lookup_insert_ne hk]
      rfl

section Sweep

theorem Inv.sweep (hi : Inv t) (o : ℕ) (h : ℕ) : Inv (t.sweep o h) := by
  unfold PageTracker.sweep
  cases hl : t.allocations.lookup h with
  | none => exact hi
  | some a =>
    simp only
    split_ifs
    · exact hi.release hl
    · exact hi

theorem Inv.view_sweep (hi : Inv t) (o : ℕ) (h : ℕ) :
    (t.sweep o h).view = Function.update t.view h ((t.view h).filter fun b => b.owner ≠ o) := by
  unfold PageTracker.sweep
  cases hl : t.allocations.lookup h with
  | none => simp [view_eq_none.mpr hl]
  | some a =>
    simp only [view_of_lookup hl]
    split_ifs with ho
    · rw [hi.view_release hl, Option.filter_some, if_neg (by simpa using ho)]
    · rw [Option.filter_some, if_pos (by simpa using ho), ← view_of_lookup hl,
        Function.update_eq_self]

theorem Inv.foldl_sweep (hi : Inv t) (o : ℕ) (l : List ℕ) :
    Inv (l.foldl (PageTracker.sweep o) t) ∧ ∀ k, (l.foldl (PageTracker.sweep o) t).view k =
      if k ∈ l then (t.view k).filter fun b => b.owner ≠ o else t.view k := by
  induction l generalizing t with
  | nil => exact ⟨hi, by simp⟩
  | cons h l ih =>
    obtain ⟨hi', hv⟩ := ih (hi.sweep o h)
    refine ⟨hi', fun k => ?_⟩
    rw [List.foldl_cons, hv, hi.view_sweep]
    by_cases hk : k = h
    · subst hk
      simp
    · simp [hk]

/-- The sweep of an owner removes exactly the blocks of that owner, whatever its order. -/
theorem Inv.freeAllForOwner (hi : Inv t) (ord : IterOrder ℕ) (o : ℕ) :
    Inv (t.freeAllForOwner ord o) ∧ (t.freeAllForOwner ord o).view =
      if o = 0 then t.view else fun k => (t.view k).filter fun b => b.owner ≠ o := by
  unfold PageTracker.freeAllForOwner
  split_ifs with h₀
  · exact ⟨hi, rfl⟩
  · obtain ⟨hi', hv⟩ := hi.foldl_sweep o (ord.order t.allocations.keys)
    refine ⟨hi', funext fun k => ?_⟩
    rw [hv]
    split_ifs with hk
    · rfl
    · rw [ord.mem_iff, ← AList.mem_keys, ← AList.lookup_eq_none, ← view_eq_none] at hk
      simp [hk]

end Sweep

end PageTracker

end MemInfo
