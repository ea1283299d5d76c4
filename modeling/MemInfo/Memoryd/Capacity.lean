import MemInfo.Memoryd.Accounting
import MemInfo.Memoryd.Server

/-! # The capacity that memoryd reports

The pool lies in one array, and no array is longer than `PTRDIFF_MAX` bytes. The rounding of
`allocate` therefore overflows for no size that the pool could hold, and the free bytes that
the control socket reports are the largest size that is granted.
-/

namespace MemInfo

open Lib MemoryProtocol

def ptrdiffMax : ℕ := 2 ^ 63 - 1

/-- The constructor with the allocation of its buffer: `newArray n` is what `new uint8_t[n]` finds
in the memory it gets, or `none` if it throws. -/
def SlabAllocator.create (newArray : ℕ → Option (ℕ → Byte)) (totalSize pageSize : ℕ) :
    Except Err SlabAllocator :=
  match SlabAllocator.new totalSize pageSize fun _ => 0 with
  | .error e => .error e
  | .ok s =>
    match newArray (s.totalPages * s.pageSize) with
    | none => .error .badAlloc
    | some garbage => .ok { s with buffer := garbage }

theorem SlabAllocator.create_eq {newArray : ℕ → Option (ℕ → Byte)} {totalSize pageSize : ℕ}
    {s : SlabAllocator} (h : create newArray totalSize pageSize = .ok s) :
    newArray (s.totalPages * s.pageSize) = some s.buffer ∧
      new totalSize pageSize s.buffer = .ok s := by
  unfold create at h
  split at h
  · cases h
  case h_2 s₀ h₀ =>
    split at h
    · cases h
    case h_2 garbage hg =>
      obtain rfl := Except.ok.inj h
      refine ⟨hg, ?_⟩
      simp only [new] at h₀ ⊢
      split_ifs at h₀ ⊢
      rw [← Except.ok.inj h₀]

theorem SlabAllocator.pool_of_new {totalSize pageSize : ℕ} {garbage : ℕ → Byte}
    {s : SlabAllocator} (h : new totalSize pageSize garbage = .ok s) :
    s.pageSize = pageSize ∧ 0 < s.totalPages := by
  simp only [new] at h
  split_ifs at h with _ h₁ _
  obtain rfl := Except.ok.inj h
  exact ⟨rfl, Nat.pos_of_ne_zero h₁⟩

namespace PageTracker

variable {t t' t'' : PageTracker}

def memoryStats (t : PageTracker) (requestId : ℕ) : Option ControlResponse :=
  (MemoryControlSocket.mk (some t.allocator)).handleRequest (some ⟨.getMemoryStats, requestId⟩)

structure SamePool (t t' : PageTracker) : Prop where
  pageSize : t'.allocator.pageSize = t.allocator.pageSize
  totalPages : t'.allocator.totalPages = t.allocator.totalPages

theorem SamePool.refl (t : PageTracker) : SamePool t t := ⟨rfl, rfl⟩

theorem SamePool.trans (h : SamePool t t') (h' : SamePool t' t'') : SamePool t t'' :=
  ⟨h'.pageSize.trans h.pageSize, h'.totalPages.trans h.totalPages⟩

@[simp] theorem allocator_assignOwner (t : PageTracker) (h o : ℕ) :
    (t.assignOwner h o).allocator = t.allocator := by
  unfold PageTracker.assignOwner
  split <;> rfl

theorem SamePool.assignOwner (t : PageTracker) (h o : ℕ) : SamePool t (t.assignOwner h o) := by
  constructor <;> rw [allocator_assignOwner]

theorem Inv.samePool_sweep (hi : Inv t) (o h : ℕ) : SamePool t (t.sweep o h) := by
  unfold PageTracker.sweep
  split
  · exact .refl t
  case h_2 a hl =>
    split_ifs
    · rw [hi.release_eq hl]
      exact ⟨rfl, rfl⟩
    · exact .refl t

theorem Inv.samePool_foldl_sweep (hi : Inv t) (o : ℕ) (l : List ℕ) :
    SamePool t (l.foldl (PageTracker.sweep o) t) := by
  induction l generalizing t with
  | nil => exact .refl t
  | cons h l ih => exact (hi.samePool_sweep o h).trans (ih (hi.sweep o h))

theorem Inv.samePool_dispatch (hi : Inv t) (s : ℕ) (req : MemoryRequest) :
    SamePool t (dispatch t s req).2 := by
  unfold dispatch
  cases req.op with
  | alloc =>
    simp only [hi.allocate_eq]
    split_ifs
    · exact .assignOwner t 0 s
    · exact .refl t
    · have hgrant : SamePool t (t.granted req.size) := ⟨rfl, rfl⟩
      exact hgrant.trans (.assignOwner _ _ _)
  | free =>
    obtain ⟨e, hf, -⟩ | ⟨a, hl, hf, -⟩ := free_cases t req.handle s
    · simp only [hf]
      exact .refl t
    · simp only [hf, hi.release_eq hl]
      exact ⟨rfl, rfl⟩
  | write =>
    cases req.data with
    | none => exact .refl t
    | some data =>
      simp only
      split_ifs
      · exact .refl t
      · obtain ⟨-, hw⟩ | ⟨-, e, hw, -⟩ | ⟨-, -, b, hw, -⟩ :=
          hi.write_cases req.handle req.offset data s
        · simp only [hw]
          exact .refl t
        · simp only [hw]
          exact .refl t
        · simp only [hw]
          exact ⟨rfl, rfl⟩
  | read =>
    simp only
    split_ifs
    · exact .refl t
    · split <;> exact .refl t
  | ping => exact .refl t
  | other code => exact .refl t

theorem Inv.samePool_serve (hi : Inv t) (ev : Event) : SamePool t (t.serve ev).2 := by
  cases ev with
  | request s req =>
    have hd := hi.samePool_dispatch s req
    simp only [serve, processRequest]
    split_ifs
    · exact .refl t
    · rcases hdisp : dispatch t s req with ⟨_ | _, t'⟩
      · rwa [hdisp] at hd
      · rwa [hdisp] at hd
  | disconnect s ord =>
    simp only [serve, PageTracker.freeAllForOwner]
    split_ifs
    · exact .refl t
    · exact hi.samePool_foldl_sweep s _

theorem Reached.samePool {n : ℕ} (hr : Reached n t) (evs : List Event) :
    SamePool t (Lib.run serve t evs).2 := by
  let J (n : ℕ) (u : PageTracker) : Prop := Reached n u ∧ SamePool t u
  have hrun : J _ (Lib.run serve t evs).2 :=
    run_counted J isGranted (fun _ _ ev hj =>
      ⟨(serve_sound hj.1 ev).reached, hj.2.trans (hj.1.1.samePool_serve ev)⟩) ⟨hr, .refl t⟩
  exact hrun.2

theorem Inv.memoryStats_free (hi : Inv t) (requestId : ℕ) :
    ∃ r, t.memoryStats requestId = some r ∧
      r.poolFreeBytes = t.allocator.freeList.length * t.allocator.pageSize := by
  obtain ⟨r, hr, -, hfree⟩ := hi.stats requestId
  exact ⟨r, hr, hfree⟩

theorem Inv.fits_iff (hi : Inv t)
    (hmax : t.allocator.totalPages * t.allocator.pageSize ≤ ptrdiffMax)
    (hpage : 0 < t.allocator.totalPages) (size : ℕ) :
    ¬ (size > sizeMax - (t.allocator.pageSize - 1) ∨
        t.allocator.freeList.length < size ⌈/⌉ t.allocator.pageSize) ↔
      size ≤ t.allocator.freeList.length * t.allocator.pageSize := by
  have hfree := Nat.mul_le_mul_right t.allocator.pageSize hi.freeList_length_le
  have hone := Nat.le_mul_of_pos_left t.allocator.pageSize hpage
  rw [not_or, Nat.not_lt, Nat.not_lt, ceilDiv_le_iff_le_mul hi.pageSize_pos, Nat.mul_comm]
  unfold ptrdiffMax at hmax
  unfold sizeMax
  omega

theorem freeList_granted {size : ℕ}
    (h : size ⌈/⌉ t.allocator.pageSize ≤ t.allocator.freeList.length) :
    (t.granted size).allocator.freeList.length + size ⌈/⌉ t.allocator.pageSize =
      t.allocator.freeList.length := by
  simp only [granted, SlabAllocator.taken_freeList, List.length_drop, List.length_take]
  omega

theorem Inv.processRequest_alloc (hi : Inv t)
    (hmax : t.allocator.totalPages * t.allocator.pageSize ≤ ptrdiffMax)
    (hpage : 0 < t.allocator.totalPages) (s : ℕ) {req : MemoryRequest}
    (hv : req.protocolVersion = protocolVersion) (hop : req.op = .alloc) (hs : 1 ≤ req.size) :
    processRequest t s req =
      if req.size ≤ t.allocator.freeList.length * t.allocator.pageSize then
        (buildResponse req .ok "OK" t.nextHandle,
          (t.granted req.size).assignOwner t.nextHandle s)
      else (MemoryProtocol.failure req .badAlloc, t) := by
  have hfits := hi.fits_iff hmax hpage req.size
  simp only [processRequest, hv, ne_eq, not_true_eq_false, if_false, dispatch, hop,
    hi.allocate_eq, Nat.ne_of_gt hs]
  split_ifs with hrefused hle hle
  · exact absurd hrefused (hfits.mpr hle)
  · rfl
  · rfl
  · exact absurd (hfits.mp hrefused) hle

/-- In every state of the daemon an ALLOC is answered with OK if its size is at most the free
bytes that the control socket reports, and with OUT_OF_MEMORY otherwise. A grant lowers the
free bytes by the size, rounded up to whole pages. -/
theorem advertised_capacity {newArray : ℕ → Option (ℕ → Byte)}
    (hheap : ∀ n garbage, newArray n = some garbage → n ≤ ptrdiffMax)
    {totalSize pageSize : ℕ} {slab : SlabAllocator}
    (hnew : SlabAllocator.create newArray totalSize pageSize = .ok slab) (evs : List Event)
    (s : ℕ) (req : MemoryRequest) (hv : req.protocolVersion = protocolVersion)
    (hop : req.op = .alloc) (hs : 1 ≤ req.size) (requestId : ℕ) :
    let t := (run serve (PageTracker.new slab) evs).2
    let answer := processRequest t s req
    ∃ r r', t.memoryStats requestId = some r ∧ answer.2.memoryStats requestId = some r' ∧
      (answer.1.status = .ok ↔ req.size ≤ r.poolFreeBytes) ∧
      (answer.1.status = .outOfMemory ↔ ¬ req.size ≤ r.poolFreeBytes) ∧
      (answer.1.status = .ok →
        r'.poolFreeBytes + (req.size ⌈/⌉ pageSize) * pageSize = r.poolFreeBytes) := by
  intro t answer
  obtain ⟨hbuffer, hnew⟩ := SlabAllocator.create_eq hnew
  have hreached := Reached.new hnew
  have hi : Inv t := (hreached.serves evs).1
  have hpool : SamePool (PageTracker.new slab) t := hreached.samePool evs
  obtain ⟨hsize, hpos⟩ := SlabAllocator.pool_of_new hnew
  have hmax : t.allocator.totalPages * t.allocator.pageSize ≤ ptrdiffMax := by
    rw [hpool.totalPages, hpool.pageSize]
    exact hheap _ _ hbuffer
  have hi' : Inv answer.2 := (serve_sound (hreached.serves evs) (.request s req)).reached.1
  have hanswer := hi.processRequest_alloc hmax (hpool.totalPages ▸ hpos) s hv hop hs
  obtain ⟨r, hr, hfree⟩ := hi.memoryStats_free requestId
  obtain ⟨r', hr', hfree'⟩ := hi'.memoryStats_free requestId
  refine ⟨r, r', hr, hr', ?_⟩
  rw [hfree, hfree']
  change answer = _ at hanswer
  by_cases hle : req.size ≤ t.allocator.freeList.length * t.allocator.pageSize
  · have hceil : req.size ⌈/⌉ t.allocator.pageSize ≤ t.allocator.freeList.length := by
      rwa [ceilDiv_le_iff_le_mul hi.pageSize_pos, Nat.mul_comm]
    have hgranted := freeList_granted hceil
    have hpages : t.allocator.pageSize = pageSize := hpool.pageSize.trans hsize
    rw [if_pos hle] at hanswer
    rw [hanswer, allocator_assignOwner]
    refine ⟨iff_of_true rfl hle, iff_of_false nofun (not_not_intro hle), fun _ => ?_⟩
    rw [← hgranted, Nat.add_mul, hpages]
    exact congrArg (_ * · + _) hpages
  · rw [if_neg hle] at hanswer
    rw [hanswer]
    simp [hle, MemoryProtocol.failure, buildResponse]

/-- Of seven pages of two bytes one is held: an ALLOC of eleven bytes takes the six others. -/
theorem advertised_capacity_odd_size :
    ∃ slab r', SlabAllocator.create (fun n => if n ≤ ptrdiffMax then some fun _ => 9 else none)
        14 2 = .ok slab ∧
      let t := (run serve (PageTracker.new slab)
        [.request 1 { protocolVersion := protocolVersion, op := .alloc, size := 1 }]).2
      let answer := processRequest t 1
        { protocolVersion := protocolVersion, op := .alloc, size := 11 }
      answer.1.status = .ok ∧ answer.2.memoryStats 0 = some r' ∧ r'.poolFreeBytes + 12 = 12 := by
  have hheap (n : ℕ) (garbage : ℕ → Byte)
      (h : (if n ≤ ptrdiffMax then some (fun _ => 9) else none) = some garbage) :
      n ≤ ptrdiffMax := by
    split_ifs at h with hle
    exact hle
  have hnew : SlabAllocator.create
    (fun n => if n ≤ ptrdiffMax then some fun _ => 9 else none) 14 2 = .ok _ := rfl
  obtain ⟨r, r', hr, hr', hok, -, hfree⟩ := advertised_capacity hheap hnew
    [.request 1 { protocolVersion := protocolVersion, op := .alloc, size := 1 }] 1
    { protocolVersion := protocolVersion, op := .alloc, size := 11 } rfl rfl (by decide) 0
  obtain rfl := Option.some.inj hr
  have hstatus := hok.mpr (by decide)
  exact ⟨_, r', hnew, hstatus, hr', hfree hstatus⟩

end PageTracker

end MemInfo
