import MemInfo.Memclient.RemoteHeap

/-! # The sizes of the remote heap

The constructor of `RemoteHeap` rounds the page size up to OS pages, and the capacity and the
budget up to pages, in 64-bit arithmetic. A round-up that wraps gives zero. The constructor finds
that out for the capacity, since it is then not above the size of the local cache. It divides by a
page size of zero, and takes a budget of one page for a budget that wraps.
-/

namespace MemInfo

structure HeapMachine where
  supported : Bool
  osPage : ℕ
  maxLocalBytes : ℕ
  /-- Whether the OS has address space for so many bytes. -/
  maps : ℕ → Bool
  allocate : ℕ → Except Err ℕ

/-- `reserve_region`: the size of the region. -/
def HeapMachine.reserveRegion (m : HeapMachine) (bytes : ℕ) : Option ℕ :=
  if bytes = 0 then none
  else if m.maps (roundUp bytes m.osPage) then some (roundUp bytes m.osPage)
  else none

structure HeapSizes where
  pageBytes : ℕ
  capacity : ℕ
  pageCount : ℕ
  localBudgetBytes : ℕ
  handle : ℕ
  deriving DecidableEq, Repr

inductive HeapFailure where
  | threw (e : Err)
  | dividesByZero
  deriving DecidableEq, Repr

namespace RemoteHeapConfig

variable (config : RemoteHeapConfig)

/-- `page_bytes_`. -/
def roundedPage (osPage : ℕ) : ℕ := roundUp (max config.pageBytes osPage) osPage

/-- The constructor, up to `on_fault`. -/
def construct (m : HeapMachine) : Except HeapFailure HeapSizes :=
  if config.capacityBytes = 0 then
    .error (.threw (.runtimeError "RemoteHeap: capacity_bytes must be non-zero"))
  else if !m.supported then
    .error (.threw (.runtimeError "RemoteHeap: no usable page-fault backend on this system"))
  else
    let pageBytes := config.roundedPage m.osPage
    if pageBytes = 0 then .error .dividesByZero
    else
      let capacity := roundUp config.capacityBytes pageBytes
      let localBudgetBytes := max (roundUp config.localBudgetBytes pageBytes) pageBytes
      if capacity ≤ m.maxLocalBytes then
        .error (.threw (.runtimeError (
          "RemoteHeap: capacity (" ++ toString capacity ++
          " bytes) does not exceed the client's local cache (" ++ toString m.maxLocalBytes ++
          " bytes), so the backing block would stay in local memory")))
      else
        match m.reserveRegion capacity with
        | none =>
          .error (.threw (.runtimeError (
            "RemoteHeap: could not reserve " ++ toString capacity ++ " bytes of address space")))
        | some capacity =>
          match m.allocate capacity with
          | .error e => .error (.threw e)
          | .ok handle =>
            .ok { pageBytes, capacity, pageCount := capacity / pageBytes, localBudgetBytes, handle }

def Words : Prop :=
  config.capacityBytes < 2 ^ 64 ∧ config.localBudgetBytes < 2 ^ 64 ∧ config.pageBytes < 2 ^ 64

/-- The heap is made of whole pages, and no size is smaller than the configuration wants it. -/
structure Sound (osPage : ℕ) (s : HeapSizes) : Prop where
  pageBytes_pos : 0 < s.pageBytes
  osPage_dvd : osPage ∣ s.pageBytes
  le_pageBytes : config.pageBytes ≤ s.pageBytes
  dvd_capacity : s.pageBytes ∣ s.capacity
  le_capacity : config.capacityBytes ≤ s.capacity
  pageCount : s.pageCount * s.pageBytes = s.capacity
  le_budget : config.localBudgetBytes ≤ s.localBudgetBytes
  page_le_budget : s.pageBytes ≤ s.localBudgetBytes

variable {config} {m : HeapMachine} {s : HeapSizes} {osPage : ℕ}

theorem construct_eq_ok (h : config.construct m = .ok s) :
    s.pageBytes = config.roundedPage m.osPage ∧ s.pageBytes ≠ 0 ∧
      m.reserveRegion (roundUp config.capacityBytes s.pageBytes) = some s.capacity ∧
      s.pageCount = s.capacity / s.pageBytes ∧
      s.localBudgetBytes = max (roundUp config.localBudgetBytes s.pageBytes) s.pageBytes ∧
      config.capacityBytes ≠ 0 ∧
      m.maxLocalBytes < roundUp config.capacityBytes s.pageBytes := by
  unfold construct at h
  dsimp only at h
  split_ifs at h with hzero _ hpage hlocal
  split at h
  next => cases h
  next capacity hregion =>
    split at h
    next => cases h
    next handle _ =>
      obtain rfl := Except.ok.inj h
      exact ⟨rfl, hpage, hregion, rfl, rfl, hzero, Nat.not_le.mp hlocal⟩

theorem construct_of_granted {capacity handle : ℕ} (hcap : config.capacityBytes ≠ 0)
    (hs : m.supported = true) (hpage : config.roundedPage m.osPage ≠ 0)
    (hlocal : m.maxLocalBytes < roundUp config.capacityBytes (config.roundedPage m.osPage))
    (hregion : m.reserveRegion (roundUp config.capacityBytes (config.roundedPage m.osPage)) =
      some capacity)
    (halloc : m.allocate capacity = .ok handle) :
    config.construct m = .ok
      { pageBytes := config.roundedPage m.osPage
        capacity
        pageCount := capacity / config.roundedPage m.osPage
        localBudgetBytes := max (roundUp config.localBudgetBytes (config.roundedPage m.osPage))
          (config.roundedPage m.osPage)
        handle } := by
  unfold construct
  dsimp only
  rw [if_neg hcap, if_neg (by simp [hs]), if_neg hpage, if_neg (Nat.not_le.mpr hlocal), hregion]
  dsimp only
  rw [halloc]

theorem construct_ne_dividesByZero (h : config.roundedPage m.osPage ≠ 0) :
    config.construct m ≠ .error .dividesByZero := by
  unfold construct
  dsimp only
  split_ifs
  · simp
  · simp
  · simp
  · split
    · simp
    · split <;> simp

theorem roundedPage_lt (config : RemoteHeapConfig) (osPage : ℕ) :
    config.roundedPage osPage < 2 ^ 64 := roundUp_lt ..

section Pages

variable {k : ℕ}

theorem roundedPage_of_le (hle : max config.pageBytes (2 ^ k) + 2 ^ k ≤ 2 ^ 64) :
    config.pageBytes ≤ config.roundedPage (2 ^ k) ∧ 0 < config.roundedPage (2 ^ k) := by
  have hpos : 0 < 2 ^ k := Nat.two_pow_pos k
  have hround := le_roundUp hle hpos
  constructor
  · exact Nat.le_trans (Nat.le_max_left ..) hround
  · exact Nat.lt_of_lt_of_le hpos (Nat.le_trans (Nat.le_max_right ..) hround)

theorem reserveRegion_eq_some {bytes size : ℕ} (hk : k < 64) (hm : m.osPage = 2 ^ k)
    (hdvd : 2 ^ k ∣ bytes) (hlt : bytes < 2 ^ 64) (h : m.reserveRegion bytes = some size) :
    size = bytes ∧ bytes ≠ 0 := by
  have hroom : bytes + 2 ^ k ≤ 2 ^ 64 := by
    have hrest : 2 ^ k ∣ 2 ^ 64 - bytes :=
      Nat.dvd_sub (Nat.pow_dvd_pow 2 (Nat.le_of_lt hk)) hdvd
    have := Nat.le_of_dvd (Nat.sub_pos_of_lt hlt) hrest
    omega
  unfold HeapMachine.reserveRegion at h
  rw [hm, roundUp_of_dvd hdvd hroom (Nat.two_pow_pos k)] at h
  split_ifs at h with hzero
  exact ⟨(Option.some.inj h).symm, hzero⟩

/-- A heap that is constructed is sound, as long as its budget does not wrap to less than what was
asked for. -/
theorem sound_of_construct (hk : k < 64) (hm : m.osPage = 2 ^ k) (hw : config.Words)
    (hpage : max config.pageBytes (2 ^ k) + 2 ^ k ≤ 2 ^ 64)
    (hbudget : config.capacityBytes + config.roundedPage (2 ^ k) ≤ 2 ^ 64 →
      config.localBudgetBytes ≤ config.roundedPage (2 ^ k) ∨
        config.localBudgetBytes + config.roundedPage (2 ^ k) ≤ 2 ^ 64)
    (h : config.construct m = .ok s) : config.Sound (2 ^ k) s := by
  obtain ⟨hs, -, hregion, hcount, hlocal, -, -⟩ := construct_eq_ok h
  rw [hm] at hs
  obtain ⟨hle, hpos⟩ := roundedPage_of_le hpage
  rw [← hs] at hle hpos hbudget
  have hdvd : 2 ^ k ∣ s.pageBytes := hs ▸ dvd_roundUp ..
  have hwhole := dvd_roundUp config.capacityBytes s.pageBytes
  obtain ⟨hcap, hne⟩ :=
    reserveRegion_eq_some hk hm (Nat.dvd_trans hdvd hwhole) (roundUp_lt ..) hregion
  have hroom : config.capacityBytes + s.pageBytes ≤ 2 ^ 64 := by
    by_contra hover
    have hlt : s.pageBytes < 2 ^ 64 := hs ▸ config.roundedPage_lt _
    exact hne (roundUp_wraps hw.1 hlt (Nat.not_le.mp hover))
  rw [← hcap] at hwhole
  constructor
  · exact hpos
  · exact hdvd
  · exact hle
  · exact hwhole
  · rw [hcap]
    exact le_roundUp hroom hpos
  · rw [hcount]
    exact Nat.div_mul_cancel hwhole
  · rw [hlocal]
    rcases hbudget hroom with hsmall | hfits
    · exact Nat.le_trans hsmall (Nat.le_max_right ..)
    · exact Nat.le_trans (le_roundUp hfits hpos) (Nat.le_max_left ..)
  · rw [hlocal]
    exact Nat.le_max_right ..

/-- The heap that is constructed has the layout that the rest of the development is about. -/
theorem layout_of_construct (hk : k < 64) (hm : m.osPage = 2 ^ k)
    (h : config.construct m = .ok s) :
    ∃ l, config.layout (2 ^ k) m.maxLocalBytes = .ok l ∧ l.pageBytes = s.pageBytes ∧
      l.capacity = s.capacity ∧ l.localBudgetBytes = s.localBudgetBytes := by
  obtain ⟨hs, hpage, hregion, -, hbudget, hzero, hlocal⟩ := construct_eq_ok h
  rw [hm] at hs
  have hdvd : 2 ^ k ∣ s.pageBytes := hs ▸ dvd_roundUp ..
  obtain ⟨hcap, -⟩ := reserveRegion_eq_some hk hm
    (Nat.dvd_trans hdvd (dvd_roundUp ..)) (roundUp_lt ..) hregion
  have hpos : 0 < roundUp (max config.pageBytes (2 ^ k)) (2 ^ k) := by
    change 0 < config.roundedPage (2 ^ k)
    rw [← hs]
    exact Nat.pos_of_ne_zero hpage
  rw [hs] at hlocal hcap hbudget
  refine ⟨⟨config.roundedPage (2 ^ k), _, _, hpos, roundUp_lt _ _, dvd_roundUp _ _,
    Nat.le_max_right _ _⟩, ?_, hs.symm, hcap.symm, hbudget.symm⟩
  unfold layout
  dsimp only
  rw [if_neg hzero, dif_pos hpos]
  exact if_neg (Nat.not_le.mpr hlocal)

end Pages

def generous (osPage : ℕ) : HeapMachine where
  supported := true
  osPage := osPage
  maxLocalBytes := 0
  maps _ := true
  allocate _ := .ok 1

theorem construct_dividesByZero (hcap : config.capacityBytes ≠ 0)
    (h : config.roundedPage osPage = 0) :
    config.construct (generous osPage) = .error .dividesByZero := by
  unfold construct generous
  simp [hcap, h]

/-- The heap that the generous machine constructs has the budget of one page if the budget
wraps. -/
theorem construct_generous {k : ℕ} (hw : config.Words) (hcap : config.capacityBytes ≠ 0)
    (hpos : 0 < config.roundedPage (2 ^ k))
    (hroom : config.capacityBytes + config.roundedPage (2 ^ k) ≤ 2 ^ 64)
    (hwraps : 2 ^ 64 < config.localBudgetBytes + config.roundedPage (2 ^ k)) :
    ∃ s, config.construct (generous (2 ^ k)) = .ok s ∧
      s.localBudgetBytes = config.roundedPage (2 ^ k) := by
  have hround := le_roundUp hroom hpos
  have hbudget := roundUp_wraps hw.2.1 (config.roundedPage_lt (2 ^ k)) hwraps
  have hregion : (generous (2 ^ k)).reserveRegion
      (roundUp config.capacityBytes (config.roundedPage (2 ^ k))) =
        some (roundUp (roundUp config.capacityBytes (config.roundedPage (2 ^ k))) (2 ^ k)) := by
    unfold HeapMachine.reserveRegion
    rw [if_neg (by omega)]
    rfl
  have hsizes := construct_of_granted (m := generous (2 ^ k)) hcap rfl (Nat.ne_of_gt hpos)
    (Nat.lt_of_lt_of_le (Nat.pos_of_ne_zero hcap) hround) hregion rfl
  refine ⟨_, hsizes, ?_⟩
  change max (roundUp config.localBudgetBytes (config.roundedPage (2 ^ k))) _ = _
  rw [hbudget, Nat.zero_max]
  rfl

/-- The sizes are sound on every machine unless the page size wraps, or the budget wraps and is
larger than a page. A configuration without capacity is refused before anything is computed, and
one whose capacity wraps is refused afterwards. -/
theorem sizing_sound_iff {k : ℕ} (hk : k < 64) (hw : config.Words) :
    (∀ m, m.osPage = 2 ^ k → config.construct m ≠ .error .dividesByZero ∧
      ∀ s, config.construct m = .ok s → config.Sound (2 ^ k) s) ↔
    config.capacityBytes = 0 ∨
      max config.pageBytes (2 ^ k) + 2 ^ k ≤ 2 ^ 64 ∧
        (config.capacityBytes + config.roundedPage (2 ^ k) ≤ 2 ^ 64 →
          config.localBudgetBytes ≤ config.roundedPage (2 ^ k) ∨
            config.localBudgetBytes + config.roundedPage (2 ^ k) ≤ 2 ^ 64) := by
  constructor
  · intro h
    by_cases hcap : config.capacityBytes = 0
    · exact .inl hcap
    obtain ⟨hdivides, hsound⟩ := h (generous (2 ^ k)) rfl
    have hpage : max config.pageBytes (2 ^ k) + 2 ^ k ≤ 2 ^ 64 := by
      by_contra hover
      have hlt : 2 ^ k < 2 ^ 64 := Nat.pow_lt_pow_right (by decide) hk
      have hmax : max config.pageBytes (2 ^ k) < 2 ^ 64 := Nat.max_lt.mpr ⟨hw.2.2, hlt⟩
      exact hdivides (construct_dividesByZero hcap (roundUp_wraps hmax hlt (Nat.not_le.mp hover)))
    refine .inr ⟨hpage, fun hroom => ?_⟩
    by_contra hbudget
    rw [not_or, Nat.not_le, Nat.not_le] at hbudget
    obtain ⟨s, hs, hlocal⟩ :=
      construct_generous hw hcap (roundedPage_of_le hpage).2 hroom hbudget.2
    have hle := (hsound s hs).le_budget
    rw [hlocal] at hle
    exact absurd hbudget.1 (Nat.not_lt.mpr hle)
  · rintro (hcap | ⟨hpage, hbudget⟩) m hm
    · have hrefused : config.construct m =
          .error (.threw (.runtimeError "RemoteHeap: capacity_bytes must be non-zero")) :=
        if_pos hcap
      rw [hrefused]
      simp
    · refine ⟨?_, fun s hs => sound_of_construct hk hm hw hpage hbudget hs⟩
      apply construct_ne_dividesByZero
      rw [hm]
      exact Nat.ne_of_gt (roundedPage_of_le hpage).2

/-- The defaults of the hook, on a machine with pages of 4 KiB. -/
theorem sizing_sound_of_hook :
    (⟨4 <<< 30, 512 <<< 20, 64 <<< 10⟩ : RemoteHeapConfig).Words ∧
      ∀ m, m.osPage = 2 ^ 12 →
        (⟨4 <<< 30, 512 <<< 20, 64 <<< 10⟩ : RemoteHeapConfig).construct m ≠
            .error .dividesByZero ∧
          ∀ s, (⟨4 <<< 30, 512 <<< 20, 64 <<< 10⟩ : RemoteHeapConfig).construct m = .ok s →
            Sound ⟨4 <<< 30, 512 <<< 20, 64 <<< 10⟩ (2 ^ 12) s := by
  have hw : (⟨4 <<< 30, 512 <<< 20, 64 <<< 10⟩ : RemoteHeapConfig).Words := by
    unfold Words
    decide
  exact ⟨hw, (sizing_sound_iff (by decide) hw).mpr (.inr (by decide))⟩

/-- A page size of 2 ^ 64 - 1 is divided by, and a budget of 2 ^ 64 - 1 becomes one page. -/
theorem sizes_wrap :
    (⟨1, 0, 2 ^ 64 - 1⟩ : RemoteHeapConfig).construct (generous 4096) = .error .dividesByZero ∧
      (⟨8192, 2 ^ 64 - 1, 4096⟩ : RemoteHeapConfig).construct (generous 4096) =
        .ok ⟨4096, 8192, 2, 4096, 1⟩ := by
  decide

end RemoteHeapConfig

end MemInfo
