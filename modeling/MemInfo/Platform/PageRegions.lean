import MemInfo.Lib.OrdMap
import MemInfo.Platform.PageFaultBackend

/-! # The regions of a page-fault backend

A backend keeps the regions it has reserved by their addresses, with a state for every OS page.
`region_for` finds the region of an address, and `for_each_page` changes the states of a range.
The kernel hands out address space that nothing else uses, in whole pages, so that a page belongs
to one region at most, and the regions are a partial function from pages to states. The end of a
region is a 64-bit sum: `region_for` does not find a region that ends with the address space.
-/

namespace MemInfo

open Lib

/-- The size of an OS page, a power of two in a `size_t`. -/
structure OsPage where
  bytes : ℕ
  word : bytes ∣ 2 ^ 63

namespace OsPage

variable (P : OsPage)

theorem pos : 0 < P.bytes := Nat.pos_of_dvd_of_pos P.word (by decide)

/-- `page_base`. The mask is that of a power of two. -/
def pageBase (addr : ℕ) : ℕ := addr / P.bytes * P.bytes

/-- `offset_in_page`. -/
def offsetInPage (addr : ℕ) : ℕ := addr % P.bytes

def Covers (addr len n : ℕ) : Prop := addr ≤ n * P.bytes ∧ n * P.bytes < addr + len

instance (addr len n : ℕ) : Decidable (P.Covers addr len n) :=
  inferInstanceAs (Decidable (_ ∧ _))

theorem covers_iff {i m n : ℕ} :
    P.Covers (i * P.bytes) (m * P.bytes) n ↔ i ≤ n ∧ n < i + m := by
  rw [Covers, ← Nat.add_mul, Nat.mul_le_mul_right_iff P.pos, Nat.mul_lt_mul_right P.pos]

end OsPage

/-- `Region`. -/
structure Region (σ : Type*) where
  size : ℕ
  states : List σ

/-- What `fn(region->states[index])` does to the region. -/
def Region.modify {σ : Type*} (r : Region σ) (index : ℕ) (f : σ → σ) : Region σ :=
  { r with states := r.states.modify index f }

/-- A region has a state for every page, and lies in the address space. -/
structure Region.Placed {σ : Type*} (P : OsPage) (base : ℕ) (r : Region σ) : Prop where
  aligned : P.bytes ∣ base
  size_eq : r.size = r.states.length * P.bytes
  size_pos : 0 < r.size
  fits : base + r.size ≤ 2 ^ 64

theorem Region.Placed.contains_iff {σ : Type*} {P : OsPage} {base addr : ℕ} {r : Region σ}
    (h : r.Placed P base) : (base ≤ addr ∧ addr < base + r.size) ↔
      base / P.bytes ≤ addr / P.bytes ∧ addr / P.bytes < base / P.bytes + r.states.length := by
  obtain ⟨i, rfl⟩ := h.aligned
  rw [h.size_eq, Nat.mul_div_cancel_left i P.pos, Nat.le_div_iff_mul_le P.pos,
    Nat.div_lt_iff_lt_mul P.pos, Nat.add_mul, Nat.mul_comm i]

/-- `regions_`. -/
structure Regions (σ : Type*) (P : OsPage) where
  map : OrdMap ℕ (Region σ)
  placed : ∀ base r, (base, r) ∈ map.entries → r.Placed P base
  apart : ∀ base r base' r', (base, r) ∈ map.entries → (base', r') ∈ map.entries →
    base < base' → base + r.size ≤ base'

namespace Regions

variable {σ : Type*} {P : OsPage}

def empty : Regions σ P where
  map := .empty
  placed := by simp [OrdMap.empty]
  apart := by simp [OrdMap.empty]

variable (m : Regions σ P)

/-- `region_for`: the last region that does not start after the address, if it contains it. -/
def regionFor (addr : ℕ) : Option (ℕ × Region σ) :=
  (m.map.before (addr + 1)).filter fun e => e.1 ≤ addr ∧ addr < wrap (e.1 + e.2.size)

/-- The index that `region_for` computes. -/
def pageIndex (P : OsPage) (base addr : ℕ) : ℕ := (addr - base) / P.bytes

def stateAt (addr : ℕ) : Option σ :=
  (m.regionFor addr).bind fun e => e.2.states[pageIndex P e.1 addr]?

def Free (base size : ℕ) : Prop :=
  P.bytes ∣ base ∧ P.bytes ∣ size ∧ 0 < size ∧ base + size ≤ 2 ^ 64 ∧
    ∀ e ∈ m.map.entries, e.1 + e.2.size ≤ base ∨ base + size ≤ e.1

instance (base size : ℕ) : Decidable (m.Free base size) := inferInstanceAs (Decidable (_ ∧ _))

variable {m}

theorem regionFor_eq_some_iff {addr base : ℕ} {r : Region σ} :
    m.regionFor addr = some (base, r) ↔
      (base, r) ∈ m.map.entries ∧ base + r.size < 2 ^ 64 ∧ base ≤ addr ∧ addr < base + r.size := by
  constructor
  · intro h
    obtain ⟨hbefore, hin⟩ := Option.filter_eq_some_iff.1 h
    obtain ⟨hle, hlt⟩ := of_decide_eq_true hin
    have hmem := (OrdMap.mem_of_before hbefore).1
    -- an end that wraps is not above the address
    have hends : base + r.size < 2 ^ 64 := by
      apply Nat.lt_of_le_of_ne (m.placed base r hmem).fits
      intro hend
      rw [hend] at hlt
      exact absurd hlt (Nat.not_lt_zero addr)
    rw [wrap_of_lt hends] at hlt
    exact ⟨hmem, hends, hle, hlt⟩
  · rintro ⟨hmem, hends, hle, hlt⟩
    apply Option.filter_eq_some_iff.2
    rw [wrap_of_lt hends, decide_eq_true_eq]
    refine ⟨?_, hle, hlt⟩
    cases hbefore : m.map.before (addr + 1) with
    | none =>
      have := OrdMap.before_eq_none hbefore hmem
      omega
    | some e =>
      obtain ⟨base', r'⟩ := e
      obtain ⟨hmem', hlt'⟩ := OrdMap.mem_of_before hbefore
      have hle' : base ≤ base' := OrdMap.le_of_before hbefore hmem (Nat.lt_succ_of_le hle)
      -- a region that started in between would lie inside of this one
      rcases Nat.eq_or_lt_of_le hle' with rfl | hbetween
      · rw [OrdMap.mem_unique hmem hmem']
      · have := m.apart _ _ _ _ hmem hmem' hbetween
        omega

theorem pageIndex_lt {addr base : ℕ} {r : Region σ} (h : m.regionFor addr = some (base, r)) :
    pageIndex P base addr < r.states.length := by
  obtain ⟨hmem, -, hle, hlt⟩ := regionFor_eq_some_iff.1 h
  have hplaced := m.placed base r hmem
  rw [pageIndex, Nat.div_lt_iff_lt_mul P.pos, ← hplaced.size_eq]
  omega

theorem pageIndex_page {addr base : ℕ} (hle : base ≤ addr) :
    base + pageIndex P base addr * P.bytes ≤ addr ∧
      addr < base + (pageIndex P base addr + 1) * P.bytes := by
  have hsplit := Nat.div_add_mod' (addr - base) P.bytes
  have hlt := Nat.mod_lt (addr - base) P.pos
  rw [pageIndex, Nat.add_one_mul]
  omega

theorem mem_unique_of_contains {addr base base' : ℕ} {r r' : Region σ}
    (hmem : (base, r) ∈ m.map.entries) (hmem' : (base', r') ∈ m.map.entries)
    (hin : base ≤ addr ∧ addr < base + r.size) (hin' : base' ≤ addr ∧ addr < base' + r'.size) :
    base' = base ∧ r' = r := by
  rcases Nat.lt_trichotomy base base' with hlt | rfl | hlt
  · have := m.apart _ _ _ _ hmem hmem' hlt
    omega
  · exact ⟨rfl, OrdMap.mem_unique hmem' hmem⟩
  · have := m.apart _ _ _ _ hmem' hmem hlt
    omega

theorem lt_of_stateAt {addr : ℕ} {st : σ} (h : m.stateAt addr = some st) : addr < 2 ^ 64 := by
  obtain ⟨⟨base, r⟩, hfor, -⟩ := Option.bind_eq_some_iff.1 h
  obtain ⟨-, hends, -, hlt⟩ := regionFor_eq_some_iff.1 hfor
  exact hlt.trans hends

theorem regionFor_congr {addr addr' : ℕ} (h : addr / P.bytes = addr' / P.bytes) :
    m.regionFor addr = m.regionFor addr' := by
  ext ⟨base, r⟩
  rw [regionFor_eq_some_iff, regionFor_eq_some_iff]
  apply and_congr_right
  intro hmem
  rw [(m.placed base r hmem).contains_iff, (m.placed base r hmem).contains_iff, h]

theorem stateAt_congr {addr addr' : ℕ} (h : addr / P.bytes = addr' / P.bytes) :
    m.stateAt addr = m.stateAt addr' := by
  rw [stateAt, stateAt, regionFor_congr h]
  cases hfor : m.regionFor addr' with
  | none => rfl
  | some e =>
    obtain ⟨base, r⟩ := e
    obtain ⟨i, hi⟩ := (m.placed base r (regionFor_eq_some_iff.1 hfor).1).aligned
    rw [Option.bind_some, Option.bind_some, pageIndex, pageIndex, hi, Nat.sub_mul_div,
      Nat.sub_mul_div, h]

/-! ## One page -/

section Update

variable (m)

def modifyRegion (base index : ℕ) (f : σ → σ) : Regions σ P where
  map := m.map.modify base fun r => r.modify index f
  placed := by
    intro base' r hmem
    obtain ⟨r', hmem', rfl⟩ := OrdMap.mem_modify.1 hmem
    have hplaced := m.placed base' r' hmem'
    split_ifs
    · exact ⟨hplaced.aligned, by simpa [Region.modify] using hplaced.size_eq, hplaced.size_pos,
        hplaced.fits⟩
    · exact hplaced
  apart := by
    intro base₁ r₁ base₂ r₂ hmem₁ hmem₂ hlt
    obtain ⟨r₁', hmem₁', rfl⟩ := OrdMap.mem_modify.1 hmem₁
    obtain ⟨r₂', hmem₂', rfl⟩ := OrdMap.mem_modify.1 hmem₂
    have hapart := m.apart _ _ _ _ hmem₁' hmem₂' hlt
    split_ifs <;> exact hapart

def update (addr : ℕ) (f : σ → σ) : Regions σ P :=
  match m.regionFor addr with
  | none => m
  | some e => m.modifyRegion e.1 (pageIndex P e.1 addr) f

variable {m}

theorem regionFor_modifyRegion {base index addr : ℕ} {f : σ → σ} :
    (m.modifyRegion base index f).regionFor addr =
      (m.regionFor addr).map fun e => (e.1, if e.1 = base then e.2.modify index f else e.2) := by
  have hsize (base' : ℕ) (r : Region σ) :
      (if base' = base then r.modify index f else r).size = r.size := by
    split_ifs <;> rfl
  ext ⟨base', r⟩
  rw [regionFor_eq_some_iff, Option.map_eq_some_iff]
  constructor
  · rintro ⟨hmem, hin⟩
    obtain ⟨r', hmem', rfl⟩ := OrdMap.mem_modify.1 hmem
    rw [hsize] at hin
    exact ⟨(base', r'), regionFor_eq_some_iff.2 ⟨hmem', hin⟩, rfl⟩
  · rintro ⟨⟨base'', r'⟩, hfor, heq⟩
    cases heq
    obtain ⟨hmem, hin⟩ := regionFor_eq_some_iff.1 hfor
    exact ⟨OrdMap.mem_modify.2 ⟨r', hmem, rfl⟩, by rwa [hsize]⟩

theorem pageIndex_eq_iff {base addr addr' : ℕ} {r : Region σ} (hmem : (base, r) ∈ m.map.entries)
    (hle : base ≤ addr) (hle' : base ≤ addr') :
    pageIndex P base addr = pageIndex P base addr' ↔ addr / P.bytes = addr' / P.bytes := by
  obtain ⟨i, rfl⟩ := (m.placed base r hmem).aligned
  have hi := (Nat.le_div_iff_mul_le P.pos).2 (Nat.mul_comm i _ ▸ hle)
  have hi' := (Nat.le_div_iff_mul_le P.pos).2 (Nat.mul_comm i _ ▸ hle')
  rw [pageIndex, pageIndex, Nat.sub_mul_div, Nat.sub_mul_div]
  omega

theorem stateAt_update {addr addr' : ℕ} {f : σ → σ} : (m.update addr f).stateAt addr' =
    if addr' / P.bytes = addr / P.bytes then (m.stateAt addr').map f else m.stateAt addr' := by
  cases hfor : m.regionFor addr with
  | none =>
    rw [update, hfor]
    split_ifs with hpage
    · rw [stateAt, regionFor_congr hpage, hfor]
      rfl
    · rfl
  | some e =>
    obtain ⟨base, r⟩ := e
    obtain ⟨hmem, -, hle, -⟩ := regionFor_eq_some_iff.1 hfor
    rw [update, hfor]
    dsimp only
    rw [stateAt, regionFor_modifyRegion, stateAt]
    cases hfor' : m.regionFor addr' with
    | none => simp
    | some e' =>
      obtain ⟨base', r'⟩ := e'
      obtain ⟨hmem', -, hle', -⟩ := regionFor_eq_some_iff.1 hfor'
      rw [Option.map_some, Option.bind_some, Option.bind_some]
      by_cases hbase : base' = base
      · subst hbase
        have hindex := pageIndex_eq_iff hmem hle' hle
        rw [if_pos rfl, Region.modify, List.getElem?_modify]
        split_ifs <;> simp_all
      · have hpage : addr' / P.bytes ≠ addr / P.bytes := by
          intro hpage
          rw [regionFor_congr hpage, hfor] at hfor'
          cases hfor'
          exact hbase rfl
        rw [if_neg hbase, if_neg hpage]

end Update

/-! ## Whole regions -/

section Reserve

variable {base size : ℕ} {st : σ}

theorem Free.find_eq_none (h : m.Free base size) : m.map.find base = none := by
  obtain ⟨-, -, hpos, -, hfree⟩ := h
  apply OrdMap.find_eq_none_iff.2
  intro r hmem
  have hsize := (m.placed base r hmem).size_pos
  rcases hfree _ hmem with hle | hle <;> dsimp only at hle <;> omega

theorem Free.stateAt_eq_none {n : ℕ} (h : m.Free base size) (hn : P.Covers base size n) :
    m.stateAt (n * P.bytes) = none := by
  cases hfor : m.regionFor (n * P.bytes) with
  | none => rw [stateAt, hfor, Option.bind_none]
  | some e =>
    obtain ⟨base', r⟩ := e
    obtain ⟨hmem, -, hin⟩ := regionFor_eq_some_iff.1 hfor
    have hapart : base' + r.size ≤ base ∨ base + size ≤ base' := h.2.2.2.2 _ hmem
    obtain ⟨hle, hlt⟩ := hn
    omega

variable (m)

/-- The kernel has handed out address space, and `regions_` has an entry for it. -/
def reserve (base size : ℕ) (st : σ) (h : m.Free base size) : Regions σ P where
  map := m.map.emplace base ⟨size, List.replicate (size / P.bytes) st⟩
  placed := by
    intro base' r hmem
    rcases (OrdMap.mem_emplace h.find_eq_none).1 hmem with heq | hmem
    · cases heq
      obtain ⟨hbase, hsize, hpos, hfits, -⟩ := h
      exact ⟨hbase, by rw [List.length_replicate, Nat.div_mul_cancel hsize], hpos, hfits⟩
    · exact m.placed base' r hmem
  apart := by
    intro base₁ r₁ base₂ r₂ hmem₁ hmem₂ hlt
    have hfree := h.2.2.2.2
    have hpos := h.2.2.1
    rcases (OrdMap.mem_emplace h.find_eq_none).1 hmem₁ with heq₁ | hmem₁
    · rcases (OrdMap.mem_emplace h.find_eq_none).1 hmem₂ with heq₂ | hmem₂
      · cases heq₁
        cases heq₂
        omega
      · cases heq₁
        rcases hfree _ hmem₂ with hle | hle <;> dsimp only at hle ⊢ <;> omega
    · rcases (OrdMap.mem_emplace h.find_eq_none).1 hmem₂ with heq₂ | hmem₂
      · cases heq₂
        rcases hfree _ hmem₁ with hle | hle <;> dsimp only at hle ⊢ <;> omega
      · exact m.apart _ _ _ _ hmem₁ hmem₂ hlt

/-- `regions_.erase`. -/
def release (base : ℕ) : Regions σ P where
  map := m.map.erase base
  placed base' r hmem := m.placed base' r (OrdMap.mem_erase.1 hmem).1
  apart base₁ r₁ base₂ r₂ hmem₁ hmem₂ :=
    m.apart base₁ r₁ base₂ r₂ (OrdMap.mem_erase.1 hmem₁).1 (OrdMap.mem_erase.1 hmem₂).1

variable {m}

theorem regionFor_reserve {addr : ℕ} (h : m.Free base size) :
    (m.reserve base size st h).regionFor addr =
      if base + size < 2 ^ 64 ∧ base ≤ addr ∧ addr < base + size then
        some (base, ⟨size, List.replicate (size / P.bytes) st⟩)
      else m.regionFor addr := by
  ext ⟨base', r⟩
  rw [regionFor_eq_some_iff]
  refine (and_congr_left' (OrdMap.mem_emplace h.find_eq_none)).trans ?_
  split_ifs with hin
  · constructor
    · rintro ⟨heq | hmem, hin'⟩
      · rw [heq]
      · have hfree := h.2.2.2.2 _ hmem
        dsimp only at hfree
        omega
    · rintro heq
      cases heq
      exact ⟨Or.inl rfl, hin⟩
  · rw [regionFor_eq_some_iff]
    constructor
    · rintro ⟨heq | hmem, hin'⟩
      · cases heq
        exact absurd hin' hin
      · exact ⟨hmem, hin'⟩
    · rintro ⟨hmem, hin'⟩
      exact ⟨Or.inr hmem, hin'⟩

theorem regionFor_release {addr : ℕ} :
    (m.release base).regionFor addr = (m.regionFor addr).filter fun e => e.1 ≠ base := by
  ext ⟨base', r⟩
  rw [Option.filter_eq_some_iff, regionFor_eq_some_iff, regionFor_eq_some_iff]
  refine (and_congr_left' OrdMap.mem_erase).trans ?_
  rw [decide_eq_true_eq, and_right_comm]

theorem stateAt_reserve {n : ℕ} (h : m.Free base size) :
    (m.reserve base size st h).stateAt (n * P.bytes) =
      if base + size < 2 ^ 64 ∧ P.Covers base size n then some st
      else m.stateAt (n * P.bytes) := by
  split_ifs with hcovers
  · have hfor : (m.reserve base size st h).regionFor (n * P.bytes) =
        some (base, ⟨size, List.replicate (size / P.bytes) st⟩) :=
      (regionFor_reserve h).trans (if_pos hcovers)
    have hindex := pageIndex_lt hfor
    rw [List.length_replicate] at hindex
    rw [stateAt, hfor, Option.bind_some]
    exact List.getElem?_replicate_of_lt hindex
  · have hfor : (m.reserve base size st h).regionFor (n * P.bytes) = m.regionFor (n * P.bytes) :=
      (regionFor_reserve h).trans (if_neg hcovers)
    rw [stateAt, hfor, stateAt]

theorem stateAt_release {n : ℕ} {r : Region σ} (hmem : (base, r) ∈ m.map.entries) :
    (m.release base).stateAt (n * P.bytes) =
      if P.Covers base r.size n then none else m.stateAt (n * P.bytes) := by
  rw [stateAt, regionFor_release, stateAt]
  cases hfor : m.regionFor (n * P.bytes) with
  | none => split_ifs <;> rfl
  | some e =>
    obtain ⟨base', r'⟩ := e
    obtain ⟨hmem', -, hin⟩ := regionFor_eq_some_iff.1 hfor
    by_cases hbase : base' = base
    · subst hbase
      rw [OrdMap.mem_unique hmem' hmem] at hin
      have hcovers : P.Covers base' r.size n := hin
      rw [if_pos hcovers]
      simp
    · have hout : ¬ P.Covers base r.size n := by
        intro hcovers
        obtain ⟨hle, hlt⟩ := hcovers
        rcases Nat.lt_or_gt_of_ne hbase with hbefore | hafter
        · have := m.apart _ _ _ _ hmem' hmem hbefore
          omega
        · have := m.apart _ _ _ _ hmem hmem' hafter
          omega
      rw [if_neg hout, Option.filter_some, if_pos (decide_eq_true hbase)]

end Reserve

end Regions

/-! ## Ranges of pages -/

/-- `regions_` and `resident_pages_`. -/
structure PageTable (σ : Type*) (P : OsPage) where
  regions : Regions σ P := .empty
  residentPages : ℕ := 0

namespace PageTable

variable {σ : Type*} {P : OsPage} (t : PageTable σ P) (f : σ → σ) (count : σ → ℕ → ℕ)

def pageState (n : ℕ) : Option σ := t.regions.stateAt (n * P.bytes)

/-- The function of `for_each_page` on the page of an address: `f` is what it does to the state,
and `count` what it does to `resident_pages_`. -/
def visit (addr : ℕ) : PageTable σ P :=
  match t.regions.stateAt addr with
  | none => t
  | some st => ⟨t.regions.update addr f, count st t.residentPages⟩

/-- `for_each_page`. -/
def forEachPage (addr len : ℕ) : PageTable σ P :=
  (List.range ((len + P.bytes - 1) / P.bytes)).foldl
    (fun t i => t.visit f count (wrap (addr + i * P.bytes))) t

variable {t f count}

theorem pageState_visit {addr n : ℕ} : (t.visit f count addr).pageState n =
    if n = addr / P.bytes then (t.pageState n).map f else t.pageState n := by
  have hpage : n * P.bytes / P.bytes = n := Nat.mul_div_cancel n P.pos
  cases hstate : t.regions.stateAt addr with
  | none =>
    rw [visit, hstate]
    split_ifs with hn
    · rw [pageState, Regions.stateAt_congr (hpage.trans hn), hstate]
      rfl
    · rfl
  | some st =>
    rw [visit, hstate]
    exact Regions.stateAt_update.trans (by rw [hpage]; rfl)

theorem pageState_forEachPage {addr len n : ℕ} (haddr : P.bytes ∣ addr) (hlen : P.bytes ∣ len)
    (hfits : addr + len ≤ 2 ^ 64) : (t.forEachPage f count addr len).pageState n =
      if P.Covers addr len n then (t.pageState n).map f else t.pageState n := by
  obtain ⟨i, rfl⟩ := haddr
  obtain ⟨k, rfl⟩ := hlen
  have hcount : (P.bytes * k + P.bytes - 1) / P.bytes = k := by
    rw [Nat.add_sub_assoc P.pos, Nat.mul_add_div P.pos,
      Nat.div_eq_of_lt (Nat.sub_one_lt P.pos.ne'), Nat.add_zero]
  rw [forEachPage, hcount, Nat.mul_comm P.bytes i, Nat.mul_comm P.bytes k]
  rw [Nat.mul_comm P.bytes i, Nat.mul_comm P.bytes k, ← Nat.add_mul] at hfits
  clear hcount
  induction k with
  | zero => simp [OsPage.Covers, pageState]
  | succ k ih =>
    have hlast : (i + k) * P.bytes < 2 ^ 64 :=
      Nat.lt_of_lt_of_le (Nat.mul_lt_mul_of_pos_right (by omega) P.pos) hfits
    have hprefix : (i + k) * P.bytes ≤ 2 ^ 64 := hlast.le
    rw [List.range_succ, List.foldl_append, List.foldl_cons, List.foldl_nil, ← Nat.add_mul,
      wrap_of_lt hlast, pageState_visit, ih hprefix, Nat.mul_div_cancel _ P.pos]
    simp only [P.covers_iff]
    split_ifs <;> first | rfl | omega

end PageTable

end MemInfo
