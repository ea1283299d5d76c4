import Mathlib.Data.Bool.Count
import MemInfo.Platform.PageRegions

/-! # The number of resident pages

A backend keeps `resident_pages_` next to the states of the pages and counts it up or down, in
64-bit arithmetic, with every state that it changes. Between any two changes the number is that of
the resident pages of all regions, so that it is never counted down from zero.
-/

namespace MemInfo.PageTable

open Lib

variable {σ : Type*} {P : OsPage} {t : PageTable σ P} {p : σ → Bool} {f : σ → σ}
  {count : σ → ℕ → ℕ}

/-- `count_resident`. -/
def countResident (p : σ → Bool) (r : Region σ) : ℕ := r.states.countP p

def residentCount (p : σ → Bool) (t : PageTable σ P) : ℕ := t.regions.map.weight (countResident p)

def Counting (p : σ → Bool) (f : σ → σ) (count : σ → ℕ → ℕ) : Prop :=
  ∀ st n, count st n =
    if p st = p (f st) then n else if p st = true then wrapSub n 1 else wrap (n + 1)

/-- The pages that `region_for` does not find are not resident. -/
def Untouched (p : σ → Bool) (t : PageTable σ P) : Prop :=
  ∀ base r, (base, r) ∈ t.regions.map.entries → base + r.size = 2 ^ 64 → countResident p r = 0

theorem Untouched.residentCount_lt (h : t.Untouched p) : t.residentCount p < 2 ^ 64 := by
  have hsize (base : ℕ) (r : Region σ) (hmem : (base, r) ∈ t.regions.map.entries) :
      countResident p r ≤ r.size := by
    rw [(t.regions.placed base r hmem).size_eq]
    exact List.countP_le_length.trans (Nat.le_mul_of_pos_right _ P.pos)
  suffices hle : t.residentCount p ≤ 2 ^ 64 - 1 by omega
  apply OrdMap.weight_le_of_apart
  · rintro ⟨base, r⟩ ⟨base', r'⟩ hmem hmem' hlt
    have hapart := t.regions.apart _ _ _ _ hmem hmem' hlt
    have hle := hsize base r hmem
    dsimp only
    omega
  · rintro ⟨base, r⟩ hmem
    have hplaced := t.regions.placed base r hmem
    have hle := hsize base r hmem
    have hfits := hplaced.fits
    have hpos := hplaced.size_pos
    dsimp only
    by_cases hend : base + r.size = 2 ^ 64
    · rw [h base r hmem hend]
      omega
    · omega

/-! ## One page -/

theorem countP_modify {l : List σ} {i : ℕ} {st : σ} (h : l[i]? = some st) :
    (l.modify i f).countP p + (p st).toNat = l.countP p + (p (f st)).toNat := by
  induction l generalizing i with
  | nil => cases h
  | cons a l ih =>
    cases i with
    | zero =>
      cases h
      rw [List.modify_zero_cons, List.countP_cons, List.countP_cons]
      cases p st <;> cases p (f st) <;> simp
    | succ i =>
      have hrest := ih (i := i) h
      rw [List.modify_succ_cons, List.countP_cons, List.countP_cons]
      omega

theorem regions_visit (f : σ → σ) (count : σ → ℕ → ℕ) {addr : ℕ} {st : σ}
    (h : t.regions.stateAt addr = some st) :
    ∃ base r, t.regions.regionFor addr = some (base, r) ∧
      r.states[Regions.pageIndex P base addr]? = some st ∧
      (t.visit f count addr).regions =
        t.regions.modifyRegion base (Regions.pageIndex P base addr) f := by
  obtain ⟨⟨base, r⟩, hfor, hst⟩ := Option.bind_eq_some_iff.1 h
  refine ⟨base, r, hfor, hst, ?_⟩
  rw [visit, h]
  dsimp only
  rw [Regions.update, hfor]

theorem residentCount_visit (f : σ → σ) (count : σ → ℕ → ℕ) {addr : ℕ} {st : σ}
    (h : t.regions.stateAt addr = some st) :
    (t.visit f count addr).residentCount p + (p st).toNat =
      t.residentCount p + (p (f st)).toNat := by
  obtain ⟨base, r, hfor, hst, hvisit⟩ := regions_visit f count h
  obtain ⟨hmem, -⟩ := Regions.regionFor_eq_some_iff.1 hfor
  have hregion := countP_modify (p := p) (f := f) hst
  have hweight : (t.visit f count addr).residentCount p + countResident p r =
      t.residentCount p + countResident p (r.modify (Regions.pageIndex P base addr) f) := by
    rw [residentCount, hvisit]
    exact OrdMap.weight_modify (w := countResident p) hmem
  dsimp only [countResident, Region.modify] at hweight
  omega

theorem Untouched.visit (h : t.Untouched p) (f : σ → σ) (count : σ → ℕ → ℕ) (addr : ℕ) :
    (t.visit f count addr).Untouched p := by
  cases hst : t.regions.stateAt addr with
  | none =>
    rw [PageTable.visit, hst]
    exact h
  | some st =>
    obtain ⟨base, r, hfor, -, hvisit⟩ := regions_visit f count hst
    obtain ⟨hmem, hends, -⟩ := Regions.regionFor_eq_some_iff.1 hfor
    intro base' r' hmem' hend'
    rw [hvisit] at hmem'
    obtain ⟨r'', hmem'', rfl⟩ := OrdMap.mem_modify.1 hmem'
    by_cases hbase : base' = base
    · -- the region of the page ends below
      subst hbase
      rw [if_pos rfl, OrdMap.mem_unique hmem'' hmem] at hend'
      exact absurd hend' (Nat.ne_of_lt hends)
    · rw [if_neg hbase] at hend' ⊢
      exact h base' r'' hmem'' hend'

structure Counted (p : σ → Bool) (t : PageTable σ P) : Prop where
  untouched : t.Untouched p
  residentPages_eq : t.residentPages = t.residentCount p

theorem Counted.visit (h : t.Counted p) (hcounting : Counting p f count) (addr : ℕ) :
    (t.visit f count addr).Counted p := by
  refine ⟨h.untouched.visit f count addr, ?_⟩
  cases hst : t.regions.stateAt addr with
  | none =>
    rw [PageTable.visit, hst]
    exact h.residentPages_eq
  | some st =>
    have hcount := residentCount_visit (p := p) f count hst
    have hlt := (h.untouched.visit f count addr).residentCount_lt
    have hlt' := h.untouched.residentCount_lt
    have hpages : (t.visit f count addr).residentPages = count st t.residentPages := by
      rw [PageTable.visit, hst]
    rw [hpages, hcounting, h.residentPages_eq]
    split_ifs with hsame hresident
    · rw [hsame] at hcount
      omega
    · have habsent : p (f st) = false := by
        rw [hresident] at hsame
        exact (Bool.eq_false_iff).2 (Ne.symm hsame)
      rw [hresident, habsent, Bool.toNat_true, Bool.toNat_false] at hcount
      rw [wrapSub_of_le (by omega) hlt']
      omega
    · have habsent : p st = false := Bool.eq_false_iff.2 hresident
      have hpresent : p (f st) = true := by
        rw [habsent] at hsame
        exact Bool.eq_true_of_not_eq_false (Ne.symm hsame)
      rw [habsent, hpresent, Bool.toNat_true, Bool.toNat_false] at hcount
      rw [wrap_of_lt (by omega)]
      omega

/-! ## Ranges and regions -/

/-- The first rounds of `for_each_page`. -/
def rounds (t : PageTable σ P) (f : σ → σ) (count : σ → ℕ → ℕ) (addr k : ℕ) : PageTable σ P :=
  (List.range k).foldl (fun t i => t.visit f count (wrap (addr + i * P.bytes))) t

theorem Counted.rounds (h : t.Counted p) (hcounting : Counting p f count) (addr k : ℕ) :
    (t.rounds f count addr k).Counted p := by
  induction k with
  | zero => exact h
  | succ k ih =>
    rw [PageTable.rounds, List.range_succ, List.foldl_append]
    exact ih.visit hcounting _

theorem Counted.forEachPage (h : t.Counted p) (hcounting : Counting p f count) (addr len : ℕ) :
    (t.forEachPage f count addr len).Counted p :=
  h.rounds hcounting addr _

theorem counted_empty (p : σ → Bool) : ({} : PageTable σ P).Counted p :=
  ⟨fun _ _ hmem => absurd hmem List.not_mem_nil, rfl⟩

theorem Counted.reserve (h : t.Counted p) {base size : ℕ} {st : σ}
    (hfree : t.regions.Free base size) (hst : p st = false) :
    PageTable.Counted p { t with regions := t.regions.reserve base size st hfree } := by
  have habsent : countResident p ⟨size, List.replicate (size / P.bytes) st⟩ = 0 := by
    rw [countResident, List.countP_replicate, hst]
    rfl
  constructor
  · intro base' r hmem hend
    rcases (OrdMap.mem_emplace hfree.find_eq_none).1 hmem with heq | hmem
    · cases heq
      exact habsent
    · exact h.untouched base' r hmem hend
  · have hweight : PageTable.residentCount p
        { t with regions := t.regions.reserve base size st hfree } =
          countResident p ⟨size, List.replicate (size / P.bytes) st⟩ + t.residentCount p :=
      OrdMap.weight_emplace hfree.find_eq_none
    rw [hweight, habsent, Nat.zero_add]
    exact h.residentPages_eq

theorem Counted.release (h : t.Counted p) {base n : ℕ} {r : Region σ}
    (hmem : (base, r) ∈ t.regions.map.entries) (hn : n + countResident p r = t.residentPages) :
    PageTable.Counted p ⟨t.regions.release base, n⟩ := by
  constructor
  · intro base' r' hmem' hend
    exact h.untouched base' r' (OrdMap.mem_erase.1 hmem').1 hend
  · have hweight : PageTable.residentCount p ⟨t.regions.release base, n⟩ + countResident p r =
        t.residentCount p := OrdMap.weight_erase hmem
    have hpages := h.residentPages_eq
    change n = _
    omega

theorem Counted.residentPages_lt (h : t.Counted p) : t.residentPages < 2 ^ 64 := by
  rw [h.residentPages_eq]
  exact h.untouched.residentCount_lt

theorem Counted.countP_le (h : t.Counted p) {base : ℕ} {r : Region σ}
    (hmem : (base, r) ∈ t.regions.map.entries) : countResident p r ≤ t.residentPages := by
  rw [h.residentPages_eq]
  exact OrdMap.le_weight (w := countResident p) hmem

theorem foldl_wrapSub {l : List σ} {n : ℕ} (hle : l.countP p ≤ n) (hn : n < 2 ^ 64) :
    l.foldl (fun n st => if p st = true then wrapSub n 1 else n) n + l.countP p = n := by
  induction l generalizing n with
  | nil => rfl
  | cons st l ih =>
    rw [List.foldl_cons]
    rw [List.countP_cons] at hle ⊢
    split_ifs at hle ⊢ with hst
    · rw [wrapSub_of_le (by omega) hn]
      have hrest := ih (n := n - 1) (by omega) (by omega)
      omega
    · have hrest := ih (n := n) (by omega) hn
      omega

/-! ## What the number is worth -/

/-- What a backend can rely on when it looks an address up or counts. -/
structure Sound (p : σ → Bool) (t : PageTable σ P) : Prop where
  regionFor_iff : ∀ addr base r, t.regions.regionFor addr = some (base, r) ↔
    (base, r) ∈ t.regions.map.entries ∧ base + r.size < 2 ^ 64 ∧
      base ≤ addr ∧ addr < base + r.size
  unique : ∀ addr base r base' r', (base, r) ∈ t.regions.map.entries →
    (base', r') ∈ t.regions.map.entries → base ≤ addr ∧ addr < base + r.size →
    base' ≤ addr ∧ addr < base' + r'.size → base' = base ∧ r' = r
  index : ∀ addr base r, t.regions.regionFor addr = some (base, r) →
    Regions.pageIndex P base addr < r.states.length ∧
      base + Regions.pageIndex P base addr * P.bytes ≤ addr ∧
      addr < base + (Regions.pageIndex P base addr + 1) * P.bytes
  residentPages_eq : t.residentPages = t.residentCount p
  /-- A page that is taken back has been counted, -/
  page_counted : ∀ addr st, t.regions.stateAt addr = some st → p st = true → 0 < t.residentPages
  /-- and so have the pages of a region. -/
  region_counted : ∀ base r, (base, r) ∈ t.regions.map.entries →
    countResident p r ≤ t.residentPages

theorem Counted.page_counted (h : t.Counted p) {addr : ℕ} {st : σ}
    (hst : t.regions.stateAt addr = some st) (hp : p st = true) : 0 < t.residentPages := by
  obtain ⟨⟨base, r⟩, hfor, hget⟩ := Option.bind_eq_some_iff.1 hst
  have hpos : 0 < countResident p r :=
    List.countP_pos_iff.2 ⟨st, List.mem_of_getElem? hget, hp⟩
  exact hpos.trans_le (h.countP_le (Regions.regionFor_eq_some_iff.1 hfor).1)

theorem Counted.sound (h : t.Counted p) : t.Sound p where
  regionFor_iff _ _ _ := Regions.regionFor_eq_some_iff
  unique _ _ _ _ _ hmem hmem' := Regions.mem_unique_of_contains hmem hmem'
  index _ _ _ hfor :=
    ⟨Regions.pageIndex_lt hfor,
      Regions.pageIndex_page (Regions.regionFor_eq_some_iff.1 hfor).2.2.1⟩
  residentPages_eq := h.residentPages_eq
  page_counted _ _ := h.page_counted
  region_counted _ _ := h.countP_le

/-- The same holds between any two rounds of a loop over a range. -/
def Accounted (p : σ → Bool) (t : PageTable σ P) : Prop :=
  t.Sound p ∧
    ∀ f count, Counting p f count → ∀ addr k, (t.rounds f count addr k).Sound p

theorem Counted.accounted (h : t.Counted p) : t.Accounted p :=
  ⟨h.sound, fun _ _ hcounting addr k => (h.rounds hcounting addr k).sound⟩

end MemInfo.PageTable
