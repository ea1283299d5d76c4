import Mathlib.Logic.Function.Basic
import MemInfo.Platform.PageFaultBackend

/-! # The Linux backend

`PageFaultBackendLinux` answers the faults of a region that is registered with userfaultfd. It
keeps a flag for every OS page, which is what it reports as dirty. Addresses are relative to the
region, and the calls are for ranges inside of it.
-/

namespace MemInfo

open Lib

/-- The region: the memory, the OS pages that the kernel has mapped, and the flags
`Region::resident`. -/
structure LinuxRegion where
  mem : ℕ → Byte
  present : ℕ → Bool
  resident : ℕ → Bool

namespace LinuxRegion

def reserveRegion : LinuxRegion := ⟨fun _ => 0, fun _ => false, fun _ => false⟩

variable (osPage : ℕ) (b : LinuxRegion)

def Covers (addr len i : ℕ) : Prop := addr ≤ i * osPage ∧ i * osPage < addr + len

instance (addr len i : ℕ) : Decidable (Covers osPage addr len i) :=
  inferInstanceAs (Decidable (_ ∧ _))

def pageBase (addr : ℕ) : ℕ := addr / osPage * osPage

def offsetInPage (addr : ℕ) : ℕ := addr % osPage

def markResident (addr len : ℕ) (resident : Bool) : LinuxRegion :=
  { b with resident := fun i => if Covers osPage addr len i then resident else b.resident i }

def map (addr : ℕ) (data : List Byte) : LinuxRegion :=
  { b with
    mem := blit b.mem addr data
    present := fun i => if Covers osPage addr data.length i then true else b.present i }

/-- `UFFDIO_COPY` maps one OS page after the other. It may stop before any of them, and does
before one that is mapped. -/
def CanCopy (addr : ℕ) (data : List Byte) (n : ℕ) : Prop :=
  n * osPage ≤ data.length ∧ ∀ i, Covers osPage addr (n * osPage) i → b.present i = false

/-- `UFFDIO_COPY`, which fails if it has not mapped everything. -/
def uffdioCopy (addr : ℕ) (data : List Byte) (n : ℕ) : Bool × LinuxRegion :=
  (n * osPage = data.length, b.map osPage addr (data.take (n * osPage)))

/-- How many OS pages a kernel maps that stops only if it has to. -/
def copies (addr : ℕ) (data : List Byte) : ℕ :=
  let n := data.length / osPage
  if ∀ i < addr + data.length, Covers osPage addr (n * osPage) i → b.present i = false then n else 0

/-- `resolve_fault`, when the kernel maps `n` OS pages. The answer is `resolved_`. -/
def resolveFault (addr : ℕ) (data : List Byte) (n : ℕ) : Bool × LinuxRegion :=
  let base := pageBase osPage addr
  let span := offsetInPage osPage addr + data.length
  let total := roundUp (if span = 0 then osPage else span) osPage
  let staged := splice (List.replicate total 0) (offsetInPage osPage addr) data
  let (copied, b') := (b.markResident osPage base total true).uffdioCopy osPage base staged n
  if copied then (true, b') else (false, b'.markResident osPage base total false)

/-- `is_dirty`: every OS page that is flagged counts. -/
def isDirty (addr len : ℕ) : Bool :=
  (List.range (roundUp (offsetInPage osPage addr + len) osPage / osPage)).any fun i =>
    b.resident (addr / osPage + i)

/-- `evict_pages`, when `madvise` succeeds. -/
def evictPages (addr len : ℕ) : LinuxRegion :=
  let base := pageBase osPage addr
  let total := roundUp (offsetInPage osPage addr + len) osPage
  let dropped :=
    { b with present := fun i => if Covers osPage base total i then false else b.present i }
  dropped.markResident osPage base total false

/-- `zero_page`. `UFFDIO_ZEROPAGE` fails on an OS page that is mapped. -/
def zeroPage (addr : ℕ) : LinuxRegion :=
  let base := pageBase osPage addr
  let marked := b.markResident osPage base osPage true
  if b.present (addr / osPage) then marked.markResident osPage base osPage false
  else marked.map osPage base (List.replicate osPage 0)

/-- An access to a byte. It faults if the OS page is not mapped. -/
def readByte (addr : ℕ) : Option Byte :=
  if b.present (addr / osPage) then some (b.mem addr) else none

def writeByte (addr : ℕ) (v : Byte) : LinuxRegion :=
  { b with mem := Function.update b.mem addr v }

/-- The OS pages of a range that are missing, filled with zeros. -/
def zeroMissing (addr n : ℕ) : LinuxRegion :=
  (List.range n).foldl
    (fun b i =>
      if b.present (addr / osPage + i) then b else b.zeroPage osPage (addr + i * osPage)) b

end LinuxRegion

/-! ## The OS pages of a page

A page of the heap is made of `k` OS pages.
-/

namespace LinuxRegion

/-- All OS pages of the page are mapped and flagged, or none of them is. -/
def WholeAt (k page : ℕ) (b : LinuxRegion) : Prop :=
  ∀ i < k, b.present (page * k + i) = b.present (page * k) ∧
    b.resident (page * k + i) = b.present (page * k)

instance (k page : ℕ) (b : LinuxRegion) : Decidable (WholeAt k page b) :=
  inferInstanceAs (Decidable (∀ i < k, _))

def Full (k page : ℕ) (b : LinuxRegion) : Prop := ∀ i, i / k = page → b.present i = true

def Flagged (k page : ℕ) (b : LinuxRegion) : Prop := ∃ i, i / k = page ∧ b.resident i = true

structure AgreesOn (osPage k page : ℕ) (b b' : LinuxRegion) : Prop where
  present : ∀ i, i / k = page → b'.present i = b.present i
  resident : ∀ i, i / k = page → b'.resident i = b.resident i
  mem : ∀ a, a / osPage / k = page → b'.mem a = b.mem a

/-- Only OS pages of the page have changed. -/
def Elsewhere (osPage k page : ℕ) (b b' : LinuxRegion) : Prop :=
  ∀ q, q ≠ page → AgreesOn osPage k q b b'

variable {osPage k page off : ℕ} {b b' : LinuxRegion} {data : List Byte}

theorem osPage_of_byte (hoff : off < k * osPage) :
    (page * (k * osPage) + off) / osPage / k = page := by
  rw [Nat.div_div_eq_div_mul, Nat.mul_comm osPage k]
  exact Nat.div_eq_of_lt_le (by omega) (by rw [Nat.succ_mul]; omega)

theorem exists_osPage (hk : 0 < k) {i : ℕ} (hi : i / k = page) : ∃ n < k, i = page * k + n := by
  refine ⟨i % k, Nat.mod_lt _ hk, ?_⟩
  rw [← hi, Nat.div_add_mod']

theorem osPage_div (hk : 0 < k) {n : ℕ} (hn : n < k) : (page * k + n) / k = page := by
  rw [Nat.mul_comm, Nat.mul_add_div hk, Nat.div_eq_of_lt hn, Nat.add_zero]

theorem wholeAt_iff (hk : 0 < k) :
    WholeAt k page b ↔ ∃ v, ∀ i, i / k = page → b.present i = v ∧ b.resident i = v := by
  constructor
  · intro h
    refine ⟨b.present (page * k), fun i hi => ?_⟩
    obtain ⟨n, hn, rfl⟩ := exists_osPage hk hi
    exact h n hn
  · rintro ⟨v, h⟩ n hn
    rw [(h (page * k) (Nat.mul_div_cancel page hk)).1]
    exact h _ (osPage_div hk hn)

theorem WholeAt.full (h : WholeAt k page b) (hk : 0 < k) {i : ℕ} (hi : i / k = page)
    (hpresent : b.present i = true ∨ b.resident i = true) :
    Full k page b ∧ Flagged k page b := by
  obtain ⟨v, hv⟩ := (wholeAt_iff hk).1 h
  obtain ⟨hp, hr⟩ := hv i hi
  obtain rfl : v = true := by
    rcases hpresent with h | h
    · exact hp.symm.trans h
    · exact hr.symm.trans h
  exact ⟨fun j hj => (hv j hj).1, i, hi, hr⟩

namespace AgreesOn

variable (h : AgreesOn osPage k page b b')

include h

theorem wholeAt (hk : 0 < k) (hb : WholeAt k page b) : WholeAt k page b' := by
  obtain ⟨v, hv⟩ := (wholeAt_iff hk).1 hb
  refine (wholeAt_iff hk).2 ⟨v, fun i hi => ?_⟩
  rw [h.present i hi, h.resident i hi]
  exact hv i hi

theorem full (hb : Full k page b) : Full k page b' := by
  intro i hi
  rw [h.present i hi, hb i hi]

theorem flagged (hb : Flagged k page b) : Flagged k page b' := by
  obtain ⟨i, hi, hr⟩ := hb
  exact ⟨i, hi, (h.resident i hi).trans hr⟩

end AgreesOn

section Base

theorem offsetInPage_page : offsetInPage osPage (page * (k * osPage)) = 0 := by
  rw [offsetInPage, ← Nat.mul_assoc, Nat.mul_mod_left]

variable (hos : 0 < osPage)

include hos

theorem pageBase_page : pageBase osPage (page * (k * osPage)) = page * (k * osPage) := by
  rw [pageBase, ← Nat.mul_assoc, Nat.mul_div_cancel _ hos]

theorem osPage_of_page : page * (k * osPage) / osPage = page * k := by
  rw [← Nat.mul_assoc, Nat.mul_div_cancel _ hos]

theorem covers_page_iff (hk : 0 < k) {i : ℕ} :
    Covers osPage (page * (k * osPage)) (k * osPage) i ↔ i / k = page := by
  rw [Covers, ← Nat.mul_assoc, ← Nat.add_mul, Nat.mul_le_mul_right_iff hos,
    Nat.mul_lt_mul_right hos, Nat.div_eq_iff hk]
  rw [Nat.mul_comm]
  omega

theorem covers_osPage_iff {addr i : ℕ} :
    Covers osPage (pageBase osPage addr) osPage i ↔ i = addr / osPage := by
  rw [Covers, pageBase, Nat.mul_le_mul_right_iff hos, ← Nat.succ_mul, Nat.mul_lt_mul_right hos]
  omega

theorem covers_byte_iff {n : ℕ} :
    Covers osPage (page * (k * osPage)) (n * osPage) ((page * (k * osPage) + off) / osPage) ↔
      off < n * osPage := by
  have hdiv : (page * k * osPage + off) / osPage = page * k + off / osPage := by
    rw [Nat.mul_comm (page * k), Nat.mul_add_div hos]
  rw [Covers, ← Nat.mul_assoc, hdiv, ← Nat.add_mul, Nat.mul_le_mul_right_iff hos,
    Nat.mul_lt_mul_right hos, Nat.add_lt_add_iff_left, Nat.div_lt_iff_lt_mul hos]
  exact and_iff_right (Nat.le_add_right ..)

end Base

/-! The operations, one by one. -/

section ZeroPage

variable (hos : 0 < osPage) {addr : ℕ}

include hos

theorem present_zeroPage (i : ℕ) : (b.zeroPage osPage addr).present i =
    if i = addr / osPage then true else b.present i := by
  unfold zeroPage
  split_ifs with hp hi hi
  · rw [hi]
    exact hp
  · rfl
  all_goals simp [map, markResident, covers_osPage_iff hos, hi]

theorem resident_zeroPage (i : ℕ) : (b.zeroPage osPage addr).resident i =
    if i = addr / osPage then !b.present (addr / osPage) else b.resident i := by
  unfold zeroPage
  split_ifs with hp hi hi
  all_goals simp [map, markResident, covers_osPage_iff hos, *]

theorem mem_zeroPage (a : ℕ) : (b.zeroPage osPage addr).mem a =
    if a / osPage = addr / osPage ∧ b.present (addr / osPage) = false then 0 else b.mem a := by
  unfold zeroPage
  cases hp : b.present (addr / osPage) with
  | true => simp [markResident]
  | false =>
    simp only [map, markResident, pageBase, and_true, Bool.false_eq_true, if_false]
    have hmod := Nat.mod_lt a hos
    have hdiv := Nat.div_add_mod' a osPage
    by_cases ha : a / osPage = addr / osPage
    · rw [if_pos ha, ← ha]
      nth_rewrite 2 [← hdiv]
      rw [blit_inside (by simpa using hmod), List.getElem_replicate]
    · rw [if_neg ha, blit_outside]
      rw [List.length_replicate, ← Nat.succ_mul]
      rcases Nat.lt_or_gt_of_ne ha with h | h
      · have := Nat.mul_le_mul_right osPage (Nat.succ_le_of_lt h)
        rw [Nat.succ_mul] at this
        omega
      · have := Nat.mul_le_mul_right osPage (Nat.succ_le_of_lt h)
        omega

theorem elsewhere_zeroPage : Elsewhere osPage k (addr / osPage / k) b (b.zeroPage osPage addr) := by
  intro q hq
  have hne {i : ℕ} (hi : i / k = q) : i ≠ addr / osPage := by
    rintro rfl
    exact hq hi.symm
  constructor
  · intro i hi
    rw [present_zeroPage hos, if_neg (hne hi)]
  · intro i hi
    rw [resident_zeroPage hos, if_neg (hne hi)]
  · intro a ha
    rw [mem_zeroPage hos, if_neg fun h => hne ha h.1]

end ZeroPage

/-- OS pages of the page were missing and are filled with zeros. -/
structure ZeroFilled (osPage k page : ℕ) (b b' : LinuxRegion) : Prop where
  elsewhere : Elsewhere osPage k page b b'
  present : ∀ i, b.present i = true → b'.present i = true
  resident : ∀ i, b.resident i = true → b'.resident i = true
  mem : ∀ a, b'.present (a / osPage) = true →
    b'.mem a = if b.present (a / osPage) = true then b.mem a else 0

theorem ZeroFilled.refl : ZeroFilled osPage k page b b where
  elsewhere _ _ := ⟨fun _ _ => rfl, fun _ _ => rfl, fun _ _ => rfl⟩
  present _ h := h
  resident _ h := h
  mem _ h := (if_pos h).symm

theorem ZeroFilled.zeroPage (h : ZeroFilled osPage k page b b') (hos : 0 < osPage) {addr : ℕ}
    (haddr : addr / osPage / k = page) (hmissing : b'.present (addr / osPage) = false) :
    ZeroFilled osPage k page b (b'.zeroPage osPage addr) where
  elsewhere q hq := by
    have hold := h.elsewhere q hq
    have hnew : AgreesOn osPage k q b' (b'.zeroPage osPage addr) :=
      elsewhere_zeroPage hos q (haddr ▸ hq)
    exact ⟨fun i hi => (hnew.present i hi).trans (hold.present i hi),
      fun i hi => (hnew.resident i hi).trans (hold.resident i hi),
      fun a ha => (hnew.mem a ha).trans (hold.mem a ha)⟩
  present i hi := by
    rw [present_zeroPage hos, h.present i hi, ite_self]
  resident i hi := by
    rw [resident_zeroPage hos, hmissing, h.resident i hi]
    exact ite_self _
  mem a ha := by
    rw [present_zeroPage hos] at ha
    rw [mem_zeroPage hos, hmissing]
    by_cases heq : a / osPage = addr / osPage
    · have hb : b.present (a / osPage) ≠ true := by
        intro hb
        rw [← heq, h.present _ hb] at hmissing
        cases hmissing
      rw [if_pos ⟨heq, rfl⟩, if_neg hb]
    · rw [if_neg heq] at ha
      rw [if_neg fun h => heq h.1, h.mem a ha]

theorem zeroFilled_zeroMissing (b : LinuxRegion) (page : ℕ) (hos : 0 < osPage) (hk : 0 < k) :
    ZeroFilled osPage k page b (b.zeroMissing osPage (page * (k * osPage)) k) ∧
      Full k page (b.zeroMissing osPage (page * (k * osPage)) k) := by
  have hfold (n : ℕ) (hn : n ≤ k) :
      ZeroFilled osPage k page b (b.zeroMissing osPage (page * (k * osPage)) n) ∧
        ∀ i < n, (b.zeroMissing osPage (page * (k * osPage)) n).present (page * k + i) = true := by
    induction n with
    | zero => exact ⟨.refl, fun i hi => absurd hi (Nat.not_lt_zero i)⟩
    | succ n ih =>
      obtain ⟨hfilled, hall⟩ := ih (Nat.le_of_succ_le hn)
      have haddr : (page * (k * osPage) + n * osPage) / osPage = page * k + n := by
        rw [← Nat.mul_assoc, ← Nat.add_mul, Nat.mul_div_cancel _ hos]
      rw [zeroMissing, List.range_succ, List.foldl_append, List.foldl_cons, List.foldl_nil,
        ← zeroMissing, osPage_of_page hos]
      split_ifs with hp
      · refine ⟨hfilled, fun i hi => ?_⟩
        rcases Nat.lt_succ_iff_lt_or_eq.1 hi with hi | rfl
        · exact hall i hi
        · exact hp
      · have hpage : (page * (k * osPage) + n * osPage) / osPage / k = page := by
          rw [haddr, osPage_div hk hn]
        refine ⟨hfilled.zeroPage hos hpage ?_, fun i hi => ?_⟩
        · rw [haddr]
          exact Bool.eq_false_iff.2 hp
        · rw [present_zeroPage hos, haddr]
          rcases Nat.lt_succ_iff_lt_or_eq.1 hi with hi | rfl
          · rw [hall i hi, ite_self]
          · rw [if_pos rfl]
  obtain ⟨hfilled, hall⟩ := hfold k (Nat.le_refl k)
  refine ⟨hfilled, fun i hi => ?_⟩
  obtain ⟨n, hn, rfl⟩ := exists_osPage hk hi
  exact hall n hn

theorem elsewhere_writeByte (hoff : off < k * osPage) {v : Byte} :
    Elsewhere osPage k page b (b.writeByte (page * (k * osPage) + off) v) := by
  intro q hq
  refine ⟨fun _ _ => rfl, fun _ _ => rfl, fun a ha => Function.update_of_ne ?_ ..⟩
  rintro rfl
  exact hq (ha.symm.trans (osPage_of_byte hoff))

section Page

variable (hos : 0 < osPage) (hk : 0 < k) (hround : roundUp (k * osPage) osPage = k * osPage)

include hos hk hround

/-- `UFFDIO_COPY` maps the first OS pages. The flags of all of them tell whether it has mapped the
whole page. -/
theorem resolveFault_spec (hdata : data.length = k * osPage) {n : ℕ} (hn : n * osPage ≤ k * osPage)
    {r : Bool} (h : b.resolveFault osPage (page * (k * osPage)) data n = (r, b')) :
    (r = true → n * osPage = k * osPage) ∧
      (∀ i, b'.resident i = if i / k = page then r else b.resident i) ∧
      (∀ i, b'.present i =
        if Covers osPage (page * (k * osPage)) (n * osPage) i then true else b.present i) ∧
      b'.mem = blit b.mem (page * (k * osPage)) (data.take (n * osPage)) := by
  have hpos : k * osPage ≠ 0 := Nat.ne_of_gt (Nat.mul_pos hk hos)
  have hstaged : splice (List.replicate (k * osPage) 0) 0 data = data := by
    simp [splice, hdata]
  have htake : (data.take (n * osPage)).length = n * osPage := by
    rw [List.length_take, hdata, Nat.min_eq_left hn]
  simp only [LinuxRegion.resolveFault, pageBase_page hos, offsetInPage_page, hdata, Nat.zero_add,
    if_neg hpos, hround, hstaged, uffdioCopy, decide_eq_true_eq] at h
  split_ifs at h with hall
  · obtain ⟨rfl, rfl⟩ := Prod.mk.inj h
    refine ⟨fun _ => hall, fun i => ?_, fun i => ?_, rfl⟩
    · simp only [map, markResident, covers_page_iff hos hk]
    · simp only [map, markResident, htake]
  · obtain ⟨rfl, rfl⟩ := Prod.mk.inj h
    refine ⟨Bool.noConfusion, fun i => ?_, fun i => ?_, rfl⟩
    · simp only [map, markResident, covers_page_iff hos hk]
      split_ifs <;> rfl
    · simp only [map, markResident, htake]

theorem elsewhere_resolveFault (hdata : data.length = k * osPage) {n : ℕ}
    (hn : n * osPage ≤ k * osPage) {r : Bool}
    (h : b.resolveFault osPage (page * (k * osPage)) data n = (r, b')) :
    Elsewhere osPage k page b b' := by
  obtain ⟨-, hresident, hpresent, hmem⟩ := resolveFault_spec hos hk hround hdata hn h
  intro q hq
  have hne {i : ℕ} (hi : i / k = q) : i / k ≠ page := hi ▸ hq
  constructor
  · intro i hi
    rw [hpresent, if_neg]
    rintro ⟨hge, hlt⟩
    exact hne hi ((covers_page_iff hos hk).1 ⟨hge, by omega⟩)
  · intro i hi
    rw [hresident, if_neg (hne hi)]
  · intro a ha
    rw [hmem, blit_outside]
    by_contra! hin
    have hlen := List.length_take_le (n * osPage) data
    refine hne ha ((covers_page_iff hos hk).1 ⟨?_, ?_⟩)
    · rw [← Nat.mul_assoc, Nat.mul_le_mul_right_iff hos, Nat.le_div_iff_mul_le hos, Nat.mul_assoc]
      omega
    · have := Nat.div_mul_le_self a osPage
      omega

theorem byte_resolveFault (hdata : data.length = k * osPage) {n : ℕ}
    (hn : n * osPage ≤ k * osPage) {r : Bool}
    (h : b.resolveFault osPage (page * (k * osPage)) data n = (r, b')) (hoff : off < k * osPage)
    (hpresent' : b'.present ((page * (k * osPage) + off) / osPage) = true) :
    data[off]? = some (b'.mem (page * (k * osPage) + off)) ∨
      b.present ((page * (k * osPage) + off) / osPage) = true ∧
        b'.mem (page * (k * osPage) + off) = b.mem (page * (k * osPage) + off) := by
  obtain ⟨-, -, hpresent, hmem⟩ := resolveFault_spec hos hk hround hdata hn h
  rw [hpresent] at hpresent'
  have htake : (data.take (n * osPage)).length = n * osPage := by
    rw [List.length_take, hdata, Nat.min_eq_left hn]
  by_cases hlt : off < n * osPage
  · left
    rw [hmem, blit_inside (by omega), List.getElem_take]
    exact List.getElem?_eq_getElem (by omega)
  · rw [if_neg fun hc => hlt ((covers_byte_iff hos).1 hc)] at hpresent'
    exact Or.inr ⟨hpresent', by rw [hmem, blit_outside (by omega)]⟩

theorem isDirty_iff (b : LinuxRegion) (page : ℕ) :
    b.isDirty osPage (page * (k * osPage)) (k * osPage) = true ↔ Flagged k page b := by
  rw [LinuxRegion.isDirty, offsetInPage_page, Nat.zero_add, hround, Nat.mul_div_cancel _ hos,
    osPage_of_page hos, List.any_eq_true]
  constructor
  · rintro ⟨n, hn, hr⟩
    exact ⟨_, osPage_div hk (List.mem_range.1 hn), hr⟩
  · rintro ⟨i, hi, hr⟩
    obtain ⟨n, hn, rfl⟩ := exists_osPage hk hi
    exact ⟨n, List.mem_range.2 hn, hr⟩

theorem evictPages_spec (b : LinuxRegion) (page : ℕ) :
    Elsewhere osPage k page b (b.evictPages osPage (page * (k * osPage)) (k * osPage)) ∧
      ∀ i, i / k = page →
        (b.evictPages osPage (page * (k * osPage)) (k * osPage)).present i = false ∧
        (b.evictPages osPage (page * (k * osPage)) (k * osPage)).resident i = false := by
  have hspec (i : ℕ) : (b.evictPages osPage (page * (k * osPage)) (k * osPage)).present i =
      (if i / k = page then false else b.present i) ∧
      (b.evictPages osPage (page * (k * osPage)) (k * osPage)).resident i =
        if i / k = page then false else b.resident i := by
    simp only [LinuxRegion.evictPages, markResident, pageBase_page hos, offsetInPage_page,
      Nat.zero_add, hround, covers_page_iff hos hk, and_self]
  constructor
  · intro q hq
    have hne {i : ℕ} (hi : i / k = q) : i / k ≠ page := hi ▸ hq
    exact ⟨fun i hi => (hspec i).1.trans (if_neg (hne hi)),
      fun i hi => (hspec i).2.trans (if_neg (hne hi)), fun _ _ => rfl⟩
  · intro i hi
    exact ⟨(hspec i).1.trans (if_pos hi), (hspec i).2.trans (if_pos hi)⟩

end Page

theorem canCopy_copies {addr : ℕ} : b.CanCopy osPage addr data (b.copies osPage addr data) := by
  unfold copies
  dsimp only
  split
  next h =>
    have hle := Nat.div_mul_le_self data.length osPage
    refine ⟨hle, fun i hi => h i ?_ hi⟩
    obtain ⟨h₁, h₂⟩ := hi
    have hpos : osPage ≠ 0 := by
      rintro rfl
      simp at h₁ h₂
      omega
    have := Nat.le_mul_of_pos_right i (Nat.pos_of_ne_zero hpos)
    omega
  next =>
    refine ⟨by simp, fun i hi => ?_⟩
    obtain ⟨h₁, h₂⟩ := hi
    omega

section Empty

variable (hround : roundUp 0 osPage = 0)

include hround

theorem isDirty_empty : b.isDirty osPage (page * (k * osPage)) 0 = false := by
  simp [LinuxRegion.isDirty, offsetInPage_page, hround]

theorem evictPages_empty : b.evictPages osPage (page * (k * osPage)) 0 = b := by
  have hnone : ∀ addr i, ¬ Covers osPage addr 0 i := by
    rintro addr i ⟨h₁, h₂⟩
    omega
  simp [LinuxRegion.evictPages, markResident, offsetInPage_page, hround, hnone]

end Empty

end LinuxRegion

end MemInfo
