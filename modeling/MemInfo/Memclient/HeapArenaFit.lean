import Mathlib.Order.Bounds.Defs
import MemInfo.Memclient.HeapArenaInvariant

/-! # First fit

The free blocks are the gaps between the live ones: they are determined by them, and a range that
meets no live block lies inside a free one. So the search finds the lowest place there is, and
the order of releases does not matter.
-/

namespace MemInfo.HeapArena

open Lib

variable {a b : HeapArena} {s n : ℕ}

/-! ## Gaps -/

theorem Inv.free_at (hi : Inv a) (hup : s < a.extent)
    (hlive : ∀ e ∈ a.liveBlocks.entries, s < e.1 ∨ e.1 + e.2 ≤ s) :
    ∃ e ∈ a.freeBlocks.entries, e.1 ≤ s ∧ s < e.1 + e.2 := by
  obtain ⟨t, ht | ht, h₁, h₂⟩ := hi.tiling.cover s (Nat.zero_le s) hup
  · exact ⟨(t.start, t.len), ht.2, h₁, h₂⟩
  · have := hlive _ ht.2
    simp only at this
    omega

theorem Inv.free_unique (hi : Inv a) {e e' : ℕ × ℕ} (he : e ∈ a.freeBlocks.entries)
    (he' : e' ∈ a.freeBlocks.entries) (h₁ : e.1 ≤ e'.1) (h₂ : e'.1 ≤ e.1 + e.2) : e = e' := by
  by_contra hne
  have hapart := hi.apart e he e' he'
  have htiles : (⟨.free, e.1, e.2⟩ : Tile BlockState) ≠ ⟨.free, e'.1, e'.2⟩ := by
    intro h
    obtain ⟨-, hs, hl⟩ := Tile.mk.inj h
    exact hne (Prod.ext hs hl)
  have hpos' := hi.tiling.pos ⟨.free, e'.1, e'.2⟩ (.inl ⟨rfl, he'⟩)
  have := hi.tiling.disjoint _ (.inl ⟨rfl, he⟩) _ (.inl ⟨rfl, he'⟩) htiles
  simp only at this hpos'
  omega

theorem Inv.exists_free (hi : Inv a) (hn : 0 < n) (hup : s + n ≤ a.extent)
    (hlive : ∀ e ∈ a.liveBlocks.entries, s + n ≤ e.1 ∨ e.1 + e.2 ≤ s) :
    ∃ e ∈ a.freeBlocks.entries, e.1 ≤ s ∧ s + n ≤ e.1 + e.2 := by
  have hfree : ∀ x, s ≤ x → x < s + n → ∃ e ∈ a.freeBlocks.entries, e.1 ≤ x ∧ x < e.1 + e.2 := by
    intro x h₁ h₂
    refine hi.free_at (by omega) fun e he => ?_
    have := hlive e he
    omega
  obtain ⟨e, he, h₁, h₂⟩ := hfree s le_rfl (by omega)
  refine ⟨e, he, h₁, ?_⟩
  by_contra hshort
  -- the block behind it would be free as well
  obtain ⟨e', he', h₁', h₂'⟩ := hfree (e.1 + e.2) (by omega) (by omega)
  by_cases hle : e.1 ≤ e'.1
  · obtain rfl := hi.free_unique he he' hle h₁'
    omega
  · obtain rfl := hi.free_unique he' he (by omega) (by omega)
    omega

theorem Inv.free_live (hi : Inv a) {e e' : ℕ × ℕ} (he : e ∈ a.freeBlocks.entries)
    (he' : e' ∈ a.liveBlocks.entries) : e.1 + e.2 ≤ e'.1 ∨ e'.1 + e'.2 ≤ e.1 :=
  (hi.free_disjoint he (.inr he')).2.symm

/-- A free block of one arena lies in a free block of the other, if both have the same live
blocks. -/
theorem Inv.free_around (ha : Inv a) (hb : Inv b) (hextent : a.extent = b.extent)
    (hlive : a.liveBlocks = b.liveBlocks) {e : ℕ × ℕ} (he : e ∈ a.freeBlocks.entries) :
    ∃ e' ∈ b.freeBlocks.entries, e'.1 ≤ e.1 ∧ e.1 + e.2 ≤ e'.1 + e'.2 := by
  have hpos := ha.tiling.pos ⟨.free, e.1, e.2⟩ (.inl ⟨rfl, he⟩)
  apply hb.exists_free hpos (hextent ▸ ha.free_upper he)
  intro e' he'
  exact ha.free_live he (hlive ▸ he')

theorem Inv.free_subset (ha : Inv a) (hb : Inv b) (hextent : a.extent = b.extent)
    (hlive : a.liveBlocks = b.liveBlocks) {e : ℕ × ℕ} (he : e ∈ a.freeBlocks.entries) :
    e ∈ b.freeBlocks.entries := by
  obtain ⟨e', he', h₁, h₂⟩ := ha.free_around hb hextent hlive he
  obtain ⟨e'', he'', h₁', h₂'⟩ := hb.free_around ha hextent.symm hlive.symm he'
  obtain rfl : e'' = e := ha.free_unique he'' he (by omega) (by omega)
  have hsame : e' = e'' := Prod.ext (by omega) (by omega)
  exact hsame ▸ he'

theorem Inv.eq_of_live (ha : Inv a) (hb : Inv b) (hbase : a.base = b.base) (hsize : a.size = b.size)
    (hlive : a.liveBlocks = b.liveBlocks) : a = b := by
  have hextent : a.extent = b.extent := by
    rw [extent, extent, hbase, hsize]
  have hfree : a.freeBlocks = b.freeBlocks := OrdMap.eq_of_mem_iff fun e =>
    ⟨ha.free_subset hb hextent hlive, hb.free_subset ha hextent.symm hlive.symm⟩
  have huse : a.inUseBytes = b.inUseBytes := by
    rw [ha.inUse, hb.inUse, hlive]
  cases a
  cases b
  simp_all

/-! ## The search -/

theorem alignUp_eq {v k : ℕ} (hk : k < 64) :
    alignUp v (2 ^ k) = wrap ((v + (2 ^ k - 1)) / 2 ^ k * 2 ^ k) := by
  have hlt : 2 ^ k < 2 ^ 64 := Nat.pow_lt_pow_right (by decide) hk
  have hword : 2 ^ 64 = 2 ^ k * 2 ^ (64 - k) := by
    rw [← Nat.pow_add, Nat.add_sub_cancel' hk.le]
  rw [alignUp, wrapSub_of_le Nat.one_le_two_pow hlt, and_mask (wrap_lt _) hk]
  unfold wrap
  rw [hword, Nat.mod_mul_right_div_self, Nat.mul_comm (2 ^ k) (2 ^ (64 - k)), Nat.mul_mod_mul_right]

/-- The bytes that the search skips in a block lead to the first multiple behind its start. They
are computed correctly even if rounding up wraps. -/
theorem lead_isLeast {base start k lead : ℕ} (hv : base + start < 2 ^ 64) (hk : k < 64)
    (hlead : wrapSub (wrapSub (alignUp (wrap (base + start)) (2 ^ k)) base) start = lead) :
    IsLeast {x | 2 ^ k ∣ x ∧ base + start ≤ x} (base + start + lead) := by
  have hlt : 2 ^ k < 2 ^ 64 := Nat.pow_lt_pow_right (by decide) hk
  have hpos : 0 < 2 ^ k := Nat.two_pow_pos k
  generalize hC : (base + start + (2 ^ k - 1)) / 2 ^ k * 2 ^ k = C at *
  have hdvd : 2 ^ k ∣ C := hC ▸ Nat.dvd_mul_left ..
  have hmod := Nat.div_add_mod' (base + start + (2 ^ k - 1)) (2 ^ k)
  have hrem := Nat.mod_lt (base + start + (2 ^ k - 1)) hpos
  rw [wrap_of_lt hv, alignUp_eq hk, hC] at hlead
  have heq : base + start + lead = C := by
    unfold wrapSub wrap at hlead
    omega
  rw [heq]
  refine ⟨⟨hdvd, by omega⟩, ?_⟩
  rintro x ⟨hx, hle⟩
  -- a smaller multiple would be smaller by a whole `2 ^ k`
  by_contra hlt
  have := Nat.le_of_dvd (by omega) (Nat.dvd_sub hdvd hx)
  omega

/-- The addresses at which an aligned range fits into one of the blocks. -/
def places (a : HeapArena) (bytes alignment : ℕ) (blocks : List (ℕ × ℕ)) : Set ℕ :=
  {x | alignment ∣ x ∧ ∃ e ∈ blocks, a.base + e.1 ≤ x ∧ x + bytes ≤ a.base + e.1 + e.2}

theorem Inv.firstFit_isLeast (hi : Inv a) (bytes : ℕ) {k : ℕ} (hk : k < 64) {l : List (ℕ × ℕ)}
    (hl : l ⊆ a.freeBlocks.entries) (hs : l.Pairwise fun e e' => e.1 < e'.1) :
    (a.firstFit bytes (2 ^ k) l).1 = 0 ∧ a.places bytes (2 ^ k) l = ∅ ∨
      IsLeast (a.places bytes (2 ^ k) l) (a.firstFit bytes (2 ^ k) l).1 := by
  induction l with
  | nil => exact .inl ⟨rfl, by simp [places]⟩
  | cons e l ih =>
    obtain ⟨start, len⟩ := e
    obtain ⟨hfirst, hs⟩ := List.pairwise_cons.mp hs
    have hf : (start, len) ∈ a.freeBlocks.entries := hl (by simp)
    have hup := hi.free_upper hf
    have hsize := a.extent_le
    have hfits := hi.fits
    obtain ⟨lead, hlead⟩ : ∃ lead, wrapSub (wrapSub (alignUp (wrap (a.base + start)) (2 ^ k))
      a.base) start = lead := ⟨_, rfl⟩
    obtain ⟨⟨hdvd, -⟩, hleast⟩ := lead_isLeast (by omega) hk hlead
    simp only [firstFit, hlead]
    split_ifs with hc
    · have hsame : a.places bytes (2 ^ k) ((start, len) :: l) = a.places bytes (2 ^ k) l := by
        ext x
        constructor
        · rintro ⟨hx, e, he, h₁, h₂⟩
          rcases List.mem_cons.mp he with rfl | he
          · have := hleast ⟨hx, h₁⟩
            simp only at h₂
            omega
          · exact ⟨hx, e, he, h₁, h₂⟩
        · rintro ⟨hx, e, he, h⟩
          exact ⟨hx, e, List.mem_cons_of_mem _ he, h⟩
      rw [hsame]
      exact ih (fun e he => hl (List.mem_cons_of_mem _ he)) hs
    · have haddr : wrap (a.base + wrapSub (alignUp (wrap (a.base + start)) (2 ^ k)) a.base) =
          a.base + start + lead := by
        unfold wrapSub wrap at *
        omega
      rw [haddr]
      refine .inr ⟨⟨hdvd, (start, len), by simp, by simp only; omega, by simp only; omega⟩, ?_⟩
      rintro x ⟨hx, e, he, h₁, h₂⟩
      rcases List.mem_cons.mp he with rfl | he
      · exact hleast ⟨hx, h₁⟩
      · have hlt := hfirst e he
        obtain ⟨-, hd⟩ := hi.free_disjoint hf
          (.inl ⟨hl (List.mem_cons_of_mem _ he), Nat.ne_of_gt hlt⟩)
        simp only at hlt
        omega

/-- The addresses at which an aligned range lies inside the region and meets no live block. -/
def room (a : HeapArena) (bytes alignment : ℕ) : Set ℕ :=
  {x | alignment ∣ x ∧ a.base ≤ x ∧ x + bytes ≤ a.base + a.size ∧
    ∀ e ∈ a.liveBlocks.entries, x + bytes ≤ a.base + e.1 ∨ a.base + e.1 + e.2 ≤ x}

theorem Inv.places_eq_room (hi : Inv a) (hbase : a.base ≠ 0) {bytes alignment : ℕ}
    (hb : 0 < bytes) : a.places bytes alignment a.freeBlocks.entries = a.room bytes alignment := by
  have hextent : a.extent = a.size := if_neg hbase
  ext x
  constructor
  · rintro ⟨hx, e, he, h₁, h₂⟩
    have hup := hi.free_upper he
    refine ⟨hx, by omega, by omega, fun e' he' => ?_⟩
    have := hi.free_live he he'
    omega
  · rintro ⟨hx, h₁, h₂, hlive⟩
    have hgap : ∀ e ∈ a.liveBlocks.entries, x - a.base + bytes ≤ e.1 ∨ e.1 + e.2 ≤ x - a.base := by
      intro e he
      have := hlive e he
      omega
    obtain ⟨e, he, h₃, h₄⟩ := hi.exists_free hb (by omega) hgap
    exact ⟨hx, e, he, by omega, by omega⟩

/-- In every reachable state an allocation gives the lowest aligned address at which there is
room, and fails exactly if there is none. -/
theorem allocate_first_fit {base size bytes k : ℕ} (hbase : base ≠ 0) (hfits : base + size < 2 ^ 64)
    (ops : List ArenaOp) (hb : 0 < bytes) (hk : k < 64) :
    let a := (run HeapArena.step (HeapArena.new base size) ops).2
    let p := (a.allocate bytes (2 ^ k)).1
    (p = 0 ↔ a.room bytes (2 ^ k) = ∅) ∧ (p ≠ 0 → IsLeast (a.room bytes (2 ^ k)) p) := by
  intro a p
  obtain ⟨hi, hb', -⟩ : Inv a ∧ a.base = base ∧ a.size = size := reachable_inv hfits ops
  have hlt : 2 ^ k < 2 ^ 64 := Nat.pow_lt_pow_right (by decide) hk
  have hp : p = (a.firstFit bytes (2 ^ k) a.freeBlocks.entries).1 := by
    have hpow : 2 ^ k &&& wrapSub (2 ^ k) 1 = 0 := by
      rw [wrapSub_of_le Nat.one_le_two_pow hlt, Nat.and_two_pow_sub_one_eq_mod, Nat.mod_self]
    have hne : 2 ^ k ≠ 0 := Nat.two_pow_pos k |>.ne'
    simp only [p, allocate, hb.ne', hb', hbase, hne, hpow, or_self, if_false, ne_eq,
      not_true_eq_false]
  have hsearch := hi.firstFit_isLeast bytes hk
    (List.Subset.refl a.freeBlocks.entries) a.freeBlocks.sorted
  rw [hi.places_eq_room (hb' ▸ hbase) hb, ← hp] at hsearch
  rcases hsearch with ⟨hnone, hempty⟩ | hleast
  · exact ⟨⟨fun _ => hempty, fun _ => hnone⟩, fun h => absurd hnone h⟩
  · have hne : p ≠ 0 := by
      have := hleast.1.2.1
      omega
    exact ⟨⟨fun h => absurd h hne, fun h => absurd hleast.1 (h ▸ Set.notMem_empty p)⟩,
      fun _ => hleast⟩

/-- Five bytes are taken at address 16, so the next 16-byte boundary with room is 32. -/
theorem allocate_first_fit_behind_block :
    IsLeast ((run HeapArena.step (HeapArena.new 16 32) [.allocate 5 8]).2.room 4 (2 ^ 4)) 32 := by
  have hfirst := allocate_first_fit (k := 4) (by decide) (by decide : 16 + 32 < 2 ^ 64)
    [.allocate 5 8] (by decide : 0 < 4) (by decide)
  exact hfirst.2 (by decide)

/-- Under a null base there is room, and nothing is handed out. -/
theorem null_base_has_room :
    let a := (run HeapArena.step (HeapArena.new 0 16) []).2
    0 + 16 < 2 ^ 64 ∧ (a.allocate 4 (2 ^ 3)).1 = 0 ∧ 8 ∈ a.room 4 (2 ^ 3) := by
  refine ⟨by decide, rfl, by decide, by decide, by decide, ?_⟩
  intro e he
  simp [HeapArena.new, OrdMap.empty] at he

/-! ## Releases -/

theorem Inv.mem_live_deallocate (hi : Inv a) {ptr : ℕ} {e : ℕ × ℕ} :
    e ∈ (a.deallocate ptr).liveBlocks.entries ↔
      e ∈ a.liveBlocks.entries ∧ ptr ≠ a.base + e.1 := by
  obtain ⟨h, hnone⟩ | ⟨len, -, hle, h⟩ := hi.deallocate_cases ptr
  · rw [h]
    exact ⟨fun he => ⟨he, hnone e he⟩, And.left⟩
  · rw [h, OrdMap.mem_erase]
    exact and_congr_right fun _ => by omega

def releases (ptrs : List ℕ) : List ArenaOp := ptrs.map .deallocate

theorem Inv.releases (hi : Inv a) (ptrs : List ℕ) :
    let b := (run HeapArena.step a (releases ptrs)).2
    (Inv b ∧ b.base = a.base ∧ b.size = a.size) ∧
      ∀ e, e ∈ b.liveBlocks.entries ↔
        e ∈ a.liveBlocks.entries ∧ ∀ ptr ∈ ptrs, ptr ≠ a.base + e.1 := by
  induction ptrs generalizing a with
  | nil => exact ⟨⟨hi, rfl, rfl⟩, fun e => by simp [HeapArena.releases]⟩
  | cons ptr ptrs ih =>
    obtain ⟨hbase, hsize⟩ := a.base_size_step hi (.deallocate ptr)
    obtain ⟨⟨hi', hbase', hsize'⟩, hmem⟩ := ih (hi.step (.deallocate ptr))
    refine ⟨⟨hi', hbase'.trans hbase, hsize'.trans hsize⟩, fun e => ?_⟩
    apply (hmem e).trans
    rw [hbase, List.forall_mem_cons, ← and_assoc]
    exact and_congr_left' hi.mem_live_deallocate

theorem Inv.releases_congr (hi : Inv a) {ptrs ptrs' : List ℕ}
    (h : ∀ ptr, ptr ∈ ptrs ↔ ptr ∈ ptrs') :
    (run HeapArena.step a (HeapArena.releases ptrs)).2 =
      (run HeapArena.step a (HeapArena.releases ptrs')).2 := by
  obtain ⟨⟨hb, hbase, hsize⟩, hmem⟩ := hi.releases ptrs
  obtain ⟨⟨hb', hbase', hsize'⟩, hmem'⟩ := hi.releases ptrs'
  apply hb.eq_of_live hb' (hbase.trans hbase'.symm) (hsize.trans hsize'.symm)
  apply OrdMap.eq_of_mem_iff
  intro e
  rw [hmem, hmem']
  simp only [h]

theorem Inv.deallocate_allocate (hi : Inv a) (bytes alignment : ℕ) :
    (a.allocate bytes alignment).2.deallocate (a.allocate bytes alignment).1 = a := by
  obtain h | ⟨start, len, lead, -, hb, -, -, hf, hlen, -, h⟩ := hi.allocate_cases bytes alignment
  · rw [h]
    simp [HeapArena.deallocate]
  · rw [h]
    have hc := hi.carved hf hb hlen
    obtain ⟨hbase, hsize⟩ :=
      (a.carved bytes start len lead).base_size_step hc (.deallocate (a.base + (start + lead)))
    apply (hc.deallocate _).eq_of_live hi hbase hsize
    apply OrdMap.eq_of_mem_iff
    intro e
    have hfind := hi.find_live hf hb hlen
    rw [hc.mem_live_deallocate]
    simp only [HeapArena.carved, OrdMap.mem_emplace hfind]
    constructor
    · rintro ⟨rfl | he, hne⟩
      · exact absurd rfl hne
      · exact he
    · intro he
      refine ⟨.inr he, fun heq => ?_⟩
      have hkey : start + lead = e.1 := by omega
      exact OrdMap.find_eq_none_iff.mp hfind e.2 (hkey ▸ he)

theorem Inv.release_all (hi : Inv a) (ptrs : List ℕ)
    (hall : ∀ e ∈ a.liveBlocks.entries, a.base + e.1 ∈ ptrs) :
    (run HeapArena.step a (HeapArena.releases ptrs)).2 = HeapArena.new a.base a.size := by
  obtain ⟨⟨hb, hbase, hsize⟩, hmem⟩ := hi.releases ptrs
  apply hb.eq_of_live (.new hi.fits) hbase hsize
  apply OrdMap.eq_of_mem_iff
  intro e
  rw [hmem]
  constructor
  · rintro ⟨he, hne⟩
    exact absurd rfl (hne _ (hall e he))
  · intro he
    simp [HeapArena.new, OrdMap.empty] at he

def reached (base size : ℕ) (ops : List ArenaOp) : HeapArena :=
  (run HeapArena.step (HeapArena.new base size) ops).2

/-- The live blocks determine the free ones, whatever the history. So the order of releases does
not matter, an allocation that is given back leaves no trace, and without live blocks there is
one free block. -/
theorem releases_in_any_order {base size : ℕ} (hfits : base + size < 2 ^ 64) :
    (∀ ops ops', (reached base size ops).liveBlocks = (reached base size ops').liveBlocks →
      (reached base size ops).freeBlocks = (reached base size ops').freeBlocks) ∧
    (∀ ops ptrs ptrs', ptrs.Perm ptrs' →
      reached base size (ops ++ releases ptrs) = reached base size (ops ++ releases ptrs')) ∧
    (∀ ops bytes alignment,
      ((reached base size ops).allocate bytes alignment).2.deallocate
        ((reached base size ops).allocate bytes alignment).1 = reached base size ops) ∧
    (∀ ops ptrs, (∀ e ∈ (reached base size ops).liveBlocks.entries, base + e.1 ∈ ptrs) →
      base ≠ 0 → size ≠ 0 →
      (reached base size (ops ++ releases ptrs)).freeBlocks.entries = [(0, size)]) := by
  have hreached : ∀ ops, Inv (reached base size ops) ∧ (reached base size ops).base = base ∧
      (reached base size ops).size = size := reachable_inv hfits
  have happend : ∀ ops ops', reached base size (ops ++ ops') =
      (run HeapArena.step (reached base size ops) ops').2 := fun _ _ => run_append_snd
  constructor
  · intro ops ops' hlive
    obtain ⟨hi, hbase, hsize⟩ := hreached ops
    obtain ⟨hi', hbase', hsize'⟩ := hreached ops'
    rw [hi.eq_of_live hi' (hbase.trans hbase'.symm) (hsize.trans hsize'.symm) hlive]
  constructor
  · intro ops ptrs ptrs' hperm
    rw [happend, happend]
    exact (hreached ops).1.releases_congr fun ptr => hperm.mem_iff
  constructor
  · intro ops bytes alignment
    exact (hreached ops).1.deallocate_allocate bytes alignment
  · intro ops ptrs hall hbase hsize
    obtain ⟨hi, hb, hs⟩ := hreached ops
    have hnew := hi.release_all ptrs (hb.symm ▸ hall)
    rw [hb, hs] at hnew
    rw [happend, hnew]
    simp [HeapArena.new, hbase, hsize, OrdMap.emplace, OrdMap.find, OrdMap.empty]

/-- Three blocks of an arena of 32 bytes, released from the middle. -/
theorem releases_in_any_order_from_middle :
    16 + 32 < 2 ^ 64 ∧
    (reached 16 32 ([.allocate 8 1, .allocate 8 1, .allocate 8 1] ++
      releases [24, 16, 32])).freeBlocks.entries = [(0, 32)] := by
  have hfits : 16 + 32 < 2 ^ 64 := by decide
  obtain ⟨-, -, -, hall⟩ := releases_in_any_order hfits
  exact ⟨hfits, hall _ _ (by decide) (by decide) (by decide)⟩

/-- At the end of the address space nothing is ever released, since the end of the range wraps.
Without a base or without bytes there is no free block. -/
theorem release_without_range :
    (((reached (2 ^ 64 - 16) 16 []).allocate 1 1).2.deallocate
      ((reached (2 ^ 64 - 16) 16 []).allocate 1 1).1).liveBlocks.entries ≠
        (reached (2 ^ 64 - 16) 16 []).liveBlocks.entries ∧
    (reached 0 16 (releases [])).freeBlocks.entries ≠ [(0, 16)] ∧
    (reached 16 0 (releases [])).freeBlocks.entries ≠ [(0, 0)] := by
  exact ⟨by decide +kernel, by decide, by decide⟩

end MemInfo.HeapArena
