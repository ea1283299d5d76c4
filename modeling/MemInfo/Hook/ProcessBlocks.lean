import MemInfo.Hook.MallocHook
import MemInfo.Memclient.HeapArenaFit

/-! # The blocks of a process under the interposer

The arena and the C library hand out blocks side by side. As long as both keep to their own
memory, the blocks of the process are well formed and keep their bytes.
-/

namespace MemInfo

open Lib

variable {R : HookRegion} {config : HookConfig} {w w' : HookWorld} {p q n : ℕ}

/-! ## The blocks of the arena -/

namespace HeapArena

variable {a : HeapArena}

theorem Inv.blockAt_eq_some_iff (hi : Inv a) :
    a.blockAt p = some n ↔ a.base ≤ p ∧ (p - a.base, n) ∈ a.liveBlocks.entries := by
  unfold blockAt
  rw [← OrdMap.find_eq_some_iff]
  constructor
  · intro h
    split at h
    next howns =>
      simp only [owns, decide_eq_true_eq] at howns
      exact ⟨howns.1, h⟩
    next => cases h
  · rintro ⟨hle, hf⟩
    have hup := hi.live_upper (OrdMap.find_eq_some_iff.mp hf)
    have hsize := a.extent_le
    have howns : a.owns p = true := by
      simp only [owns, wrap_of_lt hi.fits, decide_eq_true_eq]
      simp only at hup
      omega
    rw [if_pos howns, hf]

theorem Inv.blockAt_inside (hi : Inv a) (h : a.blockAt p = some n) :
    0 < p ∧ 0 < n ∧ a.base ≤ p ∧ p + n ≤ a.base + a.size := by
  obtain ⟨hle, hm⟩ := hi.blockAt_eq_some_iff.mp h
  have hup := hi.live_upper hm
  have hbase := hi.base_ne_zero hm
  have hsize := a.extent_le
  simp only at hup
  omega

theorem Inv.blockAt_apart {m : ℕ} (hi : Inv a) (hp : a.blockAt p = some n)
    (hq : a.blockAt q = some m) (hne : p ≠ q) : p + n ≤ q ∨ q + m ≤ p := by
  obtain ⟨hle, hm⟩ := hi.blockAt_eq_some_iff.mp hp
  obtain ⟨hle', hm'⟩ := hi.blockAt_eq_some_iff.mp hq
  have htiles : (⟨.live, p - a.base, n⟩ : Tile BlockState) ≠ ⟨.live, q - a.base, m⟩ := by
    intro h
    have := (Tile.mk.inj h).2.1
    omega
  have := hi.tiling.disjoint _ (.inr ⟨rfl, hm⟩) _ (.inr ⟨rfl, hm'⟩) htiles
  simp only at this
  omega

theorem Inv.blockSize_eq (hi : Inv a) (h : a.blockAt p = some n) : a.blockSize p = n := by
  have hin := hi.blockAt_inside h
  have hfits := hi.fits
  unfold blockAt at h
  split at h
  next howns =>
    have hsub : wrapSub p a.base = p - a.base := wrapSub_of_le (by omega) (by omega)
    have hcond : ¬ (p = 0 ∨ ¬ a.owns p = true) := by
      simp only [howns, not_true_eq_false, or_false]
      omega
    rw [blockSize, if_neg hcond, hsub, h, Option.getD_some]
  next => exact absurd h nofun

theorem Inv.blockAt_allocate (hi : Inv a) (bytes alignment : ℕ) :
    a.allocate bytes alignment = (0, a) ∨
      (a.allocate bytes alignment).1 ≠ 0 ∧ a.blockAt (a.allocate bytes alignment).1 = none ∧
        (a.allocate bytes alignment).2.blockAt =
          Function.update a.blockAt (a.allocate bytes alignment).1 (some bytes) := by
  obtain h | ⟨start, len, lead, hbase, hb, -, -, hf, hlen, -, h⟩ :=
    hi.allocate_cases bytes alignment
  · exact .inl h
  · have hfind := hi.find_live hf hb hlen
    have hc := hi.carved hf hb hlen
    have hnone : a.blockAt (a.base + (start + lead)) = none := by
      by_contra hsome
      obtain ⟨n, hn⟩ := Option.ne_none_iff_exists'.mp hsome
      obtain ⟨-, hm⟩ := hi.blockAt_eq_some_iff.mp hn
      rw [Nat.add_sub_cancel_left] at hm
      exact OrdMap.find_eq_none_iff.mp hfind n hm
    rw [h]
    refine .inr ⟨by simp only; omega, hnone, ?_⟩
    ext q m
    rw [hc.blockAt_eq_some_iff]
    simp only [HeapArena.carved, OrdMap.mem_emplace hfind, Prod.mk.injEq]
    by_cases hq : q = a.base + (start + lead)
    · subst hq
      rw [Function.update_self, Nat.add_sub_cancel_left, Option.some.injEq]
      have hlive : (start + lead, m) ∉ a.liveBlocks.entries := OrdMap.find_eq_none_iff.mp hfind m
      simp [hlive, eq_comm]
    · rw [Function.update_of_ne hq, hi.blockAt_eq_some_iff]
      constructor
      · rintro ⟨hle, ⟨hkey, -⟩ | hm⟩
        · omega
        · exact ⟨hle, hm⟩
      · rintro ⟨hle, hm⟩
        exact ⟨hle, .inr hm⟩

theorem Inv.blockAt_deallocate (hi : Inv a) (p : ℕ) :
    (a.deallocate p).blockAt = Function.update a.blockAt p none := by
  have hbase := (a.base_size_step hi (.deallocate p)).1
  simp only [HeapArena.step] at hbase
  ext q m
  rw [(hi.deallocate p).blockAt_eq_some_iff, hbase, hi.mem_live_deallocate]
  by_cases hq : q = p
  · subst hq
    rw [Function.update_self]
    constructor
    · rintro ⟨hle, -, hne⟩
      simp only at hne
      omega
    · rintro ⟨⟩
  · rw [Function.update_of_ne hq, hi.blockAt_eq_some_iff]
    constructor
    · rintro ⟨hle, hm, -⟩
      exact ⟨hle, hm⟩
    · rintro ⟨hle, hm⟩
      exact ⟨hle, hm, by simp only; omega⟩

theorem Inv.blockAt_new {base size : ℕ} (h : base + size < 2 ^ 64) :
    (HeapArena.new base size).blockAt p = none := by
  by_contra hsome
  obtain ⟨n, hn⟩ := Option.ne_none_iff_exists'.mp hsome
  obtain ⟨-, hm⟩ := (Inv.new h).blockAt_eq_some_iff.mp hn
  simp [HeapArena.new, OrdMap.empty] at hm

end HeapArena

/-! ## The process -/

structure HookWorld.Fine (R : HookRegion) (w : HookWorld) : Prop where
  arena : ∀ a, w.arena = some a → a.Inv ∧ a.base = R.base ∧ a.size = R.size
  real : ∀ p b, w.real.lookup p = some b → Hands R (w.real.erase p) p b

theorem Hands.outside_one {real : Dict ℕ RealBlock} {b : RealBlock} (h : Hands R real p b) :
    R.Outside p 1 := by
  have hspan : 1 ≤ b.block.span := Nat.le_max_left ..
  have := h.outside
  unfold HookRegion.Outside at *
  omega

theorem Hands.fresh {real : Dict ℕ RealBlock} {b : RealBlock} (h : Hands R real p b) :
    real.lookup p = none := by
  by_contra hsome
  obtain ⟨c, hc⟩ := Option.ne_none_iff_exists'.mp hsome
  have hb : 1 ≤ b.block.span := Nat.le_max_left ..
  have hc' : 1 ≤ c.block.span := Nat.le_max_left ..
  have := h.apart p c hc
  omega

namespace HookWorld

theorem blocks_cases {b : Block Owner} (h : w.blocks p = some b) :
    (∃ a n, w.arena = some a ∧ a.blockAt p = some n ∧ b = ⟨.arena, n, n⟩) ∨
      ∃ c, w.real.lookup p = some c ∧ b = c.block := by
  unfold blocks at h
  split at h
  next n hn =>
    obtain ⟨a, ha, hn⟩ := Option.bind_eq_some_iff.mp hn
    exact .inl ⟨a, n, ha, hn, (Option.some.inj h).symm⟩
  next =>
    obtain ⟨c, hc, rfl⟩ := Option.map_eq_some_iff.mp h
    exact .inr ⟨c, hc, rfl⟩

theorem Fine.blocks_outside (hw : w.Fine R) (h : R.Outside p 1) :
    w.blocks p = (w.real.lookup p).map RealBlock.block := by
  have hnone : w.arena.bind (·.blockAt p) = none := by
    by_contra hsome
    obtain ⟨n, hn⟩ := Option.ne_none_iff_exists'.mp hsome
    obtain ⟨a, ha, hn⟩ := Option.bind_eq_some_iff.mp hn
    obtain ⟨hi, hbase, hsize⟩ := hw.arena a ha
    have := hi.blockAt_inside hn
    unfold HookRegion.Outside at h
    omega
  unfold blocks
  rw [hnone]

theorem Fine.blocks_of_real (hw : w.Fine R) {c : RealBlock} (h : w.real.lookup p = some c) :
    w.blocks p = some c.block := by
  rw [hw.blocks_outside (hw.real p c h).outside_one, h, Option.map_some]

theorem Fine.wellFormed (hw : w.Fine R) : w.blocks.WellFormed where
  null := by
    by_contra hsome
    obtain ⟨b, hb⟩ := Option.ne_none_iff_exists'.mp hsome
    rcases blocks_cases hb with ⟨a, n, ha, hn, -⟩ | ⟨c, hc, -⟩
    · exact absurd ((hw.arena a ha).1.blockAt_inside hn).1 (by omega)
    · exact (hw.real 0 c hc).ne_null rfl
  size_le p b hb := by
    rcases blocks_cases hb with ⟨a, n, ha, hn, rfl⟩ | ⟨c, hc, rfl⟩
    · exact le_rfl
    · exact (hw.real p c hc).size_le
  apart p b q c hp hq hne := by
    have hmixed : ∀ {p q n : ℕ} {a : HeapArena} {c : RealBlock}, w.arena = some a →
        a.blockAt p = some n → w.real.lookup q = some c →
        p + n ≤ q ∨ q + c.block.span ≤ p := by
      intro p q n a c ha hn hc
      obtain ⟨hi, hbase, hsize⟩ := hw.arena a ha
      have hin := hi.blockAt_inside hn
      have hout := (hw.real q c hc).outside
      unfold HookRegion.Outside at hout
      omega
    rcases blocks_cases hp with ⟨a, n, ha, hn, rfl⟩ | ⟨c₁, hc₁, rfl⟩ <;>
      rcases blocks_cases hq with ⟨a', m, ha', hm, rfl⟩ | ⟨c₂, hc₂, rfl⟩
    · obtain rfl : a = a' := Option.some.inj (ha.symm.trans ha')
      have hi := (hw.arena a ha).1
      have hn₀ := hi.blockAt_inside hn
      have hm₀ := hi.blockAt_inside hm
      have := hi.blockAt_apart hn hm hne
      simp only [Block.span]
      omega
    · have hn₀ := (hw.arena a ha).1.blockAt_inside hn
      have := hmixed ha hn hc₂
      simp only [Block.span] at *
      omega
    · have hm₀ := (hw.arena a' ha').1.blockAt_inside hm
      have := hmixed ha' hm hc₁
      simp only [Block.span] at *
      omega
    · apply (hw.real p c₁ hc₁).apart q c₂
      rw [Dict.lookup_erase_iff, if_neg hne.symm, hc₂]

variable {m : ℕ → Byte} {real : Dict ℕ RealBlock}

theorem Fine.keeps (hw : w.Fine R) (hu : Untouched R real w.mem m) {B : Blocks Owner}
    (hB : ∀ q b, B q = some b → w.blocks q = some b ∧ real.lookup q = w.real.lookup q) :
    B.Keeps w.mem m := by
  intro q b hq i hi
  obtain ⟨hb, hreal⟩ := hB q b hq
  rcases blocks_cases hb with ⟨a, n, ha, hn, rfl⟩ | ⟨c, hc, rfl⟩
  · obtain ⟨hinv, hbase, hsize⟩ := hw.arena a ha
    have hin := hinv.blockAt_inside hn
    simp only at hi
    exact hu.1 _ (by omega) (by omega)
  · exact hu.2 q c (hreal.trans hc) i hi

theorem Fine.keeps_all (hw : w.Fine R) (hu : Untouched R w.real w.mem m) :
    w.blocks.Keeps w.mem m := hw.keeps hu fun _ _ hb => ⟨hb, rfl⟩

theorem Fine.keeps_others (hw : w.Fine R) (hu : Untouched R (w.real.erase p) w.mem m) :
    Blocks.Keeps (Function.update w.blocks p none) w.mem m := by
  refine hw.keeps hu fun q b hq => ?_
  obtain ⟨hne, hb⟩ := Blocks.of_release hq
  exact ⟨hb, by rw [Dict.lookup_erase_iff, if_neg hne]⟩

theorem Fine.written (hw : w.Fine R) (m : ℕ → Byte) : Fine R { w with mem := m } :=
  ⟨hw.arena, hw.real⟩

theorem Fine.insert (hw : w.Fine R) {b : RealBlock} (hb : Hands R w.real p b) (m : ℕ → Byte) :
    Fine R { w with mem := m, real := w.real.insert p b } := by
  refine ⟨hw.arena, fun q c hq => ?_⟩
  dsimp only at hq ⊢
  rw [Dict.lookup_insert_iff] at hq
  split at hq
  next hqp =>
    subst hqp
    obtain rfl := Option.some.inj hq
    refine ⟨hb.ne_null, hb.size_le, hb.outside, fun r d hr => ?_⟩
    rw [Dict.lookup_erase_iff, Dict.lookup_insert_iff] at hr
    split at hr
    · exact absurd hr nofun
    · exact hb.apart r d hr
  next hqp =>
    have hc := hw.real q c hq
    refine ⟨hc.ne_null, hc.size_le, hc.outside, fun r d hr => ?_⟩
    rw [Dict.lookup_erase_iff, Dict.lookup_insert_iff] at hr
    split at hr
    · exact absurd hr nofun
    next hrq =>
      split at hr
      next hrp =>
        subst hrp
        obtain rfl := Option.some.inj hr
        exact (hb.apart q c hq).symm
      next => exact hc.apart r d (by rw [Dict.lookup_erase_iff, if_neg hrq, hr])

theorem Fine.blocks_insert (hw : w.Fine R) {b : RealBlock} (hb : Hands R w.real p b)
    (m : ℕ → Byte) : blocks { w with mem := m, real := w.real.insert p b } =
      Function.update w.blocks p (some b.block) := by
  ext1 q
  by_cases hq : q = p
  · subst hq
    rw [(hw.insert hb m).blocks_outside hb.outside_one, Function.update_self,
      Dict.lookup_insert_iff, if_pos rfl, Option.map_some]
  · rw [Function.update_of_ne hq]
    simp only [blocks, Dict.lookup_insert_iff, if_neg hq]

theorem Fine.issues_insert (hw : w.Fine R) {b : RealBlock} (hb : Hands R w.real p b)
    (hkeep : w.blocks.Keeps w.mem m) :
    w.heap.Issues p b.size (heap { w with mem := m, real := w.real.insert p b }) := by
  refine ⟨hb.ne_null, ?_, hkeep, b.block, rfl, hw.blocks_insert hb m⟩
  exact (hw.blocks_outside hb.outside_one).trans (by rw [hb.fresh, Option.map_none])

theorem Fine.erase (hw : w.Fine R) (p : ℕ) (m : ℕ → Byte) :
    Fine R { w with mem := m, real := w.real.erase p } := by
  refine ⟨hw.arena, fun q c hq => ?_⟩
  dsimp only at hq ⊢
  rw [Dict.lookup_erase_iff] at hq
  split at hq
  · exact absurd hq nofun
  · have hc := hw.real q c hq
    refine ⟨hc.ne_null, hc.size_le, hc.outside, fun r d hr => hc.apart r d ?_⟩
    rw [Dict.lookup_erase_iff] at hr ⊢
    split at hr
    · exact absurd hr nofun
    next hrq =>
      rw [Dict.lookup_erase_iff] at hr
      split at hr
      · exact absurd hr nofun
      · rw [if_neg hrq, hr]

theorem Fine.blocks_erase (hw : w.Fine R) (h : p = 0 ∨ w.IssuedBy .crt p)
    (m : ℕ → Byte) :
    blocks { w with mem := m, real := w.real.erase p } = Function.update w.blocks p none := by
  have hp : blocks { w with mem := m, real := w.real.erase p } p = none := by
    rcases h with rfl | ⟨b, hb, howner⟩
    · exact (hw.erase 0 m).wellFormed.null
    · rcases blocks_cases hb with ⟨a, n, -, -, rfl⟩ | ⟨c, hc, -⟩
      · exact absurd howner nofun
      · rw [(hw.erase p m).blocks_outside (hw.real p c hc).outside_one, Dict.lookup_erase_iff,
          if_pos rfl, Option.map_none]
  ext1 q
  by_cases hq : q = p
  · subst hq
    rw [hp, Function.update_self]
  · rw [Function.update_of_ne hq]
    simp only [blocks, Dict.lookup_erase_iff, if_neg hq]

theorem Fine.blocks_arena {a a' : HeapArena} (hw : w.Fine R) (ha : w.arena = some a)
    (hp : R.base ≤ p ∧ p < R.base + R.size) {v : Option ℕ}
    (hblocks : a'.blockAt = Function.update a.blockAt p v) :
    blocks { w with arena := some a' } =
      Function.update w.blocks p (v.map fun n => ⟨.arena, n, n⟩) := by
  have hreal : w.real.lookup p = none := by
    by_contra hsome
    obtain ⟨c, hc⟩ := Option.ne_none_iff_exists'.mp hsome
    have := (hw.real p c hc).outside_one
    unfold HookRegion.Outside at this
    omega
  ext1 q
  by_cases hq : q = p
  · subst hq
    rw [Function.update_self]
    cases v <;> simp [blocks, hblocks, hreal]
  · rw [Function.update_of_ne hq]
    simp only [blocks, ha, Option.bind_some, hblocks, Function.update_of_ne hq]

end HookWorld

end MemInfo
