import MemInfo.Hook.ProcessBlocks
import MemInfo.Lib.Run

/-! # The interposer is transparent

Through the hooks the application sees one allocator that issues blocks, releases them and moves
them. Each block goes back to the allocator it came from.
-/

namespace MemInfo

open Lib
open Lib.Prog (wp wp_bind wp_mono wp_iff Always Runs)

variable {R : HookRegion} {config : HookConfig} {w w' : HookWorld} {p q n : ℕ}

/-! ## The effects -/

section Effects

open HookWorld BlockHeap

def Gave (R : HookRegion) (w : HookWorld) (n r : ℕ) (w' : HookWorld) : Prop :=
  w'.Fine R ∧ if r = 0 then Same w.heap w'.heap else Issues w.heap r n w'.heap

variable (hw : w.Fine R)

include hw

theorem fine_ensureInitialized {r : Bool} (h : hookEnv R .ensureInitialized w r w') :
    w'.Fine R ∧ Same w.heap w'.heap ∧ (r → w'.arena.isSome) := by
  simp only [hookEnv] at h
  split at h
  next a ha =>
    obtain ⟨rfl, rfl⟩ := h
    exact ⟨hw, .refl, fun _ => by simp [ha]⟩
  next hnone =>
    rcases h with ⟨rfl, rfl⟩ | ⟨-, rfl, rfl⟩
    · exact ⟨⟨hw.arena, hw.real⟩, .refl, nofun⟩
    · refine ⟨⟨?_, hw.real⟩, ⟨?_, .refl⟩, fun _ => rfl⟩
      · rintro _ ⟨⟩
        exact ⟨.new R.fits, rfl, rfl⟩
      · ext1 q
        simp [heap, HookWorld.blocks, hnone, HeapArena.Inv.blockAt_new R.fits]

theorem gave_arenaAllocate {bytes alignment r : ℕ}
    (h : hookEnv R (.arenaAllocate bytes alignment) w r w') : Gave R w bytes r w' := by
  obtain ⟨a, ha, rfl, rfl⟩ := h
  obtain ⟨hi, hbase, hsize⟩ := hw.arena a ha
  obtain heq | ⟨hne, hnone, hblocks⟩ := hi.blockAt_allocate bytes alignment
  · rw [heq, ← ha]
    exact ⟨hw, .refl⟩
  · have hi' := hi.step (.allocate bytes alignment)
    obtain ⟨hbase', hsize'⟩ := a.base_size_step hi (.allocate bytes alignment)
    simp only [HeapArena.step] at hi' hbase' hsize'
    have hat : (a.allocate bytes alignment).2.blockAt (a.allocate bytes alignment).1 =
        some bytes := by
      rw [hblocks, Function.update_self]
    have hin := hi'.blockAt_inside hat
    have hupdate := hw.blocks_arena ha (by omega) hblocks
    have hfine : Fine R { w with arena := some (a.allocate bytes alignment).2 } := by
      refine ⟨?_, hw.real⟩
      rintro _ ⟨⟩
      exact ⟨hi', hbase'.trans hbase, hsize'.trans hsize⟩
    refine ⟨hfine, ?_⟩
    rw [if_neg hne]
    refine ⟨hne, ?_, .refl, _, rfl, hupdate⟩
    -- an address in the region that the arena has not handed out
    by_contra hsome
    obtain ⟨b, hb⟩ := Option.ne_none_iff_exists'.mp hsome
    rcases blocks_cases hb with ⟨a', n, ha', hn, -⟩ | ⟨c, hc, -⟩
    · obtain rfl : a = a' := Option.some.inj (ha.symm.trans ha')
      rw [hnone] at hn
      cases hn
    · have := (hw.real _ c hc).outside_one
      unfold HookRegion.Outside at this
      omega

theorem releases_arenaDeallocate {r : Unit} (hp : w.IssuedBy .arena p)
    (h : hookEnv R (.arenaDeallocate p) w r w') : w'.Fine R ∧ Releases w.heap p w'.heap := by
  obtain ⟨a, ha, rfl⟩ := h
  obtain ⟨b, hb, howner⟩ := hp
  obtain ⟨hi, hbase, hsize⟩ := hw.arena a ha
  rcases blocks_cases hb with ⟨a', n, ha', hn, -⟩ | ⟨c, -, rfl⟩
  · obtain rfl : a = a' := Option.some.inj (ha.symm.trans ha')
    have hin := hi.blockAt_inside hn
    obtain ⟨hbase', hsize'⟩ := a.base_size_step hi (.deallocate p)
    have hupdate := hw.blocks_arena ha (by omega) (hi.blockAt_deallocate p)
    refine ⟨⟨?_, hw.real⟩, hupdate, .refl⟩
    rintro _ ⟨⟩
    exact ⟨hi.deallocate p, hbase'.trans hbase, hsize'.trans hsize⟩
  · exact absurd howner nofun

theorem gave_realMalloc {bytes r : ℕ} (h : hookEnv R (.realMalloc bytes) w r w') :
    Gave R w bytes r w' := by
  obtain ⟨m, hu, ⟨rfl, rfl⟩ | ⟨b, rfl, hb, rfl⟩⟩ := h
  · exact ⟨hw.written m, rfl, hw.keeps_all hu⟩
  · refine ⟨hw.insert hb m, ?_⟩
    rw [if_neg hb.ne_null]
    exact hw.issues_insert hb (hw.keeps_all hu)

theorem gave_realCalloc {count size r : ℕ} (h : hookEnv R (.realCalloc count size) w r w') :
    Gave R w (count * size) r w' ∧ (r ≠ 0 → ∀ i < count * size, w'.mem (r + i) = 0) := by
  obtain ⟨m, hu, ⟨rfl, rfl⟩ | ⟨b, hsize, hb, hzero, rfl⟩⟩ := h
  · exact ⟨⟨hw.written m, rfl, hw.keeps_all hu⟩, fun h => absurd rfl h⟩
  · rw [← hsize]
    refine ⟨⟨hw.insert hb m, ?_⟩, fun _ => hzero⟩
    rw [if_neg hb.ne_null]
    exact hw.issues_insert hb (hw.keeps_all hu)

theorem releases_realFree {r : Unit} (hp : p = 0 ∨ w.IssuedBy .crt p)
    (h : hookEnv R (.realFree p) w r w') : w'.Fine R ∧ Releases w.heap p w'.heap := by
  obtain ⟨m, hu, rfl⟩ := h
  have hblocks := hw.blocks_erase hp m
  refine ⟨hw.erase p m, hblocks, ?_⟩
  change Blocks.Keeps (HookWorld.blocks _) w.mem m
  rw [hblocks]
  exact hw.keeps_others hu

theorem moves_realRealloc {bytes r : ℕ} (hp : w.IssuedBy .crt p)
    (h : hookEnv R (.realRealloc p bytes) w r w') :
    w'.Fine R ∧ if r = 0 then Same w.heap w'.heap else Moves w.heap p r bytes w'.heap := by
  obtain ⟨old, hold, m, ⟨rfl, hu, rfl⟩ | ⟨b, rfl, hb, hu, hcopy, rfl⟩⟩ := h
  · exact ⟨hw.written m, rfl, hw.keeps_all hu⟩
  · -- the old block is taken back before the new one is handed out
    have hw₁ := hw.erase p w.mem
    have hblocks := hw.blocks_erase (.inr hp) w.mem
    have hkeep :
        (HookWorld.blocks { w with mem := w.mem, real := w.real.erase p }).Keeps w.mem m := by
      rw [hblocks]
      exact hw.keeps_others hu
    have hissue := hw₁.issues_insert hb hkeep
    refine ⟨hw₁.insert hb m, ?_⟩
    rw [if_neg hb.ne_null]
    refine ⟨old.block, hw.blocks_of_real hold, ?_, hcopy⟩
    rw [HookWorld.heap, hblocks] at hissue
    exact hissue

end Effects

/-! ## The hooks -/

/-- The program performs its effects in order and returns with `Q`. -/
abbrev Hooks (R : HookRegion) {α : Type} (prog : HookM α) (w : HookWorld)
    (Q : α → HookWorld → Prop) : Prop :=
  wp (hookEnv R) HookOp.InOrder prog (fun out w' => ∃ a, out = .ok a ∧ Q a w') w

section Programs

open BlockHeap

variable {α β : Type} {Q : α → HookWorld → Prop} {Q' : β → HookWorld → Prop}

theorem hooks_pure {a : α} (h : Q a w) : Hooks R (return a) w Q := ⟨a, rfl, h⟩

theorem hooks_op {o : HookOp} {Q : o.Res → HookWorld → Prop} (ho : o.InOrder w)
    (h : ∀ r w', hookEnv R o w r w' → Q r w') : Hooks R (hookDo o) w Q :=
  ⟨ho, fun r w' henv => ⟨r, rfl, h r w' henv⟩⟩

theorem hooks_bind {prog : HookM α} {f : α → HookM β} (hp : Hooks R prog w Q)
    (hf : ∀ a w', Q a w' → Hooks R (f a) w' Q') : Hooks R (prog >>= f) w Q' := by
  refine wp_bind.mpr (wp_mono hp ?_)
  rintro _ w' ⟨a, rfl, ha⟩
  exact hf a w' ha

theorem hooks_do {o : HookOp} {f : o.Res → HookM β} (ho : o.InOrder w)
    (hf : ∀ r w', hookEnv R o w r w' → Hooks R (f r) w' Q') : Hooks R (hookDo o >>= f) w Q' :=
  ⟨ho, hf⟩

theorem hooks_mono {prog : HookM α} {P : α → HookWorld → Prop} (hp : Hooks R prog w P)
    (h : ∀ a w', P a w' → Q a w') : Hooks R prog w Q := by
  apply wp_mono hp
  rintro _ w' ⟨a, rfl, ha⟩
  exact ⟨a, rfl, h a w' ha⟩

theorem Gave.after {w₁ : HookWorld} (h : Gave R w n 0 w₁) {m r : ℕ} (h' : Gave R w₁ m r w') :
    Gave R w m r w' := by
  refine ⟨h'.1, ?_⟩
  have hsame : Same w.heap w₁.heap := h.2
  have hres := h'.2
  split
  next hr =>
    rw [if_pos hr] at hres
    exact hsame.trans hres
  next hr =>
    rw [if_neg hr] at hres
    exact hsame.issues hres

theorem Gave.issues {r : ℕ} (h : Gave R w n r w') (hr : r ≠ 0) : Issues w.heap r n w'.heap := by
  have := h.2
  rwa [if_neg hr] at this

open Hook

variable (hw : w.Fine R)

include hw

theorem gave_remoteAllocate (bytes alignment : ℕ) :
    Hooks R (remoteAllocate config bytes alignment) w fun r w' => Gave R w bytes r w' := by
  unfold remoteAllocate
  split
  · exact hooks_pure ⟨hw, .refl⟩
  · refine hooks_do trivial fun ready w₁ henv => ?_
    obtain ⟨hw₁, hsame, harena⟩ := fine_ensureInitialized hw henv
    have hfailed : Gave R w bytes 0 w₁ := ⟨hw₁, hsame⟩
    cases ready with
    | false => exact hooks_pure hfailed
    | true =>
      exact hooks_op (harena rfl) fun r w' henv' => hfailed.after (gave_arenaAllocate hw₁ henv')

omit hw in
theorem hooks_passesThrough (bytes : ℕ) :
    Hooks R (passesThrough config bytes) w fun _ w' => w' = w := by
  unfold passesThrough
  split
  · exact hooks_pure rfl
  · exact hooks_op trivial fun _ _ h => h

theorem gave_remoteOrReal (bytes : ℕ) :
    Hooks R (remoteOrReal config bytes) w fun r w' => Gave R w bytes r w' := by
  refine hooks_bind (gave_remoteAllocate hw bytes 16) fun p w₁ hp => ?_
  by_cases h₀ : p = 0
  · subst h₀
    exact hooks_op trivial fun r w' henv => hp.after (gave_realMalloc hp.1 henv)
  · simp only [h₀, ne_eq, not_false_eq_true, if_true]
    exact hooks_pure hp

theorem gave_hookedMalloc (bytes : ℕ) :
    Hooks R (hookedMalloc config bytes) w fun r w' => Gave R w bytes r w' := by
  apply hooks_bind (hooks_passesThrough bytes)
  rintro through _ rfl
  cases through with
  | true => exact hooks_op trivial fun r w' henv => gave_realMalloc hw henv
  | false => exact gave_remoteOrReal hw bytes

/-- What `calloc` leaves behind. -/
def Cleared (R : HookRegion) (w : HookWorld) (n r : ℕ) (w' : HookWorld) : Prop :=
  Gave R w n r w' ∧ (r ≠ 0 → ∀ i < n, w'.mem (r + i) = 0)

theorem cleared_hookedCalloc (count size : ℕ) :
    Hooks R (hookedCalloc config count size) w fun r w' => Cleared R w (count * size) r w' := by
  unfold hookedCalloc
  split
  · exact hooks_pure ⟨⟨hw, .refl⟩, fun h => absurd rfl h⟩
  next hfits =>
    have hwrap : wrap (count * size) = count * size := by
      apply wrap_of_lt
      by_cases h₀ : count = 0
      · simp [h₀]
      · have hle : size ≤ sizeMax / count := by
          by_contra hlt
          exact hfits ⟨h₀, by omega⟩
        have := (Nat.le_div_iff_mul_le (Nat.pos_of_ne_zero h₀)).mp hle
        rw [Nat.mul_comm]
        unfold sizeMax at this
        omega
    rw [hwrap]
    apply hooks_bind (hooks_passesThrough _)
    rintro through _ rfl
    cases through with
    | true => exact hooks_op trivial fun r w' henv => gave_realCalloc hw henv
    | false =>
      refine hooks_bind (gave_remoteAllocate hw _ 16) fun p w₁ hp => ?_
      by_cases h₀ : p = 0
      · subst h₀
        refine hooks_op trivial fun r w' henv => ?_
        obtain ⟨hgave, hzero⟩ := gave_realCalloc hp.1 henv
        exact ⟨hp.after hgave, hzero⟩
      · simp only [h₀, if_false]
        have hissue := hp.issues h₀
        obtain ⟨b, hsize, hb⟩ := hissue.block
        have hle := hp.1.wellFormed.size_le p b hb
        refine hooks_do ⟨b, hb, by omega⟩ fun _ w₂ henv => hooks_pure ?_
        obtain rfl := henv
        have hlen : (List.replicate (count * size) (0 : Byte)).length ≤ count * size := by simp
        refine ⟨⟨hp.1.written _, ?_⟩, fun _ i hi => ?_⟩
        · rw [if_neg h₀]
          exact hissue.write hp.1.wellFormed _ hlen
        · exact (blit_inside (by simpa)).trans (List.getElem_replicate _)

omit hw in
theorem arenaOwns_of_blockAt {a : HeapArena} (ha : w.arena = some a) (h : a.blockAt p = some n) :
    w.arenaOwns p = true := by
  unfold HeapArena.blockAt at h
  split at h
  next howns => simp [HookWorld.arenaOwns, ha, howns]
  next => exact absurd h nofun

theorem issuedBy_of_arenaOwns {b : Block Owner} (hb : w.blocks p = some b) :
    w.IssuedBy (if w.arenaOwns p then .arena else .crt) p := by
  refine ⟨b, hb, ?_⟩
  rcases HookWorld.blocks_cases hb with ⟨a, n, ha, hn, rfl⟩ | ⟨c, hc, rfl⟩
  · rw [if_pos (arenaOwns_of_blockAt ha hn)]
  · refine (if_neg fun howns => ?_).symm
    have hout := (hw.real p c hc).outside_one
    cases ha : w.arena with
    | none => simp [HookWorld.arenaOwns, ha] at howns
    | some a =>
      obtain ⟨hi, hbase, hsize⟩ := hw.arena a ha
      simp only [HookWorld.arenaOwns, ha, Option.any_some, HeapArena.owns, wrap_of_lt hi.fits,
        decide_eq_true_eq] at howns
      unfold HookRegion.Outside at hout
      omega

theorem releases_hookedFree (hp : p = 0 ∨ ∃ b, w.blocks p = some b) :
    Hooks R (hookedFree p) w fun _ w' => w'.Fine R ∧ Releases w.heap p w'.heap := by
  unfold hookedFree
  split
  next h₀ => exact hooks_op (.inl h₀) fun _ w' henv => releases_realFree hw (.inl h₀) henv
  next h₀ =>
    obtain ⟨b, hb⟩ := hp.resolve_left h₀
    have hmine := issuedBy_of_arenaOwns hw hb
    refine hooks_do trivial ?_
    rintro owns _ ⟨hr, rfl⟩
    rw [← hr] at hmine
    cases owns with
    | true => exact hooks_op hmine fun _ w' henv => releases_arenaDeallocate hw hmine henv
    | false =>
      exact hooks_op (.inr hmine) fun _ w' henv => releases_realFree hw (.inr hmine) henv

theorem blockSize_of_issued {b : Block Owner} {a : HeapArena} {r : ℕ} (ha : w.arena = some a)
    (hb : w.blocks p = some b) (hmine : w.IssuedBy .arena p) (hr : r = a.blockSize p) :
    r = b.usable ∧ b.usable = b.size := by
  obtain ⟨b', hb', howner⟩ := hmine
  obtain rfl : b' = b := Option.some.inj (hb'.symm.trans hb)
  rcases HookWorld.blocks_cases hb with ⟨a', n, ha', hn, rfl⟩ | ⟨c, -, rfl⟩
  · obtain rfl : a = a' := Option.some.inj (ha.symm.trans ha')
    exact ⟨hr.trans ((hw.arena a ha).1.blockSize_eq hn), rfl⟩
  · exact absurd howner nofun

omit hw in
theorem msize_of_issued (hw : w.Fine R) {b : Block Owner} {c : RealBlock}
    (hb : w.blocks p = some b) (hc : w.real.lookup p = some c) : c.msize = b.usable := by
  rw [hw.blocks_of_real hc] at hb
  obtain rfl := Option.some.inj hb
  rfl

theorem hooks_hookedMsize {b : Block Owner} (hb : w.blocks p = some b) :
    Hooks R (hookedMsize p) w fun r w' => w' = w ∧ r = b.usable := by
  have h₀ : p ≠ 0 := by
    rintro rfl
    simp [hw.wellFormed.null] at hb
  unfold hookedMsize
  rw [if_neg h₀]
  have hmine := issuedBy_of_arenaOwns hw hb
  refine hooks_do trivial ?_
  rintro owns _ ⟨hr, rfl⟩
  rw [← hr] at hmine
  cases owns with
  | true =>
    refine hooks_op hmine ?_
    rintro r _ ⟨a, ha, hsize, rfl⟩
    exact ⟨rfl, (blockSize_of_issued hw ha hb hmine hsize).1⟩
  | false =>
    refine hooks_op hmine ?_
    rintro r _ ⟨c, hc, rfl, rfl⟩
    exact ⟨rfl, msize_of_issued hw hb hc⟩

/-- What `realloc` leaves behind. -/
def Moved (R : HookRegion) (w : HookWorld) (p n r : ℕ) (w' : HookWorld) : Prop :=
  w'.Fine R ∧ if r = 0 then Same w.heap w'.heap else Moves w.heap p r n w'.heap

omit hw in
theorem hooks_memcpy {w₁ : HookWorld} {b : Block Owner} {dst k : ℕ} {f : Unit → HookM β}
    (hp : w.blocks p = some b) (hdst : Gave R w n dst w₁) (h₀ : dst ≠ 0) (hk : k ≤ n)
    (hb : k ≤ b.usable)
    (hf : ∀ w₂, w₂.Fine R → w₂.blocks p = some b →
      w₂.heap = ⟨w₁.heap.blocks, blit w₁.heap.mem dst (window w₁.heap.mem p k)⟩ →
      Hooks R (f ()) w₂ Q') :
    Hooks R (hookDo (.memcpy dst p k) >>= f) w₁ Q' := by
  have hissue := hdst.issues h₀
  obtain ⟨b', hsize, hb'⟩ := hissue.block
  obtain ⟨hne, hp'⟩ := hissue.others hp
  have hle := hdst.1.wellFormed.size_le dst b' hb'
  refine hooks_do ⟨hne.symm, ⟨b', hb', by omega⟩, ⟨b, hp', hb⟩⟩ ?_
  rintro _ _ rfl
  exact hf _ (hdst.1.written _) hp' rfl

omit hw in
theorem Gave.moved {w₁ w₂ : HookWorld} {b : Block Owner} {dst k : ℕ} (hdst : Gave R w n dst w₁)
    (hp : w.blocks p = some b) (h₀ : dst ≠ 0) (hk : k = min b.usable n)
    (hsize : b.size ≤ b.usable) (hw₂ : w₂.Fine R)
    (hr : Releases ⟨w₁.heap.blocks, blit w₁.heap.mem dst (window w₁.heap.mem p k)⟩ p w₂.heap) :
    Moved R w p n dst w₂ := by
  refine ⟨hw₂, ?_⟩
  rw [if_neg h₀]
  exact (hdst.issues h₀).moves hdst.1.wellFormed hp (by omega) (by omega) (by omega) hr

theorem moved_reallocArena {b : Block Owner} (hb : w.blocks p = some b)
    (hmine : w.IssuedBy .arena p) (bytes : ℕ) :
    Hooks R (reallocArena config p bytes) w fun r w' => Moved R w p bytes r w' := by
  have hle := hw.wellFormed.size_le p b hb
  have howner : b.owner = .arena := by
    obtain ⟨b', hb', howner⟩ := hmine
    rwa [Option.some.inj (hb'.symm.trans hb)] at howner
  refine hooks_do hmine fun oldBytes w₀ henv => ?_
  obtain ⟨a, ha, hsize, hsame⟩ := henv
  subst w₀
  obtain ⟨rfl, -⟩ := blockSize_of_issued hw ha hb hmine hsize
  refine hooks_bind (gave_remoteOrReal hw bytes) fun dst w₂ hgave => ?_
  by_cases h₀ : dst = 0
  · subst h₀
    exact hooks_pure hgave
  · simp only [h₀, if_false]
    refine hooks_memcpy hb hgave h₀ (by omega) (by omega) fun w₃ hw₃ hb₃ hheap => ?_
    refine hooks_do ⟨b, hb₃, howner⟩ fun _ w₄ henv => hooks_pure ?_
    obtain ⟨hw₄, hrel⟩ := releases_arenaDeallocate hw₃ ⟨b, hb₃, howner⟩ henv
    rw [hheap] at hrel
    exact hgave.moved hb h₀ rfl hle hw₄ hrel

theorem moved_reallocReal {b : Block Owner} (hb : w.blocks p = some b)
    (hmine : w.IssuedBy .crt p) (bytes : ℕ) :
    Hooks R (reallocReal config p bytes) w fun r w' => Moved R w p bytes r w' := by
  have hle := hw.wellFormed.size_le p b hb
  have howner : b.owner = .crt := by
    obtain ⟨b', hb', howner⟩ := hmine
    rwa [Option.some.inj (hb'.symm.trans hb)] at howner
  refine hooks_do hmine ?_
  rintro oldBytes _ ⟨c, hc, rfl, rfl⟩
  rw [msize_of_issued hw hb hc]
  refine hooks_bind (gave_remoteAllocate hw bytes 16) fun dst w₁ hgave => ?_
  by_cases h₀ : dst = 0
  · subst h₀
    have hsame : Same _ w₁.heap := hgave.2
    have hb₁ : w₁.IssuedBy .crt p := ⟨b, (congrFun hsame.1 p).trans hb, howner⟩
    refine hooks_op hb₁ fun r w' henv => ?_
    obtain ⟨hw', hmoves⟩ := moves_realRealloc hgave.1 hb₁ henv
    refine ⟨hw', ?_⟩
    split
    next hr =>
      rw [if_pos hr] at hmoves
      exact hsame.trans hmoves
    next hr =>
      rw [if_neg hr] at hmoves
      exact hsame.moves hw.wellFormed hmoves
  · simp only [h₀, if_false]
    refine hooks_memcpy hb hgave h₀ (by omega) (by omega) fun w₂ hw₂ hb₂ hheap => ?_
    refine hooks_do (.inr ⟨b, hb₂, howner⟩) fun _ w₃ henv => hooks_pure ?_
    obtain ⟨hw₃, hrel⟩ := releases_realFree hw₂ (.inr ⟨b, hb₂, howner⟩) henv
    rw [hheap] at hrel
    exact hgave.moved hb h₀ rfl hle hw₃ hrel

theorem moved_hookedRealloc {b : Block Owner} (hb : w.blocks p = some b) {bytes : ℕ}
    (hbytes : bytes ≠ 0) :
    Hooks R (hookedRealloc config p bytes) w fun r w' => Moved R w p bytes r w' := by
  have h₀ : p ≠ 0 := by
    rintro rfl
    simp [hw.wellFormed.null] at hb
  have hreal : w.IssuedBy .crt p →
      Hooks R (hookDo (.realRealloc p bytes)) w fun r w' => Moved R w p bytes r w' := fun hmine =>
    hooks_op hmine fun r w' henv => moves_realRealloc hw hmine henv
  unfold hookedRealloc
  rw [if_neg h₀, if_neg hbytes]
  have hmine := issuedBy_of_arenaOwns hw hb
  refine hooks_do trivial fun owns w₁ henv => ?_
  obtain ⟨hr, hsame⟩ := henv
  subst w₁
  rw [← hr] at hmine
  cases owns with
  | true => exact moved_reallocArena hw hb hmine bytes
  | false =>
    refine hooks_bind (hooks_passesThrough bytes) fun through w₁ hsame => ?_
    subst w₁
    cases through with
    | true => exact hreal hmine
    | false =>
      simp only [Bool.false_eq_true, if_false]
      split
      · exact hreal hmine
      · exact moved_reallocReal hw hb hmine bytes

end Programs

/-! ## Runs -/

section Runs

open BlockHeap

def HookCall.Spec (h : BlockHeap Owner Byte) (c : HookCall) (r : ℕ) (h' : BlockHeap Owner Byte) :
    Prop :=
  match c with
  | .malloc bytes => if r = 0 then Same h h' else Issues h r bytes h'
  | .calloc count size =>
    if r = 0 then Same h h'
    else Issues h r (count * size) h' ∧ ∀ i < count * size, h'.mem (r + i) = 0
  | .realloc p bytes =>
    if p = 0 then if r = 0 then Same h h' else Issues h r bytes h'
    else if bytes = 0 then r = 0 ∧ Releases h p h'
    else if r = 0 then Same h h' else Moves h p r bytes h'
  | .free p => if p = 0 then Same h h' else Releases h p h'
  | .msize p => Same h h' ∧ ∃ b, h.blocks p = some b ∧ b.size ≤ r ∧ r ≤ b.usable
  | .store addr v => h'.blocks = h.blocks ∧ h'.mem = Function.update h.mem addr v

theorem HookCall.hooks_exec (hw : w.Fine R) (c : HookCall) (hc : c.Valid w) :
    Hooks R (c.exec config) w fun r w' => w'.Fine R ∧ c.Spec w.heap r w'.heap := by
  cases c with
  | malloc bytes => exact gave_hookedMalloc hw bytes
  | calloc count size =>
    apply hooks_mono (cleared_hookedCalloc hw count size)
    rintro r w' ⟨⟨hw', hgave⟩, hzero⟩
    refine ⟨hw', ?_⟩
    simp only [Spec]
    split
    next hr => rwa [if_pos hr] at hgave
    next hr =>
      rw [if_neg hr] at hgave
      exact ⟨hgave, hzero hr⟩
  | realloc p bytes =>
    by_cases h₀ : p = 0
    · subst h₀
      exact gave_hookedMalloc hw bytes
    · obtain ⟨b, hb⟩ := hc.resolve_left h₀
      by_cases hbytes : bytes = 0
      · subst hbytes
        simp only [Spec, h₀, if_false, if_true, exec, Hook.hookedRealloc]
        refine hooks_bind (releases_hookedFree hw hc) fun _ w' h => hooks_pure ?_
        exact ⟨h.1, rfl, h.2⟩
      · simp only [Spec, h₀, hbytes, if_false]
        exact moved_hookedRealloc hw hb hbytes
  | free p =>
    apply hooks_bind (releases_hookedFree hw hc)
    rintro _ w' ⟨hw', hrel⟩
    refine hooks_pure ⟨hw', ?_⟩
    simp only [Spec]
    split
    next h₀ =>
      subst h₀
      exact hrel.same hw.wellFormed.null
    next => exact hrel
  | msize p =>
    obtain ⟨b, hb⟩ := hc
    apply hooks_mono (hooks_hookedMsize hw hb)
    rintro r w' ⟨rfl, rfl⟩
    exact ⟨hw, .refl, b, hb, hw.wellFormed.size_le p b hb, le_rfl⟩
  | store addr v =>
    refine hooks_do hc fun _ w' henv => hooks_pure ?_
    subst w'
    exact ⟨hw.written _, rfl, rfl⟩

/-- A call of the application, with a pointer that it may pass. -/
def HookCall.Steps (R : HookRegion) (config : HookConfig) (w : HookWorld) (c : HookCall) (r : ℕ)
    (w' : HookWorld) : Prop :=
  c.Valid w ∧ Runs (hookEnv R) (c.exec config) w (.ok r) w'

def HookWorld.start (mem : ℕ → Byte) : HookWorld := { mem := mem }

theorem HookWorld.fine_start (R : HookRegion) (mem : ℕ → Byte) : (HookWorld.start mem).Fine R :=
  ⟨nofun, fun p b h => by simp [HookWorld.start] at h⟩

/-- In every state that a program can reach through the hooks its blocks are large enough and do
not overlap. Every call gives each allocator only its own blocks, touches only live blocks, and
does to the blocks of the program what the allocator it stands in for should do. -/
theorem malloc_hooks_transparent (R : HookRegion) (config : HookConfig) (mem : ℕ → Byte)
    {tr : List (HookCall × ℕ)} {w : HookWorld}
    (hrun : Allowed (HookCall.Steps R config) (HookWorld.start mem) tr w) :
    w.blocks.WellFormed ∧
    ∀ c : HookCall, c.Valid w →
      Always (hookEnv R) HookOp.InOrder (c.exec config) w ∧
      ∀ out w', Runs (hookEnv R) (c.exec config) w out w' →
        ∃ r, out = .ok r ∧ c.Spec w.heap r w'.heap := by
  have hw : w.Fine R := by
    refine hrun.invariant (P := fun _ => True) ?_ (fun _ _ => trivial) (HookWorld.fine_start R mem)
    rintro w c r w' - hw ⟨hc, hrun⟩
    obtain ⟨-, hpost⟩ := wp_iff.mp (c.hooks_exec hw hc)
    obtain ⟨r, -, hw', -⟩ := hpost _ _ hrun
    exact hw'
  refine ⟨hw.wellFormed, fun c hc => ?_⟩
  obtain ⟨hsafe, hpost⟩ := wp_iff.mp (c.hooks_exec hw hc)
  refine ⟨hsafe, fun out w' hrun => ?_⟩
  obtain ⟨r, rfl, -, hspec⟩ := hpost out w' hrun
  exact ⟨r, rfl, hspec⟩

/-- A block of eight bytes is redirected to a small arena. It may then be moved. -/
theorem malloc_hooks_transparent_redirected :
    ∃ w, Allowed (HookCall.Steps ⟨16, 32, by decide⟩ ⟨true, 4, true⟩) (.start fun _ => 1)
        [(.malloc 8, 16)] w ∧
      (HookCall.realloc 16 12).Valid w ∧ w.blocks.WellFormed ∧
      Always (hookEnv ⟨16, 32, by decide⟩) HookOp.InOrder
        ((HookCall.realloc 16 12).exec ⟨true, 4, true⟩) w := by
  have hmalloc : HookCall.Steps ⟨16, 32, by decide⟩ ⟨true, 4, true⟩ (.start fun _ => 1) (.malloc 8)
      16 _ :=
    ⟨trivial, false, _, rfl, true, _, .inr ⟨rfl, rfl, rfl⟩, 16, _, ⟨_, rfl, rfl, rfl⟩, rfl, rfl⟩
  have hrun := Allowed.cons hmalloc (.nil _)
  obtain ⟨hwf, hcalls⟩ := malloc_hooks_transparent _ _ _ hrun
  refine ⟨_, hrun, ?_, hwf, (hcalls _ ?_).1⟩ <;> exact .inr ⟨⟨.arena, 8, 8⟩, by decide⟩

end Runs

end MemInfo
