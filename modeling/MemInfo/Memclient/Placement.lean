import Mathlib.Data.List.Pairwise
import MemInfo.Memclient.Peers

/-! # Blocks on the peers

A block that is not cached is in one piece on a peer or in consecutive stripes on several.
Placing, reading, writing and freeing such a block, among peers that answer.
-/

namespace MemInfo

open Lib Prog MemoryClient

/-- The stripes follow each other from `lo` to `hi`, and none is empty. -/
def Consecutive : ℕ → List Stripe → ℕ → Prop
  | lo, [], hi => lo = hi
  | lo, x :: xs, hi => x.offset = lo ∧ 0 < x.length ∧ Consecutive (lo + x.length) xs hi

namespace Consecutive

variable {lo mid hi : ℕ} {x y : Stripe} {xs ys : List Stripe}

theorem le (h : Consecutive lo xs hi) : lo ≤ hi := by
  induction xs generalizing lo with
  | nil => exact Nat.le_of_eq h
  | cons x xs ih => exact Nat.le_trans (Nat.le_add_right _ _) (ih h.2.2)

theorem snoc (h : Consecutive lo xs hi) (ho : x.offset = hi) (hx : 0 < x.length) :
    Consecutive lo (xs ++ [x]) (hi + x.length) := by
  induction xs generalizing lo with
  | nil =>
    obtain rfl : lo = hi := h
    exact ⟨ho, hx, rfl⟩
  | cons y xs ih => exact ⟨h.1, h.2.1, ih h.2.2⟩

theorem bounds (h : Consecutive lo xs hi) (hx : x ∈ xs) :
    lo ≤ x.offset ∧ x.offset + x.length ≤ hi := by
  induction xs generalizing lo with
  | nil => cases hx
  | cons y xs ih =>
    obtain ⟨rfl, -, h⟩ := h
    rcases List.mem_cons.mp hx with rfl | hx
    · exact ⟨Nat.le_refl _, h.le⟩
    · exact ⟨Nat.le_trans (Nat.le_add_right _ _) (ih h hx).1, (ih h hx).2⟩

theorem disjoint (h : Consecutive lo xs hi) (hx : x ∈ xs) (hy : y ∈ xs) (hne : x ≠ y) :
    x.offset + x.length ≤ y.offset ∨ y.offset + y.length ≤ x.offset := by
  induction xs generalizing lo with
  | nil => cases hx
  | cons z xs ih =>
    obtain ⟨rfl, -, h⟩ := h
    rcases List.mem_cons.mp hx with hxz | hx'
    · rcases List.mem_cons.mp hy with hyz | hy'
      · exact absurd (hxz.trans hyz.symm) hne
      · exact .inl (hxz ▸ (h.bounds hy').1)
    · rcases List.mem_cons.mp hy with hyz | hy'
      · exact .inr (hyz ▸ (h.bounds hx').1)
      · exact ih h hx' hy'

end Consecutive

/-- The block `bs` is where the allocation says. -/
structure Placed (w : Peers) (a : RemoteAllocation) (bs : List Byte) : Prop where
  size : a.size = bs.length
  consecutive : Consecutive 0 a.parts bs.length
  nodup : a.refs.Nodup
  joined : ∀ x ∈ a.parts, x.peer ∈ w.joined
  stored : ∀ x ∈ a.parts, w.store x.ref = some (slice bs x.offset x.length)

structure Reserved (st : Stores) (xs : List Stripe) (st' : Stores) : Prop where
  nodup : (xs.map Stripe.ref).Nodup
  fresh : ∀ x ∈ xs, st x.ref = none
  zeros : ∀ x ∈ xs, st' x.ref = some (List.replicate x.length 0)
  others : ∀ r, r ∉ xs.map Stripe.ref → st' r = st r

section Allocation

variable {maxPayload size p remaining currentOffset : ℕ} {s : Client × Peers} {st st' : Stores}
  {candidates : List ℕ} {x : Stripe} {xs : List Stripe}

theorem Reserved.nil (st : Stores) : Reserved st [] st :=
  ⟨List.nodup_nil, nofun, nofun, fun _ _ => rfl⟩

theorem Reserved.snoc (h : Reserved st xs st') (hx : st' x.ref = none) :
    Reserved st (xs ++ [x])
      (Function.update st' x.ref (some (List.replicate x.length 0))) := by
  have hnew : x.ref ∉ xs.map Stripe.ref := by
    intro hm
    obtain ⟨y, hy, he⟩ := List.mem_map.mp hm
    rw [← he, h.zeros y hy] at hx
    cases hx
  constructor
  · rw [List.map_append, List.map_singleton]
    exact List.Nodup.append h.nodup (List.nodup_singleton _) (by simpa using hnew)
  · intro y hy
    rcases List.mem_append.mp hy with hy | hy
    · exact h.fresh y hy
    · obtain rfl := List.mem_singleton.mp hy
      rw [← h.others _ hnew, hx]
  · intro y hy
    rcases List.mem_append.mp hy with hy | hy
    · have hne : y.ref ≠ x.ref := fun he => hnew (he ▸ List.mem_map_of_mem hy)
      rw [Function.update_of_ne hne, h.zeros y hy]
    · obtain rfl := List.mem_singleton.mp hy
      rw [Function.update_self]
  · intro r hr
    rw [List.map_append, List.mem_append, not_or] at hr
    rw [Function.update_of_ne (by simpa using hr.2), h.others r hr.1]

theorem ensures_allocateSingle {Q : Outcome Err (Option (ℕ × ℕ)) → Client × Peers → Prop}
    (hpos : 0 < size) (hc : ∀ p ∈ candidates, p ∈ s.2.joined)
    (hnone : ∀ s', Kept s s' → s'.2.store = s.2.store → Q (.ok none) s')
    (hsome : ∀ p remoteHandle s', Kept s s' → p ∈ s'.2.joined →
      Reserved s.2.store [⟨remoteHandle, 0, size, p⟩] s'.2.store →
      Q (.ok (some (p, remoteHandle))) s') :
    Ensures maxPayload (allocateSingle size candidates) Q s := by
  induction candidates generalizing s with
  | nil => exact hnone s (.refl s) rfl
  | cons p candidates ih =>
    have hrest {s₁ : Client × Peers} (hk : Kept s s₁) (hs : s₁.2.store = s.2.store) :
        Ensures maxPayload (allocateSingle size candidates) Q s₁ := by
      refine ih (fun q hq => hk.joined (hc q (List.mem_cons_of_mem _ hq))) ?_ ?_
      · exact fun s' hk' hs' => hnone s' (hk.trans hk') (hs'.trans hs)
      · exact fun q rh s' hk' hq hr => hsome q rh s' (hk.trans hk') hq (hs ▸ hr)
    refine ensures_net_bind fun r w ⟨hj, he, _⟩ => ?_
    have hk : Kept s (s.1, w) := ⟨⟨_, rfl⟩, hj⟩
    split_ifs
    · refine wp_bind.mpr (ensures_tryAlloc (hj (hc p List.mem_cons_self)) hpos ?_ ?_)
      · exact fun s' hk' hs' => hrest (hk.trans hk') (hs'.trans he)
      · intro rh s' hk' hfree hs'
        apply hsome p rh s' (hk.trans hk') (hk'.joined (hj (hc p List.mem_cons_self)))
        simp only [he] at hs' hfree
        rw [hs']
        exact (Reserved.nil s.2.store).snoc (x := ⟨rh, 0, size, p⟩) hfree
    · exact hrest hk he

theorem ensures_allocateStripes {Q : Outcome Err (List Stripe × ℕ) → Client × Peers → Prop}
    (hc : ∀ p ∈ candidates, p ∈ s.2.joined) (hr : Reserved st xs s.2.store)
    (hx : Consecutive 0 xs currentOffset) (hj : ∀ x ∈ xs, x.peer ∈ s.2.joined)
    (h : ∀ xs' remaining' s', Kept s s' → Reserved st xs' s'.2.store →
      remaining' ≤ remaining → Consecutive 0 xs' (currentOffset + remaining - remaining') →
      (∀ x ∈ xs', x.peer ∈ s'.2.joined) → Q (.ok (xs', remaining')) s') :
    Ensures maxPayload (allocateStripes candidates remaining currentOffset xs) Q s := by
  induction candidates generalizing s remaining currentOffset xs with
  | nil => exact h xs remaining s (.refl s) hr (Nat.le_refl _) (by simpa using hx) hj
  | cons p candidates ih =>
    unfold allocateStripes
    split_ifs with hrem
    · exact h xs remaining s (.refl s) hr (Nat.le_refl _) (by simpa using hx) hj
    apply ensures_net_bind
    rintro peer w ⟨hjw, he, -⟩
    have hk : Kept s (s.1, w) := ⟨⟨_, rfl⟩, hjw⟩
    have hp := hjw (hc p List.mem_cons_self)
    have hle : peer.chunkSize remaining ≤ remaining := by
      unfold RemotePeer.chunkSize
      split_ifs <;> omega
    -- the peer takes nothing
    have hskip {s₁ : Client × Peers} (hk : Kept s s₁) (hs : s₁.2.store = s.2.store) :
        Ensures maxPayload (allocateStripes candidates remaining currentOffset xs) Q s₁ := by
      refine ih (fun q hq => hk.joined (hc q (List.mem_cons_of_mem _ hq))) (hs.symm ▸ hr) hx
        (fun x hx => hk.joined (hj x hx)) ?_
      exact fun xs' rem' s' hk' => h xs' rem' s' (hk.trans hk')
    dsimp only
    split_ifs with hzero
    · exact hskip hk he
    refine wp_bind.mpr (ensures_tryAlloc hp (Nat.pos_of_ne_zero hzero) ?_ ?_)
    · exact fun s' hk' hs' => hskip (hk.trans hk') (hs'.trans he)
    · intro rh s' hk' hfree hs'
      have hk'' := hk.trans hk'
      simp only [he] at hs' hfree
      refine ih (fun q hq => hk''.joined (hc q (List.mem_cons_of_mem _ hq))) ?_
        (hx.snoc (x := ⟨rh, currentOffset, _, p⟩) rfl (Nat.pos_of_ne_zero hzero)) ?_ ?_
      · exact hs' ▸ hr.snoc (x := ⟨rh, currentOffset, _, p⟩) hfree
      · intro y hy
        rcases List.mem_append.mp hy with hy | hy
        · exact hk''.joined (hj y hy)
        · obtain rfl := List.mem_singleton.mp hy
          exact hk'.joined hp
      · intro xs' rem' s'' hk₂ hr' hle' hx'
        apply h xs' rem' s'' (hk''.trans hk₂) hr' (Nat.le_trans hle' (Nat.sub_le _ _))
        rwa [Nat.add_assoc, Nat.add_sub_cancel' hle] at hx'

/-- The blocks of the stripes are gone, and nothing else has changed. -/
def Freed (st : Stores) (refs : List Ref) (st' : Stores) : Prop :=
  ∀ r, st' r = if r ∈ refs then none else st r

theorem Freed.undo (h : Reserved st xs st') {st'' : Stores}
    (hf : Freed st' (xs.map Stripe.ref) st'') : st'' = st := by
  ext1 r
  rw [hf r]
  split_ifs with hr
  · obtain ⟨x, hx, rfl⟩ := List.mem_map.mp hr
    exact (h.fresh x hx).symm
  · exact h.others r hr

theorem ensures_freeStripes {Q : Outcome Err Unit → Client × Peers → Prop}
    (hj : ∀ x ∈ xs, x.peer ∈ s.2.joined)
    (h : ∀ s', Kept s s' → Freed s.2.store (xs.map Stripe.ref) s'.2.store → Q (.ok ()) s') :
    Ensures maxPayload (freeStripes xs) Q s := by
  induction xs generalizing s with
  | nil => exact h s (.refl s) fun r => by simp
  | cons x xs ih =>
    refine wp_bind.mpr (ensures_tryRelease (hj x List.mem_cons_self) fun s₁ hk hs => ?_)
    change s₁.2.store = Function.update s.2.store x.ref none at hs
    refine ih (fun y hy => hk.joined (hj y (List.mem_cons_of_mem _ hy))) fun s' hk' hf => ?_
    refine h s' (hk.trans hk') fun r => ?_
    rw [hf r, hs, Function.update_apply]
    by_cases hx : r = x.ref
    · rw [if_pos hx, ite_self, if_pos (hx ▸ List.mem_cons_self)]
    · rw [if_neg hx, List.map_cons]
      simp only [List.mem_cons, hx, false_or]

theorem ensures_freeRemote {a : RemoteAllocation} {Q : Outcome Err Unit → Client × Peers → Prop}
    (hj : ∀ x ∈ a.parts, x.peer ∈ s.2.joined)
    (h : ∀ s', Kept s s' → Freed s.2.store a.refs s'.2.store → Q (.ok ()) s') :
    Ensures maxPayload (freeRemote a) Q s := by
  unfold RemoteAllocation.refs at h
  unfold RemoteAllocation.parts at hj h
  unfold freeRemote
  split_ifs at hj h ⊢
  · exact ensures_freeStripes hj h
  · cases hp : a.peer with
    | none => exact h s (.refl s) fun r => by simp [hp]
    | some p =>
      have hpj : p ∈ s.2.joined := hj ⟨a.remoteHandle, 0, a.size, p⟩ (by simp [hp])
      refine ensures_tryRelease hpj fun s' hk hs => h s' hk fun r => ?_
      simp [hp, hs, Function.update_apply, Stripe.ref]

theorem ensures_place {Q : Outcome Err (Option RemoteAllocation) → Client × Peers → Prop}
    (hpos : 0 < size) (hc : ∀ p ∈ candidates, p ∈ s.2.joined)
    (hnone : ∀ s', Kept s s' → s'.2.store = s.2.store → Q (.ok none) s')
    (hsome : ∀ a s', Kept s s' → a.size = size → Reserved s.2.store a.parts s'.2.store →
      Consecutive 0 a.parts size → (∀ x ∈ a.parts, x.peer ∈ s'.2.joined) → Q (.ok (some a)) s') :
    Ensures maxPayload (place size candidates) Q s := by
  refine wp_bind.mpr (ensures_allocateSingle hpos hc ?_ ?_)
  swap
  · intro p rh s' hk hp hr
    exact hsome { size, remoteHandle := rh, peer := some p } s' hk rfl hr
      ⟨rfl, hpos, by simp [Consecutive]⟩
      (by simpa [RemoteAllocation.parts] using hp)
  intro s₁ hk₁ hs₁
  dsimp only [andThen]
  split_ifs
  swap
  · exact hnone s₁ hk₁ hs₁
  have hnil : Reserved s.2.store [] s₁.2.store := hs₁ ▸ Reserved.nil _
  refine wp_bind.mpr (ensures_allocateStripes (fun p hp => hk₁.joined (hc p hp)) hnil rfl nofun ?_)
  intro xs rem s₂ hk₂ hr hle hx hj
  have hk := hk₁.trans hk₂
  dsimp only [andThen, joinStripes]
  split_ifs with hdone hne
  · obtain ⟨rfl, -⟩ := hdone
    rw [Nat.zero_add, Nat.sub_zero] at hx
    exact hsome { size, stripes := xs, isStriped := true } s₂ hk rfl hr hx hj
  · refine wp_bind.mpr (ensures_freeRemote hj fun s' hk' hf => ?_)
    exact hnone s' (hk.trans hk') (Freed.undo hr hf)
  · obtain rfl : xs = [] := by simpa using hne
    exact hnone s₂ hk (funext fun r => hr.others r (by simp))

theorem Reserved.placed {a : RemoteAllocation} {w : Peers} (hr : Reserved st a.parts w.store)
    (hs : a.size = size) (hx : Consecutive 0 a.parts size) (hj : ∀ x ∈ a.parts, x.peer ∈ w.joined) :
    Placed w a (List.replicate size 0) := by
  refine ⟨by simpa using hs, by simpa using hx, hr.nodup, hj, fun x hm => ?_⟩
  have hle := (hx.bounds hm).2
  rw [hr.zeros x hm, slice, List.drop_replicate, List.take_replicate]
  congr 2
  omega

end Allocation

section Access

variable {maxPayload offset size : ℕ} {s : Client × Peers} {w : Peers} {a : RemoteAllocation}
  {bs data : List Byte} {x : Stripe} {xs : List Stripe}

theorem Placed.mono {w' : Peers} (h : Placed w a bs) (hj : w.joined ⊆ w'.joined)
    (hs : ∀ r ∈ a.refs, w'.store r = w.store r) : Placed w' a bs :=
  ⟨h.size, h.consecutive, h.nodup, fun x hx => hj (h.joined x hx),
    fun x hx => (hs _ (List.mem_map_of_mem hx)).trans (h.stored x hx)⟩

theorem Placed.write {w' : Peers} {pos : ℕ} (h : Placed w a bs) (hx : x ∈ a.parts)
    (hlo : x.offset ≤ pos) (hhi : pos + data.length ≤ x.offset + x.length)
    (hj : w.joined ⊆ w'.joined) (hs : w'.store = Function.update w.store x.ref
      (some (splice (slice bs x.offset x.length) (pos - x.offset) data))) :
    Placed w' a (splice bs pos data) := by
  have hb := (h.consecutive.bounds hx).2
  have hlen : (splice bs pos data).length = bs.length := length_splice (by omega)
  refine ⟨h.size.trans hlen.symm, hlen.symm ▸ h.consecutive, h.nodup,
    fun y hy => hj (h.joined y hy), fun y hy => ?_⟩
  rw [hs]
  by_cases hxy : y = x
  · subst hxy
    rw [Function.update_self, slice_splice_inside hlo hhi hb]
  · have hne : y.ref ≠ x.ref := fun he => hxy (List.inj_on_of_nodup_map h.nodup hy hx he)
    have hd := h.consecutive.disjoint hx hy (Ne.symm hxy)
    rw [Function.update_of_ne hne, h.stored y hy, slice_splice_outside (by omega) (by omega)]

theorem ensures_writePass {Q : Outcome Err ℕ → Client × Peers → Prop} {lo done : ℕ}
    (hsub : xs ⊆ a.parts) (hx : Consecutive lo xs bs.length)
    (hp : Placed s.2 a (splice bs offset (data.take done)))
    (hlo : done < data.length → lo ≤ offset + done) (hdone : done ≤ data.length)
    (hle : offset + data.length ≤ bs.length) (hlt : bs.length < 2 ^ 64)
    (hfit : data.length ≤ maxPayload)
    (h : ∀ s', Kept s s' → Placed s'.2 a (splice bs offset data) →
      (∀ r ∉ a.refs, s'.2.store r = s.2.store r) → Q (.ok data.length) s') :
    Ensures maxPayload (writePass offset data xs done) Q s := by
  induction xs generalizing s lo done with
  | nil =>
    obtain rfl : lo = bs.length := hx
    obtain rfl : done = data.length := by omega
    rw [List.take_length] at hp
    exact h s (.refl s) hp fun _ _ => rfl
  | cons x xs ih =>
    have hxa := hsub List.mem_cons_self
    obtain ⟨rfl, -, hx⟩ := hx
    have hxe := hx.le
    unfold writePass
    split_ifs with hge hcov
    · obtain rfl : done = data.length := Nat.le_antisymm hdone hge
      rw [List.take_length] at hp
      exact h s (.refl s) hp fun _ _ => rfl
    · have hlen : (splice bs offset (data.take done)).length = bs.length :=
        length_splice (by rw [List.length_take]; omega)
      rw [Covers, wrap_of_lt (by omega), wrap_of_lt (by omega)] at hcov
      rw [wrap_of_lt (by omega)]
      dsimp only
      obtain ⟨n, hn⟩ : ∃ n, n = min (data.length - done) (x.length - (offset + done - x.offset)) :=
        ⟨_, rfl⟩
      rw [← hn]
      have hchunk : (slice data done n).length = n := by rw [length_slice]; omega
      have hpart := hp.stored x hxa
      have hplen :
          (slice (splice bs offset (data.take done)) x.offset x.length).length = x.length := by
        rw [length_slice, hlen]
        omega
      refine wp_bind.mpr (wp_tryCatch.mpr (ensures_store (hp.joined x hxa)
        (List.length_pos_iff.mp (by omega)) (by omega) hpart (by omega) fun s₁ hk hs => ?_))
      have hp₁ := hp.write hxa hcov.1 (by omega) hk.joined hs
      rw [splice_splice_slice hle (by omega)] at hp₁
      refine ih (fun y hy => hsub (List.mem_cons_of_mem _ hy)) hx hp₁ (fun _ => by omega) (by omega)
        fun s' hk' hp' hs' => h s' (hk.trans hk') hp' fun r hr => ?_
      have hne : r ≠ x.ref := fun he => hr (he ▸ List.mem_map_of_mem hxa)
      rw [hs' r hr, hs]
      exact Function.update_of_ne hne _ _
    · rw [Covers, wrap_of_lt (by omega), wrap_of_lt (by omega)] at hcov
      exact ih (fun y hy => hsub (List.mem_cons_of_mem _ hy)) hx hp (fun _ => by omega) hdone h

theorem RemoteAllocation.parts_striped (hs : a.isStriped = true) : a.parts = a.stripes := if_pos hs

theorem RemoteAllocation.parts_single (a : RemoteAllocation) (hs : ¬ a.isStriped)
    (hx : Consecutive 0 a.parts a.size) (hpos : 0 < a.size) :
    ∃ p, a.peer = some p ∧ a.parts = [⟨a.remoteHandle, 0, a.size, p⟩] := by
  simp only [RemoteAllocation.parts, hs] at hx ⊢
  cases hp : a.peer with
  | none =>
    simp only [hp, Option.toList_none, List.map_nil] at hx
    exact absurd hx (Nat.ne_of_lt hpos)
  | some p => exact ⟨p, rfl, rfl⟩

theorem Placed.single (hp : Placed w a bs) (hpos : 0 < bs.length) (hs : ¬ a.isStriped) :
    ∃ p, a.peer = some p ∧ a.parts = [⟨a.remoteHandle, 0, bs.length, p⟩] := by
  rw [← hp.size] at hpos ⊢
  exact a.parts_single hs (hp.size.symm ▸ hp.consecutive) hpos

theorem ensures_requirePeer {Q : Outcome Err ℕ → Client × Peers → Prop} {p : ℕ}
    (hp : a.peer = some p) (hj : p ∈ s.2.joined)
    (h : ∀ s', Kept s s' → s'.2.store = s.2.store → Q (.ok p) s') :
    Ensures maxPayload (requirePeer a) Q s := by
  rw [requirePeer, hp]
  refine ensures_net_bind fun r w ⟨hjw, he, hc⟩ => ?_
  rw [if_pos (hc hj)]
  exact h _ ⟨⟨_, rfl⟩, hjw⟩ he

theorem ensures_writeRemote {Q : Outcome Err Unit → Client × Peers → Prop}
    (hp : Placed s.2 a bs) (hd : data ≠ []) (hle : offset + data.length ≤ bs.length)
    (hlt : bs.length < 2 ^ 64) (hfit : data.length ≤ maxPayload)
    (h : ∀ s', Kept s s' → Placed s'.2 a (splice bs offset data) →
      (∀ r ∉ a.refs, s'.2.store r = s.2.store r) → Q (.ok ()) s') :
    Ensures maxPayload (writeRemote a offset data) Q s := by
  have hpos : 0 < data.length := List.length_pos_iff.mpr hd
  unfold writeRemote
  split_ifs with hs
  · have hparts : a.parts = a.stripes := by rw [RemoteAllocation.parts, if_pos hs]
    have hsub : a.stripes ⊆ a.parts := hparts ▸ List.Subset.refl _
    -- the first pass writes everything, and the second ends the loop
    rw [writePasses, if_pos hpos]
    refine wp_bind.mpr (ensures_writePass hsub (hparts ▸ hp.consecutive) (by simpa using hp)
      (fun _ => Nat.zero_le _) (Nat.zero_le _) hle hlt hfit fun s' hk hp' hs' => ?_)
    dsimp only [andThen]
    rw [writePasses_done offset data a.stripes hpos]
    exact h s' hk hp' hs'
  · obtain ⟨p, hpeer, hparts⟩ := hp.single (by omega) hs
    have hx : (⟨a.remoteHandle, 0, bs.length, p⟩ : Stripe) ∈ a.parts := by simp [hparts]
    refine wp_bind.mpr (ensures_requirePeer hpeer (hp.joined _ hx) fun s₁ hk₁ hs₁ => ?_)
    have hp₁ : Placed s₁.2 a bs := hp.mono hk₁.joined fun r _ => congrFun hs₁ r
    have hall : slice bs 0 bs.length = bs := by simp [slice]
    have hst := hp₁.stored _ hx
    refine ensures_store (hp₁.joined _ hx) hd hfit hst (by simpa [hall] using hle)
      fun s' hk' hs' => ?_
    apply h s' (hk₁.trans hk') (hp₁.write hx (Nat.zero_le _) (by simpa using hle) hk'.joined hs')
    intro r hr
    have hne : r ≠ Stripe.ref ⟨a.remoteHandle, 0, bs.length, p⟩ := by
      rintro rfl
      exact hr (List.mem_map_of_mem hx)
    rw [hs', hs₁]
    exact Function.update_of_ne hne _ _

theorem ensures_releaseAfter {Q : Outcome Err Unit → Client × Peers → Prop} {p remoteHandle : ℕ}
    (rel : Bool) (hp : p ∈ s.2.joined)
    (h : ∀ s', Kept s s' → (rel = false → s'.2.store = s.2.store) →
      (∀ r ≠ (p, remoteHandle), s'.2.store r = s.2.store r) → Q (.ok ()) s') :
    Ensures maxPayload (releaseAfter rel p remoteHandle) Q s := by
  unfold releaseAfter
  split_ifs with hr
  · refine ensures_release hp fun s' hk hs => h s' hk (by simp [hr]) fun r hne => ?_
    rw [hs, Function.update_of_ne hne]
  · exact h s (.refl s) (fun _ => rfl) fun _ _ => rfl

theorem ensures_readStripe {Q : Outcome Err (List Byte) → Client × Peers → Prop} {n done : ℕ}
    (rel : Bool) (hj : x.peer ∈ s.2.joined)
    (hst : s.2.store x.ref = some (slice bs x.offset x.length)) (hlo : x.offset ≤ offset + done)
    (hhi : offset + done + n ≤ x.offset + x.length) (hxe : x.offset + x.length ≤ bs.length)
    (hpos : 0 < n) (hn : done + n ≤ size) (hle : offset + size ≤ bs.length)
    (hfit : size ≤ maxPayload)
    (h : ∀ s', Kept s s' → (rel = false → s'.2.store = s.2.store) →
      (∀ r ≠ x.ref, s'.2.store r = s.2.store r) →
      Q (.ok (slice bs offset (done + n) ++ List.replicate (size - (done + n)) 0)) s') :
    Ensures maxPayload (readStripe x (offset + done - x.offset) n rel
      (slice bs offset done ++ List.replicate (size - done) 0) done) Q s := by
  have hplen : (slice bs x.offset x.length).length = x.length := by rw [length_slice]; omega
  have hres : (slice bs offset done ++ List.replicate (size - done) (0 : Byte)).length = size := by
    rw [List.length_append, length_slice, List.length_replicate]
    omega
  have hchunk : slice (slice bs x.offset x.length) (offset + done - x.offset) n =
      slice bs (offset + done) n := by
    rw [slice_slice (by omega), Nat.add_sub_cancel' hlo]
  have hclen : (slice bs (offset + done) n).length = n := by rw [length_slice]; omega
  refine wp_bind.mpr (ensures_fetch hj hpos (by omega) hst (by omega) fun s₁ hk₁ hs₁ => ?_)
  dsimp only [andThen]
  rw [hchunk, if_neg (by omega)]
  refine wp_bind.mpr (ensures_releaseAfter rel (hk₁.joined hj) fun s' hk hs hs' => ?_)
  dsimp only [andThen]
  rw [splice_fill 0 hle hn]
  exact h s' (hk₁.trans hk) (fun hr => (hs hr).trans hs₁)
    fun r hr => (hs' r hr).trans (congrFun hs₁ r)

theorem ensures_readPass {Q : Outcome Err (List Byte × ℕ) → Client × Peers → Prop} {lo done : ℕ}
    (rel : Bool) (hx : Consecutive lo xs bs.length) (hnd : (xs.map Stripe.ref).Nodup)
    (hj : ∀ x ∈ xs, x.peer ∈ s.2.joined)
    (hst : ∀ x ∈ xs, s.2.store x.ref = some (slice bs x.offset x.length))
    (hlo : done < size → lo ≤ offset + done) (hdone : done ≤ size)
    (hle : offset + size ≤ bs.length) (hlt : bs.length < 2 ^ 64) (hfit : size ≤ maxPayload)
    (h : ∀ s', Kept s s' → (rel = false → s'.2.store = s.2.store) →
      (∀ r ∉ xs.map Stripe.ref, s'.2.store r = s.2.store r) →
      Q (.ok (slice bs offset size, size)) s') :
    Ensures maxPayload (readPass offset size rel xs
      (slice bs offset done ++ List.replicate (size - done) 0) done) Q s := by
  induction xs generalizing s lo done with
  | nil =>
    obtain rfl : lo = bs.length := hx
    obtain rfl : done = size := by omega
    rw [Nat.sub_self, List.replicate_zero, List.append_nil]
    exact h s (.refl s) (fun _ => rfl) fun _ _ => rfl
  | cons x xs ih =>
    obtain ⟨rfl, -, hx⟩ := hx
    have hxe := hx.le
    rw [List.map_cons, List.nodup_cons] at hnd
    unfold readPass
    split_ifs with hge hcov
    · obtain rfl : done = size := Nat.le_antisymm hdone hge
      rw [Nat.sub_self, List.replicate_zero, List.append_nil]
      exact h s (.refl s) (fun _ => rfl) fun _ _ => rfl
    · rw [Covers, wrap_of_lt (by omega), wrap_of_lt (by omega)] at hcov
      rw [wrap_of_lt (by omega)]
      dsimp only
      obtain ⟨n, hn⟩ : ∃ n, n = min (size - done) (x.length - (offset + done - x.offset)) :=
        ⟨_, rfl⟩
      rw [← hn]
      refine wp_bind.mpr (wp_tryCatch.mpr (ensures_readStripe rel (hj x List.mem_cons_self)
        (hst x List.mem_cons_self) hcov.1 (by omega) hxe (by omega) (by omega) hle hfit
        fun s₁ hk₁ hs₁ hs₁' => ?_))
      refine ih hx hnd.2 (fun y hy => hk₁.joined (hj y (List.mem_cons_of_mem _ hy))) ?_
        (fun _ => by omega) (by omega) fun s' hk hs hs' => ?_
      · intro y hy
        have hne : y.ref ≠ x.ref := fun he => hnd.1 (he ▸ List.mem_map_of_mem hy)
        rw [hs₁' _ hne, hst y (List.mem_cons_of_mem _ hy)]
      · refine h s' (hk₁.trans hk) (fun hr => (hs hr).trans (hs₁ hr)) fun r hr => ?_
        rw [List.map_cons, List.mem_cons, not_or] at hr
        rw [hs' r hr.2, hs₁' r hr.1]
    · rw [Covers, wrap_of_lt (by omega), wrap_of_lt (by omega)] at hcov
      refine ih hx hnd.2 (fun y hy => hj y (List.mem_cons_of_mem _ hy))
        (fun y hy => hst y (List.mem_cons_of_mem _ hy)) (fun _ => by omega) hdone
        fun s' hk hs hs' => h s' hk hs fun r hr => ?_
      rw [List.map_cons, List.mem_cons, not_or] at hr
      exact hs' r hr.2

theorem ensures_readRemote {Q : Outcome Err (List Byte) → Client × Peers → Prop} (rel : Bool)
    (hp : Placed s.2 a bs) (hpos : 0 < size) (hle : offset + size ≤ bs.length)
    (hlt : bs.length < 2 ^ 64) (hfit : size ≤ maxPayload)
    (h : ∀ s', Kept s s' → (rel = false → s'.2.store = s.2.store) →
      (∀ r ∉ a.refs, s'.2.store r = s.2.store r) → Q (.ok (slice bs offset size)) s') :
    Ensures maxPayload (readRemote a offset size rel) Q s := by
  unfold readRemote
  split_ifs with hs
  · have hparts : a.parts = a.stripes := by rw [RemoteAllocation.parts, if_pos hs]
    have hempty : List.replicate size (0 : Byte) =
        slice bs offset 0 ++ List.replicate (size - 0) 0 := by simp [slice]
    rw [readPasses, if_pos hpos, hempty]
    refine wp_bind.mpr (ensures_readPass rel (hparts ▸ hp.consecutive) (hparts ▸ hp.nodup)
      (hparts ▸ hp.joined) (hparts ▸ hp.stored) (fun _ => Nat.zero_le _) (Nat.zero_le _) hle hlt
      hfit fun s' hk hs hs' => ?_)
    dsimp only [andThen]
    rw [readPasses_done offset size rel a.stripes _ hpos]
    exact h s' hk hs (by rwa [RemoteAllocation.refs, hparts])
  · obtain ⟨p, hpeer, hparts⟩ := hp.single (by omega) hs
    have hx : (⟨a.remoteHandle, 0, bs.length, p⟩ : Stripe) ∈ a.parts := by simp [hparts]
    have hall : slice bs 0 bs.length = bs := by simp [slice]
    refine wp_bind.mpr (ensures_requirePeer hpeer (hp.joined _ hx) fun s₁ hk₁ hs₁ => ?_)
    have hst := hp.stored _ hx
    rw [hall, ← hs₁] at hst
    refine wp_bind.mpr (ensures_fetch (hk₁.joined (hp.joined _ hx)) hpos hfit hst hle
      fun s₂ hk₂ hs₂ => ?_)
    have hk := hk₁.trans hk₂
    have hs := hs₂.trans hs₁
    refine wp_bind.mpr
      (ensures_releaseAfter rel (hk.joined (hp.joined _ hx)) fun s' hk' hr hr' => ?_)
    refine h s' (hk.trans hk') (fun he => (hr he).trans hs) fun r hne => ?_
    rw [hr' r ?_, hs]
    rintro rfl
    exact hne (List.mem_map_of_mem hx)

end Access

end MemInfo
