import MemInfo.Memclient.Placement

/-! # Blocks in hand

Between the answer to an ALLOC and the entry in `remote_handles_` the client alone knows of
a block. How the search for a place works in any world in which what holds with such blocks
in hand is kept by the requests that the search makes.
-/

namespace MemInfo

open Lib Prog MemoryClient

variable {ν : Type}

/-- Every request of the search for a place keeps what holds with the stripes in hand. A
granted ALLOC of one of the sizes in `Size` adds a stripe, and a FREE gives one up, as does
a peer that is not connected any more. -/
structure Custody (env : (o : Effect) → Client × ν → o.Res → Client × ν → Prop) (Size : ℕ → Prop)
    (Holds : List Stripe → Client × ν → Prop) : Prop where
  size : ∀ {n m}, Size m → 0 < n → n ≤ m → Size n
  requestId : ∀ {xs s r s'}, Holds xs s → env (.mem .nextRequestId) s r s' → Holds xs s'
  ask : ∀ {xs s} {o : NetOp} {r s'}, (∀ p req, o ≠ .call p req) → Holds xs s →
    env (.net o) s r s' → Holds xs s'
  refused : ∀ {xs s p size id s'} {r : CallResult}, Holds xs s → Size size →
    env (.net (.call p (allocRequest size id))) s r s' →
    (∀ resp, r = .response resp → resp.status ≠ .ok) → Holds xs s'
  granted : ∀ {xs s p size id s'} {resp : MemoryResponse}, Holds xs s → Size size →
    env (.net (.call p (allocRequest size id))) s (.response resp) s' → resp.status = .ok →
    ∀ offset, Holds (xs ++ [⟨resp.handle, offset, size, p⟩]) s'
  free : ∀ {xs s id s'} {x : Stripe} {r : CallResult}, Holds (x :: xs) s →
    env (.net (.call x.peer (freeRequest x.remoteHandle id))) s r s' → Holds xs s'
  skip : ∀ {xs s s'} {x : Stripe} {r : RemotePeer}, Holds (x :: xs) s →
    env (.net (.peer x.peer)) s r s' → r.connected = false → Holds xs s'

namespace Custody

variable {env : (o : Effect) → Client × ν → o.Res → Client × ν → Prop} {Size : ℕ → Prop}
  {Holds : List Stripe → Client × ν → Prop} {s : Client × ν} {xs ys : List Stripe} {size : ℕ}

variable (hC : Custody env Size Holds)

include hC

theorem wp_ask_bind {α : Type} {o : NetOp} {f : o.Res → ClientM α}
    {Q : Outcome Err α → Client × ν → Prop} (hh : Holds xs s) (ho : ∀ p req, o ≠ .call p req)
    (h : ∀ r s', Holds xs s' → wp env (fun _ _ => True) (f r) Q s') :
    wp env (fun _ _ => True) (net o >>= f) Q s :=
  ⟨trivial, fun r s' he => h r s' (hC.ask ho hh he)⟩

theorem wp_tryAlloc {p : ℕ} {Q : Outcome Err (Option ℕ) → Client × ν → Prop} (hh : Holds xs s)
    (hsize : Size size) (hnone : ∀ s', Holds xs s' → Q (.ok none) s')
    (hsome : ∀ remoteHandle s', (∀ offset, Holds (xs ++ [⟨remoteHandle, offset, size, p⟩]) s') →
      Q (.ok (some remoteHandle)) s') :
    wp env (fun _ _ => True) (tryAlloc p size) Q s := by
  refine wp_tryCatch.mpr (wp_bind.mpr ⟨trivial, fun id s₁ h₁ => ⟨trivial, fun r s₂ h₂ => ?_⟩⟩)
  have hh₁ := hC.requestId hh h₁
  have hrefused := hC.refused hh₁ hsize h₂
  cases r with
  | timeout => exact hnone s₂ (hrefused nofun)
  | empty => exact hnone s₂ (hrefused nofun)
  | response resp =>
    change wp env _ (if resp.status = .ok then _ else _) _ s₂
    split_ifs with hok
    · exact hsome resp.handle s₂ (hC.granted hh₁ hsize h₂ hok)
    · refine hnone s₂ (hrefused ?_)
      rintro _ ⟨⟩
      exact hok

theorem wp_allocateSingle {candidates : List ℕ}
    {Q : Outcome Err (Option (ℕ × ℕ)) → Client × ν → Prop} (hh : Holds [] s) (hsize : Size size)
    (hnone : ∀ s', Holds [] s' → Q (.ok none) s')
    (hsome : ∀ p remoteHandle s', Holds [⟨remoteHandle, 0, size, p⟩] s' →
      Q (.ok (some (p, remoteHandle))) s') :
    wp env (fun _ _ => True) (allocateSingle size candidates) Q s := by
  induction candidates generalizing s with
  | nil => exact hnone s hh
  | cons p candidates ih =>
    apply hC.wp_ask_bind hh (by nofun)
    intro peer s₁ hh₁
    split_ifs
    · refine wp_bind.mpr (hC.wp_tryAlloc hh₁ hsize (fun s₂ hh₂ => ih hh₂) ?_)
      exact fun remoteHandle s₂ hh₂ => hsome p remoteHandle s₂ (hh₂ 0)
    · exact ih hh₁

theorem wp_allocateStripes {candidates : List ℕ} {remaining currentOffset : ℕ}
    {Q : Outcome Err (List Stripe × ℕ) → Client × ν → Prop} (hh : Holds xs s) (hsize : Size size)
    (hrem : remaining ≤ size) (hx : Consecutive 0 xs currentOffset)
    (h : ∀ xs' remaining' s', Holds xs' s' → remaining' ≤ remaining →
      Consecutive 0 xs' (currentOffset + remaining - remaining') → Q (.ok (xs', remaining')) s') :
    wp env (fun _ _ => True) (allocateStripes candidates remaining currentOffset xs) Q s := by
  induction candidates generalizing s remaining currentOffset xs with
  | nil => exact h xs remaining s hh (Nat.le_refl _) (by simpa using hx)
  | cons p candidates ih =>
    unfold allocateStripes
    split_ifs
    · exact h xs remaining s hh (Nat.le_refl _) (by simpa using hx)
    apply hC.wp_ask_bind hh (by simp)
    intro peer s₁ hh₁
    have hle : peer.chunkSize remaining ≤ remaining := by
      unfold RemotePeer.chunkSize
      split_ifs <;> omega
    dsimp only
    split_ifs with hzero
    · exact ih hh₁ hrem hx h
    have hpos := Nat.pos_of_ne_zero hzero
    have hchunk := hC.size hsize hpos (Nat.le_trans hle hrem)
    refine wp_bind.mpr (hC.wp_tryAlloc hh₁ hchunk ?_ ?_)
    · exact fun s₂ hh₂ => ih hh₂ hrem hx h
    · intro remoteHandle s₂ hh₂
      apply ih (hh₂ currentOffset) (Nat.le_trans (Nat.sub_le _ _) hrem) (hx.snoc rfl hpos)
      intro xs' rem' s' hh' hle' hx'
      apply h xs' rem' s' hh' (Nat.le_trans hle' (Nat.sub_le _ _))
      dsimp only at hx'
      rwa [Nat.add_assoc, Nat.add_sub_cancel' hle] at hx'

theorem wp_tryRelease {x : Stripe} {Q : Outcome Err Unit → Client × ν → Prop}
    (hh : Holds (x :: xs) s) (h : ∀ s', Holds xs s' → Q (.ok ()) s') :
    wp env (fun _ _ => True) (tryRelease x.peer x.remoteHandle) Q s := by
  refine ⟨trivial, fun peer s₁ h₁ => ?_⟩
  change wp env _ (if peer.connected then _ else _) Q s₁
  split_ifs with hcon
  · refine wp_tryCatch.mpr (wp_bind.mpr ⟨trivial, fun id s₂ h₂ => ⟨trivial, fun r s₃ h₃ => ?_⟩⟩)
    have hh₂ := hC.requestId (hC.ask (by nofun) hh h₁) h₂
    have hh₃ := hC.free hh₂ h₃
    cases r <;> exact h s₃ hh₃
  · exact h s₁ (hC.skip hh h₁ (by simpa using hcon))

theorem wp_freeStripes {Q : Outcome Err Unit → Client × ν → Prop} (hh : Holds (xs ++ ys) s)
    (h : ∀ s', Holds ys s' → Q (.ok ()) s') : wp env (fun _ _ => True) (freeStripes xs) Q s := by
  induction xs generalizing s with
  | nil => exact h s hh
  | cons x xs ih => exact wp_bind.mpr (hC.wp_tryRelease hh fun s₁ hh₁ => ih hh₁)

theorem wp_freeRemote {a : RemoteAllocation} {Q : Outcome Err Unit → Client × ν → Prop}
    (hh : Holds (a.parts ++ ys) s) (h : ∀ s', Holds ys s' → Q (.ok ()) s') :
    wp env (fun _ _ => True) (freeRemote a) Q s := by
  unfold RemoteAllocation.parts at hh
  unfold freeRemote
  split_ifs at hh ⊢
  · exact hC.wp_freeStripes hh h
  · cases hp : a.peer with
    | none =>
      rw [hp] at hh
      exact h s hh
    | some p =>
      rw [hp] at hh
      exact hC.wp_tryRelease hh h

theorem wp_place {candidates : List ℕ}
    {Q : Outcome Err (Option RemoteAllocation) → Client × ν → Prop}
    (hh : Holds [] s) (hsize : Size size) (hnone : ∀ s', Holds [] s' → Q (.ok none) s')
    (hsome : ∀ a s', Holds a.parts s' → a.size = size → (0 < size → Consecutive 0 a.parts size) →
      Q (.ok (some a)) s') :
    wp env (fun _ _ => True) (place size candidates) Q s := by
  refine wp_bind.mpr (hC.wp_allocateSingle hh hsize ?_ ?_)
  swap
  · intro p remoteHandle s' hh'
    exact hsome { size, remoteHandle, peer := some p } s' hh' rfl fun hpos =>
      ⟨rfl, hpos, by simp [Consecutive]⟩
  intro s₁ hh₁
  dsimp only [andThen]
  split_ifs
  swap
  · exact hnone s₁ hh₁
  refine wp_bind.mpr (hC.wp_allocateStripes hh₁ hsize (Nat.le_refl _) rfl ?_)
  intro xs rem s₂ hh₂ hle hx
  dsimp only [andThen, joinStripes]
  split_ifs with hdone hne
  · obtain ⟨rfl, -⟩ := hdone
    rw [Nat.zero_add, Nat.sub_zero] at hx
    exact hsome { size, stripes := xs, isStriped := true } s₂ hh₂ rfl fun _ => hx
  · rw [← List.append_nil xs] at hh₂
    exact wp_bind.mpr (hC.wp_freeStripes hh₂ hnone)
  · obtain rfl := not_not.mp hne
    exact hnone s₂ hh₂

/-- A block gets an entry only with a place in hand. -/
theorem wp_allocateRemote {handle : ℕ} {Q : Outcome Err Unit → Client × ν → Prop}
    (hh : Holds [] s) (hsize : Size size)
    (hok : ∀ a s', Holds a.parts s' → a.size = size → (0 < size → Consecutive 0 a.parts size) →
      wp env (fun _ _ => True) (mem (.remoteInsert handle a)) Q s')
    (hthrow : ∀ e s', Holds [] s' → Q (.threw e) s') :
    wp env (fun _ _ => True) (allocateRemote handle size) Q s := by
  apply wp_bind.mpr
  apply hC.wp_ask_bind hh (by simp)
  intro peers s₁ hh₁
  split_ifs
  · apply hC.wp_ask_bind hh₁ (by simp)
    intro _ s₂ hh₂
    apply hC.wp_ask_bind hh₂ (by simp)
    intro candidates s₃ hh₃
    exact wp_bind.mpr (hC.wp_place hh₃ hsize (hthrow _) hok)
  · apply hC.wp_ask_bind hh₁ (by simp)
    intro candidates s₂ hh₂
    exact wp_bind.mpr (hC.wp_place hh₂ hsize (hthrow _) hok)

end Custody

end MemInfo
