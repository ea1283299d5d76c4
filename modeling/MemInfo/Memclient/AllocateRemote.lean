import MemInfo.Memclient.Traces

/-! # A place for all of a block or for none

`allocate_remote` for any answers of the peers: the block is recorded if and only if all of it
has been acknowledged, and the stripes of a block that does not find a place are given back.
-/

namespace MemInfo

open Lib Prog

theorem Consecutive.sum_length {lo hi : ℕ} {xs : List Stripe} (h : Consecutive lo xs hi) :
    lo + (xs.map Stripe.length).sum = hi := by
  induction xs generalizing lo with
  | nil => exact h
  | cons x xs ih =>
    rw [List.map_cons, List.sum_cons, ← Nat.add_assoc]
    exact ih h.2.2

namespace MemoryClient

def GivenUp (log : Log) (r : Ref) : Prop :=
  r ∈ frees log ∨ ∃ peer : RemotePeer, ⟨.net (.peer r.1), peer⟩ ∈ log ∧ peer.connected = false

def Settled (log : Log) : Prop :=
  ∀ before e after r size, log = before ++ e :: after → ack e = some (r, size) → GivenUp after r

/-- All of a block of `size` bytes has a place that was acknowledged in the log, on one peer or in
stripes on several. -/
def Complete (size : ℕ) (a : RemoteAllocation) (log : Log) : Prop :=
  a.size = size ∧
    if a.isStriped then
      acks log = a.stripes.map (fun x => (x.ref, x.length)) ∧ (a.stripes.map Stripe.peer).Nodup ∧
        Consecutive 0 a.stripes size ∧ (a.stripes.map Stripe.length).sum = size
    else ∃ p, a.peer = some p ∧ acks log = [((p, a.remoteHandle), size)]

structure Search (tr : Log) (granted : List (Ref × ℕ)) : Prop where
  acks : acks tr = granted
  entries : ∀ d, tr.foldl record d = d
  capacity : WithinCapacity tr

section Logs

variable {tr tr₁ tr₂ : Log} {r : Ref} {xs xs₁ xs₂ : List (Ref × ℕ)}

theorem GivenUp.mono (h : GivenUp tr r) (hs : tr ⊆ tr₁) : GivenUp tr₁ r := by
  rcases h with h | ⟨peer, hp, hc⟩
  · obtain ⟨e, he, hf⟩ := List.mem_filterMap.mp h
    exact .inl (List.mem_filterMap.mpr ⟨e, hs he, hf⟩)
  · exact .inr ⟨peer, hs hp, hc⟩

theorem Complete.congr {size : ℕ} {a : RemoteAllocation} (h : Complete size a tr)
    (ha : acks tr₁ = acks tr) : Complete size a tr₁ := by
  unfold Complete
  rwa [ha]

theorem Search.append (h₁ : Search tr₁ xs₁) (h₂ : Search tr₂ xs₂) :
    Search (tr₁ ++ tr₂) (xs₁ ++ xs₂) where
  acks := by rw [acks_append, h₁.acks, h₂.acks]
  entries d := by rw [List.foldl_append, h₁.entries, h₂.entries]
  capacity := h₁.capacity.append h₂.capacity

theorem search_nil : Search [] [] := ⟨rfl, fun _ => rfl, by simp [WithinCapacity]⟩

theorem Search.ask (hs : Search tr xs) (o : NetOp) (ho : ∀ p req, o ≠ .call p req) (r : o.Res) :
    Search (⟨.net o, r⟩ :: tr) xs := by
  have hone : Search [⟨.net o, r⟩] [] := by
    constructor
    · cases o with
      | call p req => exact absurd rfl (ho p req)
      | _ => rfl
    · exact fun _ => rfl
    · apply withinCapacity_of_not_alloc
      intro e he p req hcall
      obtain rfl := List.mem_singleton.mp he
      exact absurd (Effect.net.inj hcall) (ho p req)
  exact hone.append hs

theorem Settled.of_append (h₁ : ∀ x ∈ acks tr₁, GivenUp tr₂ x.1) (h₂ : acks tr₂ = []) :
    Settled (tr₁ ++ tr₂) := by
  intro before e after r size he hack
  obtain ⟨rest, rfl, rfl⟩ | ⟨rest, rfl, -⟩ := append_eq_cons_cases he
  · have hmem : (r, size) ∈ acks (before ++ e :: rest) :=
      List.mem_filterMap.mpr ⟨e, by simp, hack⟩
    exact (h₁ _ hmem).mono (List.subset_append_right _ _)
  · have hmem : (r, size) ∈ acks (rest ++ e :: after) :=
      List.mem_filterMap.mpr ⟨e, by simp, hack⟩
    rw [h₂] at hmem
    cases hmem

theorem Settled.after (h₂ : Settled tr₂) (h₁ : acks tr₁ = []) : Settled (tr₁ ++ tr₂) := by
  intro before e after r size he hack
  obtain ⟨rest, rfl, -⟩ | ⟨rest, hr, -⟩ := append_eq_cons_cases he
  · have hmem : (r, size) ∈ acks (before ++ e :: rest) :=
      List.mem_filterMap.mpr ⟨e, by simp, hack⟩
    rw [h₁] at hmem
    cases hmem
  · exact h₂ rest e after r size hr hack

theorem settled_of_no_acks (h : acks tr = []) : Settled tr := by
  have hnil : Settled [] := by
    intro before e after r size he
    simp at he
  simpa using hnil.after h

end Logs

section Traces

variable {ans : (o : Effect) → o.Res → Prop} {tr : Log} {p size : ℕ} {candidates : List ℕ}

/-- The handle in the answer to an ALLOC, if it was acknowledged. -/
def granted : CallResult → Option ℕ
  | .response resp => if resp.status = .ok then some resp.handle else none
  | _ => none

theorem emits_tryAlloc {out : Outcome Err (Option ℕ)} (he : Emits ans (tryAlloc p size) out tr) :
    ∃ id r, tr = [⟨.mem .nextRequestId, id⟩, ⟨.net (.call p (allocRequest size id)), r⟩] ∧
      out = .ok (granted r) := by
  obtain ⟨id, tr₁, -, ⟨r, tr₂, -, he, rfl⟩, rfl⟩ := he
  refine ⟨id, r, ?_⟩
  cases r with
  | timeout =>
    obtain ⟨rfl, rfl⟩ := he
    exact ⟨rfl, rfl⟩
  | empty =>
    obtain ⟨rfl, rfl⟩ := he
    exact ⟨rfl, rfl⟩
  | response resp =>
    change Emits ans (MonadExcept.tryCatch (if resp.status = .ok then _ else _) _) out tr₂ at he
    by_cases hok : resp.status = .ok
    · rw [if_pos hok] at he
      obtain ⟨rfl, rfl⟩ := he
      exact ⟨rfl, by simp [granted, hok]⟩
    · rw [if_neg hok] at he
      obtain ⟨rfl, rfl⟩ := he
      exact ⟨rfl, by simp [granted, hok]⟩

theorem returns_tryAlloc {out : Outcome Err (Option ℕ)}
    (he : Emits ans (tryAlloc p size) out tr) : ∃ a, out = .ok a := by
  obtain ⟨id, r, -, ha⟩ := emits_tryAlloc he
  exact ⟨_, ha⟩

theorem ack_alloc (p size id : ℕ) (r : CallResult) :
    ack ⟨.net (.call p (allocRequest size id)), r⟩ =
      (granted r).map fun handle => ((p, handle), size) := by
  cases r with
  | timeout => rfl
  | empty => rfl
  | response resp =>
    by_cases hok : resp.status = .ok
    · simp [ack, granted, allocRequest, hok]
    · simp [ack, granted, allocRequest, hok]

theorem search_alloc {peer : RemotePeer} (p id : ℕ) (r : CallResult)
    (hfit : peer.capacityKnown = true → size ≤ peer.freeRamBytes) :
    Search [⟨.net (.peer p), peer⟩, ⟨.mem .nextRequestId, id⟩,
        ⟨.net (.call p (allocRequest size id)), r⟩]
      ((granted r).toList.map fun handle => ((p, handle), size)) := by
  constructor
  · have hack := ack_alloc p size id r
    cases hg : granted r with
    | none =>
      rw [hg] at hack
      exact List.filterMap_cons_none hack
    | some handle =>
      rw [hg] at hack
      exact List.filterMap_cons_some hack
  · exact fun _ => rfl
  · intro before q req r' after he hop
    -- the ALLOC is the last of the three
    rcases before with - | ⟨e₁, - | ⟨e₂, - | ⟨e₃, before⟩⟩⟩
    · exact absurd (congrArg Sigma.fst (List.cons.inj he).1) nofun
    · exact absurd (congrArg Sigma.fst (List.cons.inj (List.cons.inj he).2).1) nofun
    · obtain ⟨rfl, h₁⟩ := List.cons.inj he
      obtain ⟨rfl, h₂⟩ := List.cons.inj h₁
      obtain ⟨hcall, -⟩ := List.cons.inj h₂
      obtain ⟨rfl, rfl⟩ := NetOp.call.inj (Effect.net.inj (congrArg Sigma.fst hcall))
      have hread : reading p ⟨.net (.peer p), peer⟩ = some peer := if_pos rfl
      exact ⟨peer, by rw [lastReading, List.filterMap_cons_some hread]; rfl, hfit⟩
    · simp at he

theorem mayFit_iff {peer : RemotePeer} :
    peer.mayFit size = true ↔ (peer.capacityKnown = true → size ≤ peer.freeRamBytes) := by
  cases hk : peer.capacityKnown <;> simp [RemotePeer.mayFit, hk]

theorem chunkSize_le_capacity (peer : RemotePeer) (remaining : ℕ) :
    peer.capacityKnown = true → peer.chunkSize remaining ≤ peer.freeRamBytes := by
  intro hk
  rw [RemotePeer.chunkSize, if_pos hk]
  exact Nat.min_le_right _ _

theorem emits_allocateSingle {out : Outcome Err (Option (ℕ × ℕ))}
    (he : Emits ans (allocateSingle size candidates) out tr) :
    out = .ok none ∧ Search tr [] ∨
      ∃ p handle, out = .ok (some (p, handle)) ∧ Search tr [((p, handle), size)] := by
  induction candidates generalizing tr with
  | nil =>
    obtain ⟨rfl, rfl⟩ := he
    exact .inl ⟨rfl, search_nil⟩
  | cons p candidates ih =>
    obtain ⟨peer, tr₁, -, h, rfl⟩ := emits_perform_bind he
    split_ifs at h with hfit
    swap
    · obtain ⟨rfl, hs⟩ | ⟨q, handle, rfl, hs⟩ := ih h
      · exact .inl ⟨rfl, hs.ask (.peer p) nofun peer⟩
      · exact .inr ⟨q, handle, rfl, hs.ask (.peer p) nofun peer⟩
    obtain ⟨a, tr₂, tr₃, h₁, h₂, rfl⟩ := emits_bind_of_returns h returns_tryAlloc
    obtain ⟨id, r, rfl, ha⟩ := emits_tryAlloc h₁
    obtain rfl := Outcome.ok.inj ha
    have hs := search_alloc p id r (mayFit_iff.mp hfit)
    cases hg : granted r with
    | none =>
      rw [hg] at h₂ hs
      obtain ⟨rfl, hs'⟩ | ⟨q, handle, rfl, hs'⟩ := ih h₂
      · exact .inl ⟨rfl, hs.append hs'⟩
      · exact .inr ⟨q, handle, rfl, hs.append hs'⟩
    | some handle =>
      rw [hg] at h₂ hs
      obtain ⟨rfl, rfl⟩ := h₂
      exact .inr ⟨p, handle, rfl, hs⟩

theorem emits_allocateStripes {remaining currentOffset : ℕ} {xs : List Stripe}
    {out : Outcome Err (List Stripe × ℕ)}
    (he : Emits ans (allocateStripes candidates remaining currentOffset xs) out tr) :
    ∃ new left, out = .ok (xs ++ new, left) ∧ left ≤ remaining ∧
      Consecutive currentOffset new (currentOffset + (remaining - left)) ∧
      (new.map Stripe.peer).Sublist candidates ∧
      Search tr (new.map fun x => (x.ref, x.length)) := by
  induction candidates generalizing remaining currentOffset xs tr with
  | nil =>
    obtain ⟨rfl, rfl⟩ := he
    exact ⟨[], remaining, by simp, Nat.le_refl _, by simp [Consecutive], .slnil, search_nil⟩
  | cons p candidates ih =>
    unfold allocateStripes at he
    split_ifs at he with hrem
    · obtain ⟨rfl, rfl⟩ := he
      exact ⟨[], remaining, by simp, Nat.le_refl _, by simp [Consecutive], List.nil_sublist _,
        search_nil⟩
    obtain ⟨peer, tr₁, -, h, rfl⟩ := emits_perform_bind he
    dsimp only at h
    split_ifs at h with hzero
    · obtain ⟨new, left, rfl, hle, hx, hsub, hs⟩ := ih h
      exact ⟨new, left, rfl, hle, hx, hsub.cons p, hs.ask (.peer p) (by simp) peer⟩
    obtain ⟨a, tr₂, tr₃, h₁, h₂, rfl⟩ := emits_bind_of_returns h returns_tryAlloc
    obtain ⟨id, r, rfl, ha⟩ := emits_tryAlloc h₁
    obtain rfl := Outcome.ok.inj ha
    have hs := search_alloc p id r (chunkSize_le_capacity peer remaining)
    have hchunk : peer.chunkSize remaining ≤ remaining := by
      unfold RemotePeer.chunkSize
      split_ifs <;> omega
    cases hg : granted r with
    | none =>
      rw [hg] at h₂ hs
      obtain ⟨new, left, rfl, hle, hx, hsub, hs'⟩ := ih h₂
      exact ⟨new, left, rfl, hle, hx, hsub.cons p, hs.append hs'⟩
    | some handle =>
      rw [hg] at h₂ hs
      obtain ⟨new, left, rfl, hle, hx, hsub, hs'⟩ := ih h₂
      refine ⟨⟨handle, currentOffset, peer.chunkSize remaining, p⟩ :: new, left, by simp,
        Nat.le_trans hle (Nat.sub_le _ _), ?_, hsub.cons_cons p, hs.append hs'⟩
      refine ⟨rfl, Nat.pos_of_ne_zero hzero, ?_⟩
      have hend : currentOffset + peer.chunkSize remaining +
          (remaining - peer.chunkSize remaining - left) = currentOffset + (remaining - left) := by
        omega
      rwa [hend] at hx

theorem emits_tryRelease {handle : ℕ} {out : Outcome Err Unit}
    (he : Emits ans (tryRelease p handle) out tr) :
    out = .ok () ∧ Search tr [] ∧ GivenUp tr (p, handle) := by
  obtain ⟨peer, tr₁, -, h, rfl⟩ := emits_perform_bind he
  split_ifs at h with hcon
  swap
  · obtain ⟨rfl, rfl⟩ := h
    refine ⟨rfl, search_nil.ask (.peer p) nofun peer, .inr ⟨peer, by simp, ?_⟩⟩
    simpa using hcon
  obtain ⟨id, tr₂, -, ⟨r, tr₃, -, h, rfl⟩, rfl⟩ := h
  have hend : out = .ok () ∧ tr₃ = [] := by
    cases r with
    | response resp => exact h
    | empty => exact h
    | timeout => exact h
  obtain ⟨rfl, rfl⟩ := hend
  have hfree :
      Search [⟨.mem .nextRequestId, id⟩, ⟨.net (.call p (freeRequest handle id)), r⟩] [] := by
    constructor
    · cases r <;> rfl
    · exact fun _ => rfl
    · apply withinCapacity_of_not_alloc
      intro e he q req hcall
      rcases List.mem_pair.mp he with rfl | rfl
      · cases hcall
      · obtain ⟨-, rfl⟩ := NetOp.call.inj (Effect.net.inj hcall)
        exact nofun
  exact ⟨rfl, hfree.ask (.peer p) nofun peer, .inl (by simp [frees, freed, freeRequest])⟩

theorem emits_freeStripes {xs : List Stripe} {out : Outcome Err Unit}
    (he : Emits ans (freeStripes xs) out tr) :
    out = .ok () ∧ Search tr [] ∧ ∀ x ∈ xs, GivenUp tr x.ref := by
  induction xs generalizing tr with
  | nil =>
    obtain ⟨rfl, rfl⟩ := he
    exact ⟨rfl, search_nil, nofun⟩
  | cons x xs ih =>
    obtain ⟨u, tr₁, tr₂, h₁, h₂, rfl⟩ :=
      emits_bind_of_returns he fun h => ⟨_, (emits_tryRelease h).1⟩
    obtain ⟨-, hs₁, hg₁⟩ := emits_tryRelease h₁
    obtain ⟨rfl, hs₂, hg₂⟩ := ih h₂
    refine ⟨rfl, hs₁.append hs₂, ?_⟩
    intro y hy
    rcases List.mem_cons.mp hy with rfl | hy
    · exact hg₁.mono (List.subset_append_left _ _)
    · exact (hg₂ y hy).mono (List.subset_append_right _ _)

theorem emits_joinStripes {xs : List Stripe} {left : ℕ}
    {out : Outcome Err (Option RemoteAllocation)}
    (he : Emits ans (joinStripes size xs left) out tr) :
    Search tr [] ∧ (out = .ok none ∧ (∀ x ∈ xs, GivenUp tr x.ref) ∨
      out = .ok (some { size, stripes := xs, isStriped := true }) ∧ left = 0) := by
  unfold joinStripes at he
  split_ifs at he with hdone hne
  · obtain ⟨rfl, rfl⟩ := he
    exact ⟨search_nil, .inr ⟨rfl, hdone.1⟩⟩
  · obtain ⟨u, tr₁, tr₂, h₁, ⟨rfl, rfl⟩, rfl⟩ :=
      emits_bind_of_returns he fun h => ⟨_, (emits_freeStripes h).1⟩
    obtain ⟨-, hs, hg⟩ := emits_freeStripes h₁
    rw [List.append_nil]
    exact ⟨hs, .inl ⟨rfl, hg⟩⟩
  · obtain ⟨rfl, rfl⟩ := he
    obtain rfl := not_not.mp hne
    exact ⟨search_nil, .inl ⟨rfl, nofun⟩⟩

theorem returns_allocateSingle {out : Outcome Err (Option (ℕ × ℕ))}
    (he : Emits ans (allocateSingle size candidates) out tr) : ∃ a, out = .ok a := by
  obtain ⟨h, -⟩ | ⟨p, handle, h, -⟩ := emits_allocateSingle he
  · exact ⟨_, h⟩
  · exact ⟨_, h⟩

theorem returns_allocateStripes {remaining currentOffset : ℕ} {xs : List Stripe}
    {out : Outcome Err (List Stripe × ℕ)}
    (he : Emits ans (allocateStripes candidates remaining currentOffset xs) out tr) :
    ∃ a, out = .ok a := by
  obtain ⟨new, left, h, -⟩ := emits_allocateStripes he
  exact ⟨_, h⟩

theorem emits_place {out : Outcome Err (Option RemoteAllocation)} (hnd : candidates.Nodup)
    (he : Emits ans (place size candidates) out tr) :
    ∃ xs, Search tr xs ∧ (out = .ok none ∧ Settled tr ∨
      ∃ a, out = .ok (some a) ∧ Complete size a tr) := by
  obtain ⟨found, tr₁, tr₂, h₁, h₂, rfl⟩ := emits_bind_of_returns he returns_allocateSingle
  obtain ⟨h, hs₁⟩ | ⟨p, handle, h, hs₁⟩ := emits_allocateSingle h₁
  swap
  · obtain rfl := Outcome.ok.inj h
    obtain ⟨rfl, rfl⟩ := h₂
    rw [List.append_nil]
    refine ⟨_, hs₁, .inr ⟨{ size, remoteHandle := handle, peer := some p }, rfl, rfl, ?_⟩⟩
    exact ⟨p, rfl, hs₁.acks⟩
  obtain rfl := Outcome.ok.inj h
  dsimp only at h₂
  split_ifs at h₂ with hmany
  swap
  · obtain ⟨rfl, rfl⟩ := h₂
    rw [List.append_nil]
    exact ⟨_, hs₁, .inl ⟨rfl, settled_of_no_acks hs₁.acks⟩⟩
  obtain ⟨⟨xs, left⟩, tr₃, tr₄, h₃, h₄, rfl⟩ := emits_bind_of_returns h₂ returns_allocateStripes
  obtain ⟨new, left', h, hle, hx, hsub, hs₃⟩ := emits_allocateStripes h₃
  obtain ⟨rfl, rfl⟩ := Prod.mk.inj (Outcome.ok.inj h)
  obtain ⟨hs₄, ⟨rfl, hg⟩ | ⟨rfl, rfl⟩⟩ := emits_joinStripes h₄
  · have hs := hs₁.append hs₃
    rw [← List.append_assoc]
    refine ⟨_, hs.append hs₄, .inl ⟨rfl, .of_append ?_ hs₄.acks⟩⟩
    rw [hs.acks, List.nil_append]
    intro r hr
    obtain ⟨x, hx, rfl⟩ := List.mem_map.mp hr
    exact hg x hx
  · have hs := hs₁.append (hs₃.append hs₄)
    rw [Nat.sub_zero, Nat.zero_add] at hx
    refine ⟨_, hs, .inr ⟨_, rfl, rfl, ?_⟩⟩
    have hsum := hx.sum_length
    rw [Nat.zero_add] at hsum
    have hacks := hs.acks
    rw [List.append_nil] at hacks
    exact ⟨hacks, hsub.nodup hnd, hx, hsum⟩

theorem returns_place {out : Outcome Err (Option RemoteAllocation)} (hnd : candidates.Nodup)
    (he : Emits ans (place size candidates) out tr) : ∃ a, out = .ok a := by
  obtain ⟨xs, -, ⟨h, -⟩ | ⟨a, h, -⟩⟩ := emits_place hnd he
  · exact ⟨_, h⟩
  · exact ⟨_, h⟩

theorem emits_awaitPeer {out : Outcome Err Unit} (he : Emits ans awaitPeer out tr) :
    out = .ok () ∧ Search tr [] := by
  obtain ⟨peers, tr₁, -, h, rfl⟩ := emits_perform_bind he
  split_ifs at h
  · obtain ⟨connected, tr₂, -, ⟨rfl, rfl⟩, rfl⟩ := emits_perform_bind h
    have hs := search_nil.ask .waitForConnectedPeer nofun connected
    exact ⟨rfl, hs.ask .connectedPeers nofun peers⟩
  · obtain ⟨rfl, rfl⟩ := h
    exact ⟨rfl, search_nil.ask .connectedPeers nofun peers⟩

def DistinctCandidates : (o : Effect) → o.Res → Prop
  | .net .candidates, ps => ps.Nodup
  | _, _ => True

theorem emits_allocateRemote {handle : ℕ} {out : Outcome Err Unit}
    (he : Emits DistinctCandidates (allocateRemote handle size) out tr) :
    WithinCapacity tr ∧
      ((∃ a, out = .ok () ∧ (∀ d, tr.foldl record d = d.insert handle a) ∧ Complete size a tr) ∨
        ∃ e, out = .threw e ∧ (∀ d, tr.foldl record d = d) ∧ Settled tr) := by
  obtain ⟨u, tr₁, tr₂, h₁, h₂, rfl⟩ :=
    emits_bind_of_returns he fun h => ⟨_, (emits_awaitPeer h).1⟩
  obtain ⟨-, hs₁⟩ := emits_awaitPeer h₁
  obtain ⟨ps, tr₃, hnd, h₃, rfl⟩ := emits_perform_bind h₂
  obtain ⟨found, tr₄, tr₅, h₄, h₅, rfl⟩ := emits_bind_of_returns h₃ (returns_place hnd)
  obtain ⟨xs, hs₄, ⟨h, hsettled⟩ | ⟨a, h, hcomplete⟩⟩ := emits_place hnd h₄
  · obtain rfl := Outcome.ok.inj h
    obtain ⟨rfl, rfl⟩ := h₅
    rw [List.append_nil]
    have hs := hs₁.append (hs₄.ask .candidates nofun ps)
    refine ⟨hs.capacity, .inr ⟨_, rfl, hs.entries, ?_⟩⟩
    have hcand : acks [⟨.net .candidates, ps⟩] = [] := rfl
    exact (hsettled.after hcand).after hs₁.acks
  · obtain rfl := Outcome.ok.inj h
    obtain ⟨u, tr₆, -, ⟨rfl, rfl⟩, rfl⟩ := h₅
    have hs := hs₁.append (hs₄.ask .candidates nofun ps)
    rw [← List.cons_append, ← List.append_assoc]
    refine ⟨hs.capacity.append ?_, .inl ⟨a, rfl, fun d => ?_, hcomplete.congr ?_⟩⟩
    · apply withinCapacity_of_not_alloc
      intro e he p req hcall
      obtain rfl := List.mem_singleton.mp he
      cases hcall
    · rw [List.foldl_append, hs.entries]
      rfl
    · have hinsert : acks [⟨.mem (.remoteInsert handle a), u⟩] = [] := rfl
      rw [acks_append, hs.acks, hinsert, List.append_nil, List.nil_append, hs₄.acks]

end Traces

/-- `allocate_remote` returns with an entry for all of the block, or throws with none and with
nothing left on the peers that are still connected, whatever the peers answer. It asks no peer
for more than it is known to hold. -/
theorem allocateRemote_all_or_nothing {ν : Type} {net : (o : NetOp) → ν → o.Res → ν → Prop}
    {handle size : ℕ} {c : Client} {w : ν} {out : Outcome Err Unit} {s : Client × ν} {log : Log}
    (hnet : ∀ w ps w', net .candidates w ps w' → ps.Nodup)
    (hrun : Runs (logged (clientEnv net)) (allocateRemote handle size) ((c, w), []) out (s, log)) :
    WithinCapacity log ∧
      ((∃ a, out = .ok () ∧ s.1.remoteHandles = c.remoteHandles.insert handle a ∧
          Complete size a log) ∨
        ∃ e, out = .threw e ∧ s.1.remoteHandles = c.remoteHandles ∧ Settled log) := by
  have hans : ∀ o s r s', True → clientEnv net o s r s' → True ∧ DistinctCandidates o r := by
    intro o s r s' _ h
    refine ⟨trivial, ?_⟩
    match o with
    | .mem o => trivial
    | .net o =>
      cases o with
      | candidates => exact hnet _ _ _ h.2
      | _ => trivial
  obtain ⟨tr, rfl, he⟩ := Runs.emits (I := fun _ => True) hans trivial hrun
  have hentries := remoteHandles_eq_foldl hrun
  obtain ⟨hcap, ⟨a, rfl, hd, ha⟩ | ⟨e, rfl, hd, hs⟩⟩ := emits_allocateRemote he
  · exact ⟨hcap, .inl ⟨a, rfl, hentries.trans (hd _), ha⟩⟩
  · exact ⟨hcap, .inr ⟨e, rfl, hentries.trans (hd _), hs⟩⟩

def twoSmallPeers : (o : NetOp) → Unit → o.Res × Unit
  | .availableBytes, w => (0, w)
  | .connectedPeers, w => ([0, 1], w)
  | .waitForConnectedPeer, w => (true, w)
  | .candidates, w => ([0, 1], w)
  | .peer _, w => ({ connected := true, freeRamBytes := 1, capacityKnown := true }, w)
  | .call p _, w => (.response { handle := p + 1 }, w)

theorem allocateRemote_two_stripes :
    ∃ s log, Runs (logged (clientEnv fun o w r w' => (r, w') = twoSmallPeers o w))
        (allocateRemote 7 2) ((Client.new 0, ()), []) (.ok ()) (s, log) ∧
      WithinCapacity log ∧
      ∃ a, s.1.remoteHandles = (Client.new 0).remoteHandles.insert 7 a ∧ Complete 2 a log := by
  have hok : (eval (loggedHandler (clientHandler twoSmallPeers)) (allocateRemote 7 2)
      ((Client.new 0, ()), [])).1 = .ok () := by decide
  have hrun := runs_loggedHandler twoSmallPeers (allocateRemote 7 2) ((Client.new 0, ()), [])
  rw [hok] at hrun
  refine ⟨_, _, hrun, ?_⟩
  have hnet : ∀ w ps w', (ps, w') = twoSmallPeers .candidates w → ps.Nodup := by
    rintro w ps w' h
    obtain ⟨rfl, -⟩ := Prod.mk.inj h
    decide
  obtain ⟨hcap, ⟨a, -, hentries, ha⟩ | ⟨e, h, -⟩⟩ := allocateRemote_all_or_nothing hnet hrun
  · exact ⟨hcap, a, hentries, ha⟩
  · cases h

end MemoryClient

end MemInfo
