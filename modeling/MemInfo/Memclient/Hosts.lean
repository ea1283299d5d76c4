import MemInfo.Memclient.Refinement

/-! # Peers that come and go

What can happen to a peer between two requests of the client: other sessions are served, a
request is processed late, the connection is lost and made again. If the blocks of a peer are
labelled with the handles of the client to which they belong, then through all of this a block
holds nothing but bytes that may be those of its handle.
-/

namespace MemInfo

open Lib

structure Host where
  daemon : Daemon
  /-- Requests that were sent, to which no answer is awaited any more, and which may still be
  processed. -/
  pending : List MemoryRequest

structure Host.Fresh (x : Host) : Prop where
  tracker : ∃ totalSize pageSize garbage slab,
    SlabAllocator.new totalSize pageSize garbage = .ok slab ∧
      x.daemon.tracker = PageTracker.new slab
  granted : x.daemon.granted = 0
  session : x.daemon.session ≠ 0
  pending : x.pending = []

inductive Host.Step (x : Host) : Host → Prop where
  /-- Another session, one of this client's earlier ones among them, sends a request or ends. -/
  | elsewhere (ev : Event) : 1 ≤ ev.session → ev.session ≠ x.daemon.session →
      Step x { x with daemon := (x.daemon.serve ev).2 }
  /-- A request is processed late. -/
  | late (req : MemoryRequest) : req ∈ x.pending →
      Step x ⟨(x.daemon.serve (.request x.daemon.session req)).2, x.pending.erase req⟩
  /-- The connection is lost. -/
  | lost (ord : IterOrder ℕ) :
      Step x ⟨(x.daemon.serve (.disconnect x.daemon.session ord)).2, []⟩
  /-- The client connects again and gets a session with a new id. -/
  | reconnected (session : ℕ) : session ≠ 0 →
      (∀ h, ByteMap.owned x.daemon.tracker.view session h = none) →
      Step x ⟨{ x.daemon with session }, []⟩

section Daemons

variable {W : ℕ → Byte → Prop} {label : ℕ → Option ℕ} {d d' : Daemon} {req : MemoryRequest}

/-- The bytes that may stand in a block: those of its handle, and zeros as long as it has
none. -/
def May (W : ℕ → Byte → Prop) : Option ℕ → Byte → Prop
  | some h, b => W h b
  | none, b => b = 0

structure Daemon.Tidy (W : ℕ → Byte → Prop) (label : ℕ → Option ℕ) (d : Daemon) : Prop where
  sound : d.Sound
  bounded : d.granted < 2 ^ 64
  labelled : ∀ {k h}, label k = some h → 1 ≤ k ∧ k ≤ d.granted
  stored : ∀ {k bs}, ByteMap.owned d.tracker.view d.session k = some bs →
    ∀ b ∈ bs, May W (label k) b

/-- A request that writes nothing but the bytes of a handle to a block of it. -/
def Harmless (W : ℕ → Byte → Prop) (label : ℕ → Option ℕ) (req : MemoryRequest) : Prop :=
  req.op = .write → ∃ h data, label req.handle = some h ∧ req.data = some data ∧ ∀ b ∈ data, W h b

theorem may_zero (hzero : ∀ h, W h 0) (l : Option ℕ) : May W l 0 := by
  cases l with
  | none => rfl
  | some h => exact hzero h

theorem Host.Fresh.tidy {x : Host} (hx : x.Fresh) : x.daemon.Tidy W fun _ => none := by
  have hs : World.Started ⟨fun _ => x.daemon, ∅⟩ :=
    fun _ => ⟨Nat.one_le_iff_ne_zero.mpr hx.session, hx.granted, hx.tracker⟩
  obtain ⟨_, _, _, slab, -, ht⟩ := hx.tracker
  constructor
  · exact hs.sound 0
  · simp [hx.granted]
  · exact nofun
  · intro k bs hk
    simp [ht, ByteMap.owned, PageTracker.view, PageTracker.new] at hk

theorem Daemon.Tidy.served {m : ByteMap} {resp : MemoryResponse} (ht : d.Tidy W label)
    (hreq : Harmless W label req) (hout : ByteMap.Outcome d.tracker.view d.session req resp m)
    (hfresh : req.op = .alloc → req.size ≠ 0 → resp.status = .ok → label resp.handle = none)
    {k : ℕ} {bs : List Byte} (hk : m.owned d.session k = some bs) :
    ∀ b ∈ bs, May W (label k) b := by
  have howner := ht.sound.allOwned
  cases hout with
  | refused => exact ht.stored hk
  | idle => exact ht.stored hk
  | granted hst hop hz =>
    rw [ByteMap.owned_update] at hk
    split_ifs at hk with heq
    · subst heq
      obtain rfl : List.replicate req.size 0 = bs := by simpa using hk
      intro b hb
      rw [hfresh hop hz hst]
      exact List.eq_of_mem_replicate hb
    · exact ht.stored hk
  | stored hst hop hd hm hp =>
    rw [ByteMap.owned_update] at hk
    split_ifs at hk with heq
    · subst heq
      have hold := ByteMap.owned_of_some hm (s := d.session)
      rw [ByteMap.owner_eq howner hm hp] at hk hold
      obtain ⟨h, data, hl, hdata, hw⟩ := hreq hop
      obtain rfl := Option.some.inj (hd.symm.trans hdata)
      intro b hb
      obtain rfl : splice _ _ _ = bs := by simpa using hk
      rcases mem_of_mem_splice hb with hb | hb
      · exact ht.stored (by simpa using hold) b hb
      · rw [hl]
        exact hw b hb
    · exact ht.stored hk
  | fetched => exact ht.stored hk
  | freed =>
    rw [ByteMap.owned_update] at hk
    split_ifs at hk
    · cases hk
    · exact ht.stored hk

structure Daemon.Answer (W : ℕ → Byte → Prop) (label : ℕ → Option ℕ) (d : Daemon)
    (req : MemoryRequest) (resp : MemoryResponse) (d' : Daemon) : Prop where
  tidy : d'.Tidy W label
  granted_le : d.granted ≤ d'.granted
  granted : req.op = .alloc → req.size ≠ 0 → resp.status = .ok →
    resp.handle = d.granted + 1 ∧ resp.handle = d'.granted
  data : req.op = .read → resp.status = .ok → ∀ data, resp.data = some data →
    data ≠ [] ∧ ∀ b ∈ data, May W (label req.handle) b

theorem Daemon.Tidy.handle_granted {resp : MemoryResponse} (ht : d.Tidy W label)
    (hresp : (d.serve (.request d.session req)).1 = some resp)
    (hb : (d.serve (.request d.session req)).2.granted < 2 ^ 64) (hop : req.op = .alloc)
    (hz : req.size ≠ 0) (hst : resp.status = .ok) :
    resp.handle = d.granted + 1 ∧
      resp.handle = (d.serve (.request d.session req)).2.granted := by
  have hg : isGranted (.request d.session req, some resp) := by simp [isGranted, hop, hz, hst]
  have hcount : (d.serve (.request d.session req)).2.granted = d.granted + 1 := by
    change d.granted + (if isGranted (_, (d.serve (.request d.session req)).1) then 1 else 0) = _
    rw [hresp, if_pos hg]
  rw [hcount] at hb ⊢
  have hhandle := ht.sound.reached.handle_granted hresp hg
  rw [wrap_of_lt hb] at hhandle
  exact ⟨hhandle, hhandle⟩

theorem Daemon.Tidy.request {resp : MemoryResponse} (ht : d.Tidy W label)
    (hreq : Harmless W label req) (hresp : (d.serve (.request d.session req)).1 = some resp)
    (hb : (d.serve (.request d.session req)).2.granted < 2 ^ 64) :
    d.Answer W label req resp (d.serve (.request d.session req)).2 := by
  have hgranted := ht.handle_granted hresp hb
  have hsession : (Event.request d.session req).session ≠ 0 := ht.sound.session
  obtain ⟨hsound, resp', hresp', hanswers⟩ := ht.sound.serve hsession hb
  obtain rfl := Option.some.inj (hresp.symm.trans hresp')
  have hout := hanswers.outcome
  have hle : d.granted ≤ (d.serve (.request d.session req)).2.granted := Nat.le_add_right _ _
  have hfresh (hop : req.op = .alloc) (hz : req.size ≠ 0) (hst : resp.status = .ok) :
      label resp.handle = none := by
    cases hl : label resp.handle with
    | none => rfl
    | some h =>
      have := (ht.labelled hl).2
      have := (hgranted hop hz hst).1
      omega
  refine ⟨⟨hsound, hb, fun hl => ?_, fun hk => ht.served hreq hout hfresh hk⟩, hle, hgranted, ?_⟩
  · exact ⟨(ht.labelled hl).1, (ht.labelled hl).2.trans hle⟩
  · intro hop hst data hd
    refine ⟨PageTracker.data_ne_nil hresp hd, fun b hb => ?_⟩
    have hread := hout.of_read ht.sound.allOwned hop hst
    rw [hd, Option.getD_some] at hread
    rw [hread] at hb
    cases hk : ByteMap.owned d.tracker.view d.session req.handle with
    | none => simp [hk, slice] at hb
    | some bs =>
      rw [hk, Option.getD_some] at hb
      exact ht.stored hk b (mem_of_mem_slice hb)

theorem Daemon.Tidy.relabel {label' : ℕ → Option ℕ} (ht : d.Tidy W label) (hzero : ∀ h, W h 0)
    (hkept : ∀ k h, label k = some h → label' k = some h)
    (hnew : ∀ k h, label' k = some h → 1 ≤ k ∧ k ≤ d.granted) : d.Tidy W label' := by
  refine ⟨ht.sound, ht.bounded, fun hl => hnew _ _ hl, fun {k bs} hk b hb => ?_⟩
  have hold := ht.stored hk b hb
  cases hl : label k with
  | none =>
    rw [hl] at hold
    obtain rfl : b = 0 := hold
    exact may_zero hzero _
  | some h =>
    rw [hl] at hold
    rw [hkept k h hl]
    exact hold

theorem Harmless.relabel {label' : ℕ → Option ℕ} (hreq : Harmless W label req)
    (hkept : ∀ k h, label k = some h → label' k = some h) : Harmless W label' req := by
  intro hop
  obtain ⟨h, data, hl, hd, hw⟩ := hreq hop
  exact ⟨h, data, hkept _ _ hl, hd, hw⟩

structure Host.Tidy (W : ℕ → Byte → Prop) (label : ℕ → Option ℕ) (x : Host) : Prop where
  daemon : x.daemon.Tidy W label
  pending : ∀ req ∈ x.pending, Harmless W label req

theorem Host.Tidy.step {x y : Host} (hx : x.Tidy W label) (hstep : x.Step y)
    (hb : y.daemon.granted < 2 ^ 64) :
    y.Tidy W label ∧ x.daemon.granted ≤ y.daemon.granted := by
  have hd := hx.daemon
  cases hstep with
  | elsewhere ev hpos hne =>
    have hle : x.daemon.granted ≤ (x.daemon.serve ev).2.granted := Nat.le_add_right _ _
    have hself : x.daemon.Elsewhere (x.daemon.serve ev).2 := ⟨[ev], by simp [hpos, hne], rfl⟩
    obtain ⟨hsound, -, howned⟩ := hd.sound.elsewhere hself hb
    refine ⟨⟨⟨hsound, hb, fun hl => ?_, fun {k bs} hk => ?_⟩, hx.pending⟩, hle⟩
    · exact ⟨(hd.labelled hl).1, (hd.labelled hl).2.trans hle⟩
    · exact hd.stored ((howned k).symm.trans hk)
  | late req hreq =>
    have ha := hd.request (hx.pending req hreq) rfl hb
    exact ⟨⟨ha.tidy, fun r hr => hx.pending r (List.mem_of_mem_erase hr)⟩, ha.granted_le⟩
  | lost ord =>
    have hsession : (Event.disconnect x.daemon.session ord).session ≠ 0 := hd.sound.session
    obtain ⟨hsound, -, hview⟩ := hd.sound.serve hsession hb
    have hle : x.daemon.granted ≤ (x.daemon.serve (.disconnect x.daemon.session ord)).2.granted :=
      Nat.le_add_right _ _
    refine ⟨⟨⟨hsound, hb, fun hl => ?_, fun {k bs} hk => ?_⟩, nofun⟩, hle⟩
    · exact ⟨(hd.labelled hl).1, (hd.labelled hl).2.trans hle⟩
    · rw [hview, if_neg hd.sound.session, ByteMap.owned_filter] at hk
      simp [Daemon.serve] at hk
  | reconnected session hne hnone =>
    refine ⟨⟨⟨⟨hd.sound.reached, hd.sound.allOwned, hne⟩, hb, hd.labelled, ?_⟩, nofun⟩, le_refl _⟩
    intro k bs hk
    rw [hnone] at hk
    cases hk

end Daemons

end MemInfo
