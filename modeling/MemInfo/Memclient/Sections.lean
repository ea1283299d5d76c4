import MemInfo.Lib.Interleave
import MemInfo.Memclient.Refinement

/-! # Two threads on one client

The steps of two calls may be interleaved in any order. The calls are made of sections, from
one lookup to the change that depends on it; if no section is interrupted, the calls take
effect one after the other.
-/

namespace MemInfo

open Lib Prog MemoryClient

namespace Access

def call (h : ℕ) : Access → Call
  | .read offset size => .read h offset size
  | .write offset data => .write h offset data

def cached (h : ℕ) (block : List Byte) : Access → ClientM Value
  | .read offset size => do
    let data ← readLocal block offset size
    return .bytes data
  | .write offset data => do
    writeLocal h block offset data
    return .done

def readOversized (remote : RemoteAllocation) (offset size : ℕ) : ClientM (List Byte) :=
  if OutOfBounds remote.size offset size then MonadExcept.throw (.outOfRange "Read out of bounds")
  else readRemote remote offset size false

def writeOversized (remote : RemoteAllocation) (offset : ℕ) (data : List Byte) : ClientM Unit :=
  if OutOfBounds remote.size offset data.length then
    MonadExcept.throw (.outOfRange "Write out of bounds")
  else writeRemote remote offset data

def oversized (remote : RemoteAllocation) : Access → ClientM Value
  | .read offset size => do
    let data ← readOversized remote offset size
    return .bytes data
  | .write offset data => do
    writeOversized remote offset data
    return .done

end Access

inductive Phase where
  | allocate (size : ℕ)
  | placing (h size : ℕ)
  | free (h : ℕ)
  | access (h : ℕ) (x : Access)
  | missed (h : ℕ) (x : Access)
  | loading (h : ℕ) (x : Access)
  | loaded (h : ℕ) (x : Access)
  deriving DecidableEq, Repr

namespace Phase

def start : Call → Phase
  | .allocate size => .allocate size
  | .free h => .free h
  | .read h offset size => .access h (.read offset size)
  | .write h offset data => .access h (.write offset data)

def stage : Phase → ClientM (Phase ⊕ Value)
  | .allocate size => do
    let h ← mem .nextLocalHandle
    return .inl (.placing h size)
  | .placing h size => do
    let h ← allocateAs h size
    return .inr (.handle h)
  | .free h => do
    MemoryClient.free h
    return .inr .done
  | .access h x => do
    match ← mem (.cacheGet h) with
    | some block => do
      let v ← x.cached h block
      return .inr v
    | none => return .inl (.missed h x)
  | .missed h x => do
    match ← oversizedRemoteAlloc h with
    | some remote => do
      let v ← x.oversized remote
      return .inr v
    | none => return .inl (.loading h x)
  | .loading h x => do
    loadToLocal h
    return .inl (.loaded h x)
  | .loaded h x => do
    match ← mem (.cacheGet h) with
    | some block => do
      let v ← x.cached h block
      return .inr v
    | none => MonadExcept.throw (.runtimeError "Failed to load block from remote")

def rest : Phase → ClientM Value
  | .allocate size => (Call.allocate size).exec
  | .placing h size => do
    let h ← allocateAs h size
    return .handle h
  | .free h => (Call.free h).exec
  | .access h x => (x.call h).exec
  | .missed h x => do
    match ← oversizedRemoteAlloc h with
    | some remote => x.oversized remote
    | none => loading h x
  | .loading h x => loading h x
  | .loaded h x => loaded h x
where
  loading (h : ℕ) (x : Access) : ClientM Value := do
    loadToLocal h
    loaded h x
  loaded (h : ℕ) (x : Access) : ClientM Value := do
    match ← mem (.cacheGet h) with
    | some block => x.cached h block
    | none => MonadExcept.throw (.runtimeError "Failed to load block from remote")

theorem rest_start (call : Call) : (start call).rest = call.exec := by
  cases call <;> rfl

theorem rest_access (h : ℕ) (x : Access) : (access h x).rest = mem (.cacheGet h) >>= fun
    | some block => x.cached h block
    | none => (missed h x).rest := by
  cases x
  all_goals
    simp only [rest, Access.call, Call.exec, MemoryClient.read, MemoryClient.write, bind_assoc]
    congr 1
    funext r
    cases r with
    | some block => rfl
    | none =>
      simp only [bind_assoc]
      congr 1
      funext r
      cases r with
      | some remote => rfl
      | none =>
        simp only [rest.loading, rest.loaded, bind_assoc]
        congr 1
        funext _
        congr 1
        funext r
        cases r <;> rfl

theorem rest_eq (φ : Phase) :
    φ.rest = φ.stage >>= fun x => remaining rest (next (.ok x)) := by
  have hend (p : ClientM Value) :
      ((p >>= fun v => Pure.pure (Sum.inr v)) >>= fun x => remaining rest (next (.ok x))) = p := by
    rw [bind_assoc]
    exact bind_pure p
  cases φ with
  | allocate size =>
    simp only [rest, stage, Call.exec, bind_assoc]
    rfl
  | placing h size =>
    simp only [rest, stage, bind_assoc]
    rfl
  | free h =>
    simp only [rest, stage, Call.exec, bind_assoc]
    rfl
  | access h x =>
    rw [rest_access, stage, bind_assoc]
    congr 1
    funext r
    cases r with
    | some block => exact (hend _).symm
    | none => rfl
  | missed h x =>
    rw [rest, stage, bind_assoc]
    congr 1
    funext r
    cases r with
    | some remote => exact (hend _).symm
    | none => rfl
  | loading h x =>
    rw [rest, rest.loading, stage, bind_assoc]
    rfl
  | loaded h x =>
    rw [rest, rest.loaded, stage, bind_assoc]
    congr 1
    funext r
    cases r with
    | some block => exact (hend _).symm
    | none => rfl

end Phase

/-- A call is made with a handle below `n`. -/
def Call.Issued (n : ℕ) : Call → Prop
  | .allocate _ => True
  | .free h => h < n
  | .read h _ _ => h < n
  | .write h _ _ => h < n

instance (n : ℕ) : (call : Call) → Decidable (call.Issued n)
  | .allocate _ => inferInstanceAs (Decidable True)
  | .free _ | .read _ _ _ | .write _ _ _ => inferInstanceAs (Decidable (_ < _))

theorem Contents.Step.length_eq {A A' : Contents} {call : Call} {out : Outcome Err Value} {k : ℕ}
    {bs : List Byte} (h : A.Step call out A') (hk : out ≠ .ok (.handle k)) (hb : A' k = some bs) :
    ∃ bs', A k = some bs' ∧ bs'.length = bs.length := by
  cases out with
  | threw e =>
    obtain rfl : A' = A := by cases call <;> exact h
    exact ⟨bs, hb, rfl⟩
  | aborted x => cases call <;> exact absurd h id
  | ok v =>
    cases call with
    | allocate size =>
      cases v with
      | handle j =>
        obtain ⟨-, rfl⟩ := h
        rw [Function.update_of_ne] at hb
        · exact ⟨bs, hb, rfl⟩
        · rintro rfl
          exact hk rfl
      | _ => exact absurd h id
    | free j =>
      cases v with
      | done =>
        obtain rfl : A' = Function.update A j none := h
        rw [Function.update_apply] at hb
        split_ifs at hb
        exact ⟨bs, hb, rfl⟩
      | _ => exact absurd h id
    | read j offset size =>
      cases v with
      | bytes data =>
        obtain ⟨rfl, -⟩ := h
        exact ⟨bs, hb, rfl⟩
      | _ => exact absurd h id
    | write j offset data =>
      cases v with
      | done =>
        obtain ⟨ds, hA, hle, rfl⟩ := h
        rw [Function.update_apply] at hb
        split_ifs at hb with hj
        · obtain rfl := Option.some.inj hb
          exact ⟨ds, hj ▸ hA, (length_splice hle).symm⟩
        · exact ⟨bs, hb, rfl⟩
      | _ => exact absurd h id

section Effects

variable {maxPayload M n h : ℕ} {A : Contents} {s : Client × Peers} {a : RemoteAllocation}
  {bs : List Byte} {x : Access} {call : Call} {φ : Phase}

def Effected (maxPayload : ℕ) (A : Contents) (call : Call) (out : Outcome Err Value)
    (s : Client × Peers) : Prop :=
  ∃ A', A.Step call out A' ∧ Rep maxPayload A' s

theorem Effected.threw (hr : Rep maxPayload A s) (call : Call) (e : Err) :
    Effected maxPayload A call (.threw e) s := by
  refine ⟨A, ?_, hr⟩
  cases call <;> rfl

theorem ensures_accessCached (hr : Rep maxPayload A s) (hc : s.1.cache.content h = some bs) :
    Ensures maxPayload (x.cached h bs) (Effected maxPayload A (x.call h)) s := by
  have hA := (hr.of_content hc).1
  cases x with
  | read offset size =>
    refine wp_bind.mpr (ensures_readLocal hr hA (fun bs s' hA hle hr' => ?_) ?_)
    · exact ⟨A, ⟨rfl, bs, hA, hle, rfl⟩, hr'⟩
    · exact fun e s' hr' => .threw hr' _ e
  | write offset data =>
    refine wp_bind.mpr (ensures_writeLocal hr hA hc (fun bs s' hA hle hr' => ?_) ?_)
    · exact ⟨_, ⟨bs, hA, hle, rfl⟩, hr'⟩
    · exact fun e s' hr' => .threw hr' _ e

theorem ensures_accessOversized (hr : Rep maxPayload A s)
    (hl : s.1.remoteHandles.lookup h = some a) (hv : (x.call h).Valid maxPayload M) :
    Ensures maxPayload (x.oversized a) (Effected maxPayload A (x.call h)) s := by
  cases x with
  | read offset size =>
    refine wp_bind.mpr (ensures_readOversized hr hl hv.1 hv.2 (fun bs s' hA hle hr' => ?_) ?_)
    · exact ⟨A, ⟨rfl, bs, hA, hle, rfl⟩, hr'⟩
    · exact fun e s' hr' => .threw hr' _ e
  | write offset data =>
    refine wp_bind.mpr (ensures_writeOversized hr hl hv.1 hv.2 (fun bs s' hA hle hr' => ?_) ?_)
    · exact ⟨_, ⟨bs, hA, hle, rfl⟩, hr'⟩
    · exact fun e s' hr' => .threw hr' _ e

/-- What a thread relies on between two sections of its call. The handles of new blocks are
not below `n`. -/
def Phase.Suits (M n : ℕ) (A : Contents) (issued : ℕ) (call : Call) : Phase → Prop
  | .allocate size => call = .allocate size
  | .placing h size => call = .allocate size ∧ A h = none ∧ n ≤ h ∧ h < issued
  | .free h => call = .free h
  | .access h x => call = x.call h
  | .missed h x => call = x.call h
  | .loading h x => call = x.call h ∧ ∀ bs, A h = some bs → bs.length ≤ M
  | .loaded h x => call = x.call h

def Advances (maxPayload M n : ℕ) (A : Contents) (call : Call) (φ : Phase) (s : Client × Peers) :
    Phase ⊕ Outcome Err Value → Client × Peers → Prop
  | .inl φ', s' => Rep maxPayload A s' ∧ φ'.Suits M n A s'.1.nextLocalHandle call ∧
      ∀ h size, φ' = .placing h size → s.1.nextLocalHandle ≤ h
  | .inr out, s' => Effected maxPayload A call out s' ∧
      ∀ h, out = .ok (.handle h) → ∃ size, φ = .placing h size

theorem Effected.ne_handle {out : Outcome Err Value} {k : ℕ}
    (he : Effected maxPayload A (x.call h) out s) : out ≠ .ok (.handle k) := by
  rintro rfl
  obtain ⟨A', hstep, -⟩ := he
  cases x <;> exact hstep

theorem ensures_ends {p : ClientM Value} {s₀ : Client × Peers}
    (hp : Ensures maxPayload p (Effected maxPayload A (x.call h)) s) :
    Ensures maxPayload (p >>= fun v => Pure.pure (Sum.inr v))
      (fun mid s' => Advances maxPayload M n A (x.call h) φ s₀ (next mid) s') s := by
  refine wp_bind.mpr (wp_mono hp fun out s' he => ?_)
  have hne (k : ℕ) (hk : out = .ok (.handle k)) : ∃ size, φ = .placing k size :=
    absurd hk he.ne_handle
  cases out <;> exact ⟨he, hne⟩

theorem ensures_stage (hr : Rep maxPayload A s) (hM : s.1.cache.maxBytes = M)
    (hn : n ≤ s.1.nextLocalHandle) (hv : call.Valid maxPayload M)
    (hs : φ.Suits M n A s.1.nextLocalHandle call) :
    Ensures maxPayload φ.stage
      (fun mid s' => Advances maxPayload M n A call φ s (next mid) s') s := by
  cases φ with
  | allocate size =>
    apply ensures_nextLocalHandle hr
    intro s₁ hA _ hnext hr₁
    exact ⟨hr₁, ⟨hs, hA, hn, by omega⟩, fun h _ he => by cases he; exact Nat.le_refl _⟩
  | placing h size =>
    obtain ⟨rfl, hA, -, hlt⟩ := hs
    refine wp_bind.mpr (ensures_allocateAs hr hA hlt (hM ▸ hv) (fun s' hr' => ?_) ?_)
    · exact ⟨⟨_, ⟨hA, rfl⟩, hr'⟩, fun k hk => by cases hk; exact ⟨size, rfl⟩⟩
    · exact fun e s' hr' => ⟨.threw hr' _ e, nofun⟩
  | free h =>
    obtain rfl : call = .free h := hs
    exact wp_bind.mpr (ensures_free hr fun s' hr' => ⟨⟨_, rfl, hr'⟩, nofun⟩)
  | access h x =>
    obtain rfl : call = x.call h := hs
    apply ensures_cacheGet hr
    intro s₁ hc _ hr₁
    cases hcon : s.1.cache.content h with
    | some block => exact ensures_ends (ensures_accessCached hr₁ (hc.trans hcon))
    | none => exact ⟨hr₁, rfl, nofun⟩
  | missed h x =>
    obtain rfl : call = x.call h := hs
    apply ensures_oversizedRemoteAlloc
    · intro hsize
      refine ⟨hr, ⟨rfl, fun bs hA => ?_⟩, nofun⟩
      obtain ⟨hc, -⟩ | ⟨-, a, hl, hp⟩ := hr.some_cases hA
      · exact hM ▸ (hr.counted.put_same true hc rfl).2.1
      · rw [← hM, ← hp.size]
        exact hsize a hl
    · exact fun a hl => ensures_ends (ensures_accessOversized hr hl hv)
  | loading h x =>
    obtain ⟨rfl, hsize⟩ := hs
    refine wp_bind.mpr (ensures_loadToLocal hr ?_ ?_ ?_)
    · intro a hl
      obtain ⟨-, bs, hA, hp⟩ := hr.of_lookup hl
      rw [hM, hp.size]
      exact hsize bs hA
    · exact fun s' _ hr' => ⟨hr', rfl, nofun⟩
    · exact fun e s' hr' => ⟨.threw hr' _ e, nofun⟩
  | loaded h x =>
    obtain rfl : call = x.call h := hs
    apply ensures_cacheGet hr
    intro s₁ hc _ hr₁
    cases hcon : s.1.cache.content h with
    | some block => exact ensures_ends (ensures_accessCached hr₁ (hc.trans hcon))
    | none => exact ⟨.threw hr₁ _ _, nofun⟩

end Effects

section Linearization

variable {maxPayload M n : ℕ} {A₀ A A' : Contents} {s s' : Client × World} {call call' : Call}
  {t u : Phase ⊕ Outcome Err Value}

def endedCall (call : Call) : Phase ⊕ Outcome Err Value → List (Call × Outcome Err Value)
  | .inl _ => []
  | .inr out => [(call, out)]

def Relies (M n : ℕ) (A : Contents) (issued : ℕ) (call : Call) :
    Phase ⊕ Outcome Err Value → Prop
  | .inl φ => φ.Suits M n A issued call
  | .inr _ => True

def pendingHandle : Phase ⊕ Outcome Err Value → Option ℕ
  | .inl (.placing h _) => some h
  | _ => none

/-- The state between sections: the calls that have ended have taken effect in some order. -/
structure Linearized (maxPayload M n : ℕ) (A₀ : Contents) (call call' : Call)
    (t u : Phase ⊕ Outcome Err Value) (s : Client × World) : Prop where
  valid : call.Valid maxPayload M ∧ call.Issued n
  valid' : call'.Valid maxPayload M ∧ call'.Issued n
  issued : n ≤ s.1.nextLocalHandle
  apart : ∀ h ∈ pendingHandle t, h ∉ pendingHandle u
  effects : ∃ A tr, Allowed Contents.Step A₀ tr A ∧
    tr.Perm (endedCall call t ++ endedCall call' u) ∧ Holds maxPayload M A s ∧
    Relies M n A s.1.nextLocalHandle call t ∧ Relies M n A s.1.nextLocalHandle call' u

theorem Linearized.symm (hl : Linearized maxPayload M n A₀ call call' t u s) :
    Linearized maxPayload M n A₀ call' call u t s := by
  obtain ⟨A, tr, htr, hp, hs, ht, hu⟩ := hl.effects
  refine ⟨hl.valid', hl.valid, hl.issued, fun h hh hh' => hl.apart h hh' hh, A, tr, htr, ?_, hs,
    hu, ht⟩
  exact hp.trans List.perm_append_comm

/-- What a thread relies on is left alone by the other's sections. -/
theorem Relies.mono {i i' : ℕ} (hr : Relies M n A i call u) (hi : i ≤ i') (hc : call.Issued n)
    (hA : ∀ k bs, k < n ∨ k ∈ pendingHandle u → A' k = some bs →
      ∃ bs', A k = some bs' ∧ bs'.length = bs.length) : Relies M n A' i' call u := by
  cases u with
  | inr out => trivial
  | inl φ =>
    cases φ with
    | placing h size =>
      obtain ⟨hcall, hnone, hle, hlt⟩ := hr
      refine ⟨hcall, ?_, hle, Nat.lt_of_lt_of_le hlt hi⟩
      cases hA' : A' h with
      | none => rfl
      | some bs =>
        obtain ⟨bs', hsome, -⟩ := hA h bs (.inr rfl) hA'
        exact absurd (hnone.symm.trans hsome) nofun
    | loading h x =>
      obtain ⟨rfl, hsize⟩ := hr
      have hlt : h < n := by cases x <;> exact hc
      refine ⟨rfl, fun bs hb => ?_⟩
      obtain ⟨bs', hb', hlen⟩ := hA h bs (.inl hlt) hb
      exact hlen ▸ hsize bs' hb'
    | _ => exact hr

theorem Relies.pending {i h : ℕ} (hr : Relies M n A i call u) (hh : h ∈ pendingHandle u) :
    n ≤ h ∧ h < i := by
  rcases u with φ | out
  · cases φ with
    | placing k size =>
      obtain rfl : k = h := Option.some.inj hh
      exact hr.2.2
    | _ => cases hh
  · cases hh

theorem issued_runs {α : Type} {p : ClientM α} {out : Outcome Err α}
    (hrun : Runs (boundedEnv maxPayload) p s out s') :
    s.1.nextLocalHandle ≤ s'.1.nextLocalHandle := by
  refine hrun.invariant (I := fun s' => s.1.nextLocalHandle ≤ s'.1.nextLocalHandle) ?_
    (Nat.le_refl _)
  rintro o s₁ r s₂ hi ⟨he, -⟩
  cases o with
  | mem o =>
    have hc : s₂.1 = (s₁.1.perform o).2 := congrArg Prod.snd he.1
    rw [hc]
    apply Nat.le_trans hi
    cases o <;> simp [Client.perform]
  | net o => exact he.1.symm ▸ hi

theorem Linearized.stage {φ : Phase} {mid : Outcome Err (Phase ⊕ Value)}
    (hmax : maxPayload ≤ maxMessageSize)
    (hl : Linearized maxPayload M n A₀ call call' (.inl φ) u s)
    (hrun : Runs (boundedEnv maxPayload) φ.stage s mid s') :
    Linearized maxPayload M n A₀ call call' (next mid) u s' := by
  obtain ⟨A, tr, htr, hp, hs, ht, hu⟩ := hl.effects
  have hstage := ensures_stage hs.rep hs.maxBytes hl.issued hl.valid.1 ht
  obtain ⟨hw, hadv⟩ := (wp_iff.mp (hstage.bounded hmax hs.sound)).2 mid s' hrun
  have hi := issued_runs hrun
  have hM := (maxBytes_runs hrun).trans hs.maxBytes
  generalize next mid = t at hadv
  cases t with
  | inl φ' =>
    obtain ⟨hr, hsuits, hnew⟩ := hadv
    refine ⟨hl.valid, hl.valid', Nat.le_trans hl.issued hi, ?_, A, tr, htr, hp, ⟨hr, hw, hM⟩,
      hsuits, hu.mono hi hl.valid'.2 fun k bs _ hb => ⟨bs, hb, rfl⟩⟩
    intro h hh hh'
    cases φ' with
    | placing k size =>
      obtain rfl : k = h := Option.some.inj hh
      exact absurd (hu.pending hh').2 (Nat.not_lt.mpr (hnew k size rfl))
    | _ => cases hh
  | inr out =>
    obtain ⟨⟨A', hstep, hr⟩, hhandle⟩ := hadv
    refine ⟨hl.valid, hl.valid', Nat.le_trans hl.issued hi, nofun, A', tr ++ [(call, out)],
      htr.append (.cons hstep (.nil _)), ?_, ⟨hr, hw, hM⟩, trivial, ?_⟩
    · exact (hp.append_right [(call, out)]).trans List.perm_append_comm
    · apply hu.mono hi hl.valid'.2
      intro k bs hk hb
      refine hstep.length_eq (fun hout => ?_) hb
      obtain ⟨size, rfl⟩ := hhandle k hout
      rcases hk with hk | hk
      · exact absurd ht.2.2.1 (Nat.not_le.mpr hk)
      · exact hl.apart k rfl hk

theorem suits_start (hs : Call) (i : ℕ) : (Phase.start hs).Suits M n A i hs := by
  cases hs <;> rfl

/-- The runs in whole sections are interleavings of the calls. -/
theorem Staged.calls {σ : Type} {env : (o : Effect) → σ → o.Res → σ → Prop} {s s' : σ}
    {out out' : Outcome Err Value}
    (hrun : Staged env Phase.stage (.inl (.start call)) (.inl (.start call')) s out out' s') :
    Interleaves env call.exec call'.exec s out out' s' := by
  have h := hrun.interleaves Phase.rest_eq
  rwa [remaining, remaining, Phase.rest_start, Phase.rest_start] at h

end Linearization

section LostUpdate

theorem stage_runs {φ : Phase} {s : Client × World} (hs : OnlyZero s)
    (hc : (visited (clientHandler onePeer) φ.stage s).all boundsCheck) :
    Runs (boundedEnv maxMessageSize) φ.stage s (eval (clientHandler onePeer) φ.stage s).1
      (eval (clientHandler onePeer) φ.stage s).2 := by
  rw [List.all_eq_true] at hc
  exact runs_eval_within onePeer_allowed φ.stage hs fun s' hs' hi => hi.inBounds (hc s' hs')

def twoBytes : Client × World := (callOnePeer (Client.new 2, oneDaemon) (.allocate 2)).2

theorem twoBytes_runs : CallRuns (boundedEnv maxMessageSize) (Client.new 2, oneDaemon)
    [(.allocate 2, .ok (.handle 1))] twoBytes := by
  have hzero : OnlyZero (Client.new 2, oneDaemon) := ⟨rfl, fun _ _ => rfl⟩
  have hcheck : callsCheck (Client.new 2, oneDaemon) [.allocate 2] = true := by decide +kernel
  exact callOnePeer_runs hzero hcheck

def bothWritten : Client :=
  [.cacheGet 1, .cacheGet 1, .cachePut 1 [7, 0] true, .cachePut 1 [0, 8] true].foldl
    (fun c o => (c.perform o).2) twoBytes.1

end LostUpdate

end MemInfo
