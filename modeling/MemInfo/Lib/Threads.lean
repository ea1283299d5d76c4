import Mathlib.Logic.Function.Basic
import MemInfo.Lib.Prog

/-! # Threads that share a state

Any number of programs, each in a thread of its own. One step of the system is one effect of one
thread, or a move that the state makes by itself.
-/

namespace Lib.Prog

variable {ι : Type} [DecidableEq ι] {Op : Type} {Res : Op → Type} {ε α σ : Type}

/-- The threads and states that can be reached. What an effect does may depend on the thread. -/
inductive Reaches (env : ι → (o : Op) → σ → Res o → σ → Prop) (T : ι → Prog Op Res ε α) (s : σ) :
    (ι → Prog Op Res ε α) → σ → Prop where
  | start : Reaches env T s T s
  | step {T' : ι → Prog Op Res ε α} {s₁ s₂ : σ} {i : ι} {o : Op} {k : Res o → Prog Op Res ε α}
      {r : Res o} : Reaches env T s T' s₁ → T' i = .op o k → env i o s₁ r s₂ →
      Reaches env T s (Function.update T' i (k r)) s₂

variable {env : ι → (o : Op) → σ → Res o → σ → Prop} {T T' : ι → Prog Op Res ε α} {s s' : σ}

/-- What every effect of every thread preserves. -/
theorem Reaches.invariant {I : (ι → Prog Op Res ε α) → σ → Prop}
    (hstep : ∀ T s i o k r s', I T s → T i = .op o k → env i o s r s' →
      I (Function.update T i (k r)) s')
    (h : Reaches env T s T' s') (hi : I T s) : I T' s' := by
  induction h with
  | start => exact hi
  | step _ hop henv ih => exact hstep _ _ _ _ _ _ _ ih hop henv

def play (h : ι → (o : Op) → σ → Res o × σ) : List ι → (ι → Prog Op Res ε α) → σ →
    (ι → Prog Op Res ε α) × σ
  | [], T, s => (T, s)
  | i :: is, T, s =>
    match T i with
    | .op o k => play h is (Function.update T i (k (h i o s).1)) (h i o s).2
    | _ => (T, s)

/-- The effects that the threads perform are all as they should be. -/
def playable (h : ι → (o : Op) → σ → Res o × σ) (good : ι → Op → σ → Bool) :
    List ι → (ι → Prog Op Res ε α) → σ → Bool
  | [], _, _ => true
  | i :: is, T, s =>
    match T i with
    | .op o k =>
      good i o s && playable h good is (Function.update T i (k (h i o s).1)) (h i o s).2
    | _ => true

theorem reaches_play {h : ι → (o : Op) → σ → Res o × σ} {good : ι → Op → σ → Bool}
    (henv : ∀ i o s, good i o s → env i o s (h i o s).1 (h i o s).2) (is : List ι)
    (hreach : Reaches env T s T' s') (hp : playable h good is T' s') :
    Reaches env T s (play h is T' s').1 (play h is T' s').2 := by
  induction is generalizing T' s' with
  | nil => exact hreach
  | cons i is ih =>
    unfold play
    unfold playable at hp
    split at hp
    next o k hop =>
      obtain ⟨hgood, hrest⟩ := Bool.and_eq_true_iff.mp hp
      exact ih (hreach.step hop (henv i o s' hgood)) hrest
    next => exact hreach

theorem reaches_turns {h : ι → (o : Op) → σ → Res o × σ}
    (henv : ∀ i o s, env i o s (h i o s).1 (h i o s).2) (is : List ι)
    (hreach : Reaches env T s T' s') :
    Reaches env T s (play h is T' s').1 (play h is T' s').2 := by
  induction is generalizing T' s' with
  | nil => exact hreach
  | cons i is ih =>
    unfold play
    split
    next o k hop => exact ih (hreach.step hop (henv i o s'))
    next => exact hreach

/-- The threads and states that can be reached by steps that `ok` allows. That may depend on
where all the threads are. -/
inductive ReachesWhile (ok : (ι → Prog Op Res ε α) → σ → ι → Op → Prop)
    (env : ι → (o : Op) → σ → Res o → σ → Prop) (T : ι → Prog Op Res ε α) (s : σ) :
    (ι → Prog Op Res ε α) → σ → Prop where
  | start : ReachesWhile ok env T s T s
  | step {T' : ι → Prog Op Res ε α} {s₁ s₂ : σ} {i : ι} {o : Op} {k : Res o → Prog Op Res ε α}
      {r : Res o} : ReachesWhile ok env T s T' s₁ → T' i = .op o k → ok T' s₁ i o →
      env i o s₁ r s₂ → ReachesWhile ok env T s (Function.update T' i (k r)) s₂

section While

variable {ok : (ι → Prog Op Res ε α) → σ → ι → Op → Prop}

/-- The steps that the threads take as a schedule says are all allowed. -/
def playableWhile (h : ι → (o : Op) → σ → Res o × σ)
    (good : (ι → Prog Op Res ε α) → σ → ι → Op → Bool) :
    List ι → (ι → Prog Op Res ε α) → σ → Bool
  | [], _, _ => true
  | i :: is, T, s =>
    match T i with
    | .op o k =>
      good T s i o && playableWhile h good is (Function.update T i (k (h i o s).1)) (h i o s).2
    | _ => true

theorem reachesWhile_play {h : ι → (o : Op) → σ → Res o × σ}
    {good : (ι → Prog Op Res ε α) → σ → ι → Op → Bool}
    (hgood : ∀ T s i o, good T s i o → ok T s i o)
    (henv : ∀ i o s, env i o s (h i o s).1 (h i o s).2) (is : List ι)
    (hreach : ReachesWhile ok env T s T' s') (hp : playableWhile h good is T' s') :
    ReachesWhile ok env T s (play h is T' s').1 (play h is T' s').2 := by
  induction is generalizing T' s' with
  | nil => exact hreach
  | cons i is ih =>
    unfold play
    unfold playableWhile at hp
    split at hp
    next o k hop =>
      obtain ⟨hok, hrest⟩ := Bool.and_eq_true_iff.mp hp
      exact ih (hreach.step hop (hgood T' s' i o hok) (henv i o s')) hrest
    next => exact hreach

/-- Threads that keep to a contract, each with notes of its own. If the state agrees with the
notes, then it does so whatever allowed steps the threads take. -/
theorem ReachesWhile.contract {τ : Type} {contract : (o : Op) → τ → Res o → τ → Prop}
    {demand : ι → Op → τ → Prop} {I : (ι → Prog Op Res ε α) → (ι → τ) → σ → Prop} {t : ι → τ}
    (hstep : ∀ T t s i o k r s', I T t s → T i = .op o k → ok T s i o →
      (∀ j, wp contract (demand j) (T j) (fun _ _ => True) (t j)) → env i o s r s' →
      ∃ u, contract o (t i) r u ∧ I (Function.update T i (k r)) (Function.update t i u) s')
    (h : ReachesWhile ok env T s T' s') (hi : I T t s)
    (hp : ∀ i, wp contract (demand i) (T i) (fun _ _ => True) (t i)) :
    ∃ t', I T' t' s' ∧ ∀ i, wp contract (demand i) (T' i) (fun _ _ => True) (t' i) := by
  induction h with
  | start => exact ⟨t, hi, hp⟩
  | @step T' s₁ s₂ i o k r _ hop hok henv ih =>
    obtain ⟨t₁, hi₁, hp₁⟩ := ih
    obtain ⟨u, hu, hi₂⟩ := hstep T' t₁ s₁ i o k r s₂ hi₁ hop hok hp₁ henv
    refine ⟨_, hi₂, fun j => ?_⟩
    by_cases hj : j = i
    · subst hj
      have hpj := hp₁ j
      rw [hop] at hpj
      rw [Function.update_self, Function.update_self]
      exact hpj.2 r u hu
    · rw [Function.update_of_ne hj, Function.update_of_ne hj]
      exact hp₁ j

end While

def Active : Prog Op Res ε α → Prop
  | .op _ _ => True
  | _ => False

/-- The threads and states that can be reached if the state may also move by itself. What it may
do can depend on where the threads are. -/
inductive Evolves (env : ι → (o : Op) → σ → Res o → σ → Prop)
    (move : (ι → Prog Op Res ε α) → σ → σ → Prop) (T : ι → Prog Op Res ε α) (s : σ) :
    (ι → Prog Op Res ε α) → σ → Prop where
  | start : Evolves env move T s T s
  | step {T' : ι → Prog Op Res ε α} {s₁ s₂ : σ} {i : ι} {o : Op} {k : Res o → Prog Op Res ε α}
      {r : Res o} : Evolves env move T s T' s₁ → T' i = .op o k → env i o s₁ r s₂ →
      Evolves env move T s (Function.update T' i (k r)) s₂
  | move {T' : ι → Prog Op Res ε α} {s₁ s₂ : σ} : Evolves env move T s T' s₁ → move T' s₁ s₂ →
      Evolves env move T s T' s₂

variable {move : (ι → Prog Op Res ε α) → σ → σ → Prop} {s₁ s₂ : σ}

/-- A thread that runs to its end without interruption. -/
theorem Evolves.run {i : ι} {out : Outcome ε α} (h : Evolves env move T s T' s₁)
    (hrun : Runs (env i) (T' i) s₁ out s₂) :
    Evolves env move T s (Function.update T' i (ended out)) s₂ := by
  generalize hp : T' i = p at hrun
  induction p generalizing T' s₁ with
  | op o k ih =>
    obtain ⟨r, s₃, he, hrun⟩ := hrun
    have hend := ih r (h.step hp he) (Function.update_self ..) hrun
    rwa [Function.update_idem] at hend
  | _ =>
    obtain ⟨rfl, rfl⟩ := hrun
    rwa [Function.update_eq_iff.mpr ⟨hp.symm, fun _ _ => rfl⟩]

/-- Threads that keep to a contract: each has notes of its own, does nothing that `demand` does
not allow, and relies on no more than `contract` says of the answers. If the state agrees with
the notes, then it does so whatever the threads do. -/
theorem Evolves.contract {τ : Type} {contract : (o : Op) → τ → Res o → τ → Prop}
    {demand : Op → τ → Prop} {Q : ι → Outcome ε α → Prop} {I : (ι → τ) → σ → Prop} {t : ι → τ}
    (hstep : ∀ t s i o r s', I t s → demand o (t i) → env i o s r s' →
      ∃ u, contract o (t i) r u ∧ I (Function.update t i u) s')
    (hmove : ∀ T t s s', I t s → move T s s' → ∃ t', I t' s' ∧ ∀ i, Active (T i) → t' i = t i)
    (h : Evolves env move T s T' s') (hi : I t s)
    (hp : ∀ i, wp contract demand (T i) (fun out _ => Q i out) (t i)) :
    ∃ t', I t' s' ∧ ∀ i, wp contract demand (T' i) (fun out _ => Q i out) (t' i) := by
  induction h with
  | start => exact ⟨t, hi, hp⟩
  | @step T' s₁ s₂ i o k r _ hop henv ih =>
    obtain ⟨t₁, hi₁, hp₁⟩ := ih
    have hpi := hp₁ i
    rw [hop] at hpi
    obtain ⟨u, hu, hi₂⟩ := hstep t₁ s₁ i o r s₂ hi₁ hpi.1 henv
    refine ⟨_, hi₂, fun j => ?_⟩
    by_cases hj : j = i
    · subst hj
      rw [Function.update_self, Function.update_self]
      exact hpi.2 r u hu
    · rw [Function.update_of_ne hj, Function.update_of_ne hj]
      exact hp₁ j
  | @move T' s₁ s₂ _ hm ih =>
    obtain ⟨t₁, hi₁, hp₁⟩ := ih
    obtain ⟨t₂, hi₂, hsame⟩ := hmove T' t₁ s₁ s₂ hi₁ hm
    refine ⟨t₂, hi₂, fun j => ?_⟩
    have hpj := hp₁ j
    cases hT : T' j with
    | op o k =>
      rw [hsame j (by rw [hT]; trivial), ← hT]
      exact hpj
    | _ =>
      rw [hT] at hpj
      exact hpj

end Lib.Prog
