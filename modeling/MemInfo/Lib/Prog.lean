import Mathlib.Logic.Basic
import Mathlib.Tactic.Common

/-! # Programs over effects

A program asks its environment to perform effects, one after the other, and may throw
and catch. The environment is a relation: what it may answer and what state it may move
to. A program may also end for good without a result, which nothing catches.
-/

namespace Lib

inductive Abort where
  | diverges
  | undefined
  deriving DecidableEq, Repr

inductive Prog (Op : Type) (Res : Op → Type) (ε α : Type) where
  | pure (a : α)
  | throw (e : ε)
  | abort (x : Abort)
  | op (o : Op) (k : Res o → Prog Op Res ε α)

inductive Outcome (ε α : Type) where
  | ok (a : α)
  | threw (e : ε)
  | aborted (x : Abort)
  deriving DecidableEq, Repr

variable {Op : Type} {Res : Op → Type} {ε α β σ τ : Type}

namespace Prog

/-- The program that ends as `out` says. -/
def ended : Outcome ε α → Prog Op Res ε α
  | .ok a => .pure a
  | .threw e => .throw e
  | .aborted x => .abort x

def bind : Prog Op Res ε α → (α → Prog Op Res ε β) → Prog Op Res ε β
  | .pure a, f => f a
  | .throw e, _ => .throw e
  | .abort x, _ => .abort x
  | .op o k, f => .op o fun r => bind (k r) f

/-- Run `h` on the exception, if there is one. -/
def catchWith : Prog Op Res ε α → (ε → Prog Op Res ε α) → Prog Op Res ε α
  | .pure a, _ => .pure a
  | .throw e, h => h e
  | .abort x, _ => .abort x
  | .op o k, h => .op o fun r => catchWith (k r) h

instance : Monad (Prog Op Res ε) where
  pure := .pure
  bind := bind

instance : LawfulMonad (Prog Op Res ε) :=
  LawfulMonad.mk' (Prog Op Res ε)
    (fun p => by
      change p.bind .pure = p
      induction p with
      | op o k ih => exact congrArg (Prog.op o) (funext ih)
      | _ => rfl)
    (fun _ _ => rfl)
    (fun p f g => by
      change (p.bind f).bind g = p.bind fun a => (f a).bind g
      induction p with
      | op o k ih => exact congrArg (Prog.op o) (funext ih)
      | _ => rfl)

instance : MonadExcept ε (Prog Op Res ε) where
  throw := .throw
  tryCatch := catchWith

def perform (o : Op) : Prog Op Res ε (Res o) := .op o .pure

def Runs (env : (o : Op) → σ → Res o → σ → Prop) :
    Prog Op Res ε α → σ → Outcome ε α → σ → Prop
  | .pure a, s, out, s' => out = .ok a ∧ s' = s
  | .throw e, s, out, s' => out = .threw e ∧ s' = s
  | .abort x, s, out, s' => out = .aborted x ∧ s' = s
  | .op o k, s, out, s' => ∃ r s₁, env o s r s₁ ∧ Runs env (k r) s₁ out s'

def eval (h : (o : Op) → σ → Res o × σ) : Prog Op Res ε α → σ → Outcome ε α × σ
  | .pure a, s => (.ok a, s)
  | .throw e, s => (.threw e, s)
  | .abort x, s => (.aborted x, s)
  | .op o k, s => eval h (k (h o s).1) (h o s).2

/-- Every effect in the runs of a program is safe in the state it is performed in. -/
def Always (env : (o : Op) → σ → Res o → σ → Prop) (safe : Op → σ → Prop) :
    Prog Op Res ε α → σ → Prop
  | .pure _, _ => True
  | .throw _, _ => True
  | .abort _, _ => True
  | .op o k, s => safe o s ∧ ∀ r s₁, env o s r s₁ → Always env safe (k r) s₁

/-- What has to hold before a program for its effects to be safe and for `Q` to hold after
each of its runs. -/
def wp (env : (o : Op) → σ → Res o → σ → Prop) (safe : Op → σ → Prop) :
    Prog Op Res ε α → (Outcome ε α → σ → Prop) → σ → Prop
  | .pure a, Q, s => Q (.ok a) s
  | .throw e, Q, s => Q (.threw e) s
  | .abort x, Q, s => Q (.aborted x) s
  | .op o k, Q, s => safe o s ∧ ∀ r s₁, env o s r s₁ → wp env safe (k r) Q s₁

variable {env : (o : Op) → σ → Res o → σ → Prop} {safe : Op → σ → Prop}
  {Q Q' : Outcome ε α → σ → Prop} {s s' : σ} {p : Prog Op Res ε α} {out : Outcome ε α}

def andThen (env : (o : Op) → σ → Res o → σ → Prop) (safe : Op → σ → Prop)
    (f : α → Prog Op Res ε β) (Q : Outcome ε β → σ → Prop) : Outcome ε α → σ → Prop
  | .ok a, s => wp env safe (f a) Q s
  | .threw e, s => Q (.threw e) s
  | .aborted x, s => Q (.aborted x) s

def orCatch (env : (o : Op) → σ → Res o → σ → Prop) (safe : Op → σ → Prop)
    (h : ε → Prog Op Res ε α) (Q : Outcome ε α → σ → Prop) : Outcome ε α → σ → Prop
  | .ok a, s => Q (.ok a) s
  | .threw e, s => wp env safe (h e) Q s
  | .aborted x, s => Q (.aborted x) s

theorem wp_bind {f : α → Prog Op Res ε β} {Q : Outcome ε β → σ → Prop} :
    wp env safe (p >>= f) Q s ↔ wp env safe p (andThen env safe f Q) s := by
  induction p generalizing s with
  | op o k ih =>
    exact and_congr_right' (forall_congr' fun r => forall_congr' fun s₁ =>
      imp_congr_right fun _ => ih r)
  | _ => rfl

theorem wp_tryCatch {h : ε → Prog Op Res ε α} :
    wp env safe (MonadExcept.tryCatch p h) Q s ↔ wp env safe p (orCatch env safe h Q) s := by
  induction p generalizing s with
  | op o k ih =>
    exact and_congr_right' (forall_congr' fun r => forall_congr' fun s₁ =>
      imp_congr_right fun _ => ih r)
  | _ => rfl

theorem wp_mono (h : wp env safe p Q s) (hQ : ∀ out s', Q out s' → Q' out s') :
    wp env safe p Q' s := by
  induction p generalizing s with
  | pure a => exact hQ _ _ h
  | throw e => exact hQ _ _ h
  | abort x => exact hQ _ _ h
  | op o k ih => exact ⟨h.1, fun r s₁ he => ih r (h.2 r s₁ he)⟩

theorem wp_and (h : wp env safe p Q s) (h' : wp env safe p Q' s) :
    wp env safe p (fun out s' => Q out s' ∧ Q' out s') s := by
  induction p generalizing s with
  | op o k ih => exact ⟨h.1, fun r s₁ he => ih r (h.2 r s₁ he) (h'.2 r s₁ he)⟩
  | _ => exact ⟨h, h'⟩

theorem Always.mono {safe' : Op → σ → Prop} (h : Always env safe p s)
    (hs : ∀ o s, safe o s → safe' o s) : Always env safe' p s := by
  induction p generalizing s with
  | op o k ih => exact ⟨hs o s h.1, fun r s₁ he => ih r (h.2 r s₁ he)⟩
  | _ => trivial

theorem always_true : Always env (fun _ _ => True) p s := by
  induction p generalizing s with
  | op o k ih => exact ⟨trivial, fun r s₁ _ => ih r⟩
  | _ => trivial

/-- The preconditions are the states from which every effect is safe and every run ends
well. -/
theorem wp_iff : wp env safe p Q s ↔
    Always env safe p s ∧ ∀ out s', Runs env p s out s' → Q out s' := by
  induction p generalizing s with
  | op o k ih =>
    constructor
    · rintro ⟨hs, h⟩
      refine ⟨⟨hs, fun r s₁ he => ((ih r).mp (h r s₁ he)).1⟩, ?_⟩
      rintro out s' ⟨r, s₁, he, hr⟩
      exact ((ih r).mp (h r s₁ he)).2 out s' hr
    · rintro ⟨⟨hs, ha⟩, h⟩
      refine ⟨hs, fun r s₁ he => (ih r).mpr ⟨ha r s₁ he, fun out s' hr => ?_⟩⟩
      exact h out s' ⟨r, s₁, he, hr⟩
  | _ => exact ⟨fun h => ⟨trivial, fun _ _ ⟨ho, hs⟩ => ho ▸ hs ▸ h⟩, fun h => h.2 _ _ ⟨rfl, rfl⟩⟩

/-- What every effect preserves holds at the end of a run. -/
theorem Runs.invariant {I : σ → Prop} (henv : ∀ o s r s', I s → env o s r s' → I s')
    (hrun : Runs env p s out s') (hi : I s) : I s' := by
  induction p generalizing s with
  | op o k ih =>
    obtain ⟨r, s₁, he, hrun⟩ := hrun
    exact ih r hrun (henv o s r s₁ hi he)
  | _ => exact hrun.2 ▸ hi

theorem Runs.mono {env' : (o : Op) → σ → Res o → σ → Prop}
    (henv : ∀ o s r s', env o s r s' → env' o s r s') (hrun : Runs env p s out s') :
    Runs env' p s out s' := by
  induction p generalizing s with
  | op o k ih =>
    obtain ⟨r, s₁, he, hrun⟩ := hrun
    exact ⟨r, s₁, henv o s r s₁ he, ih r hrun⟩
  | _ => exact hrun

/-- A program comes to an end if every effect is answered. -/
theorem exists_runs (h : ∀ o s, ∃ r s', env o s r s') (p : Prog Op Res ε α) (s : σ) :
    ∃ out s', Runs env p s out s' := by
  induction p generalizing s with
  | op o k ih =>
    obtain ⟨r, s₁, he⟩ := h o s
    obtain ⟨out, s', hr⟩ := ih r s₁
    exact ⟨out, s', r, s₁, he, hr⟩
  | _ => exact ⟨_, s, rfl, rfl⟩

/-- A functional environment that the relation allows gives one of the runs. -/
theorem runs_eval {h : (o : Op) → σ → Res o × σ} {I : σ → Prop}
    (henv : ∀ o s, I s → env o s (h o s).1 (h o s).2 ∧ I (h o s).2) (p : Prog Op Res ε α)
    (hi : I s) : Runs env p s (eval h p s).1 (eval h p s).2 ∧ I (eval h p s).2 := by
  induction p generalizing s with
  | op o k ih =>
    obtain ⟨he, hi₁⟩ := henv o s hi
    obtain ⟨hr, hi'⟩ := ih _ hi₁
    exact ⟨⟨_, _, he, hr⟩, hi'⟩
  | _ => exact ⟨⟨rfl, rfl⟩, hi⟩

/-- The states that the run in a functional environment passes through. -/
def visited (h : (o : Op) → σ → Res o × σ) : Prog Op Res ε α → σ → List σ
  | .op o k, s => (h o s).2 :: visited h (k (h o s).1) (h o s).2
  | _, _ => []

theorem runs_eval_within {h : (o : Op) → σ → Res o × σ} {I P : σ → Prop}
    (henv : ∀ o s, I s → env o s (h o s).1 (h o s).2 ∧ I (h o s).2) (p : Prog Op Res ε α)
    (hi : I s) (hP : ∀ s' ∈ visited h p s, I s' → P s') :
    Runs (fun o s r s' => env o s r s' ∧ P s') p s (eval h p s).1 (eval h p s).2 := by
  induction p generalizing s with
  | op o k ih =>
    obtain ⟨he, hi₁⟩ := henv o s hi
    exact ⟨_, _, ⟨he, hP _ List.mem_cons_self hi₁⟩,
      ih _ hi₁ fun s' hs' => hP s' (List.mem_cons_of_mem _ hs')⟩
  | _ => exact ⟨rfl, rfl⟩

def checks (h : (o : Op) → σ → Res o × σ) (good : Op → σ → Bool) : Prog Op Res ε α → σ → Bool
  | .op o k, s => good o s && checks h good (k (h o s).1) (h o s).2
  | _, _ => true

theorem runs_of_checks {h : (o : Op) → σ → Res o × σ} {good : Op → σ → Bool}
    (henv : ∀ o s, good o s → env o s (h o s).1 (h o s).2) (p : Prog Op Res ε α)
    (hp : checks h good p s) : Runs env p s (eval h p s).1 (eval h p s).2 := by
  induction p generalizing s with
  | op o k ih =>
    obtain ⟨ho, hk⟩ := Bool.and_eq_true_iff.mp hp
    exact ⟨_, _, henv o s ho, ih _ hk⟩
  | _ => exact ⟨rfl, rfl⟩

theorem eval_perform_bind {h : (o : Op) → σ → Res o × σ} {o : Op} {f : Res o → Prog Op Res ε β} :
    eval h (perform o >>= f) s = eval h (f (h o s).1) (h o s).2 := rfl

theorem eval_bind {h : (o : Op) → σ → Res o × σ} {f : α → Prog Op Res ε β} :
    eval h (p >>= f) s =
      match eval h p s with
      | (.ok a, s') => eval h (f a) s'
      | (.threw e, s') => (.threw e, s')
      | (.aborted x, s') => (.aborted x, s') := by
  induction p generalizing s with
  | op o k ih => exact ih _
  | _ => rfl

theorem eval_tryCatch {h : (o : Op) → σ → Res o × σ} {f : ε → Prog Op Res ε α} :
    eval h (MonadExcept.tryCatch p f) s =
      match eval h p s with
      | (.ok a, s') => (.ok a, s')
      | (.threw e, s') => eval h (f e) s'
      | (.aborted x, s') => (.aborted x, s') := by
  induction p generalizing s with
  | op o k ih => exact ih _
  | _ => rfl

theorem eval_bind_of_ok {h : (o : Op) → σ → Res o × σ} {f : α → Prog Op Res ε β} {a : α}
    (hp : eval h p s = (.ok a, s')) : eval h (p >>= f) s = eval h (f a) s' := by
  rw [eval_bind, hp]

/-- Preconditions are carried over by a map of states that respects single effects. -/
theorem wp_simulate {env' : (o : Op) → τ → Res o → τ → Prop} {safe' : Op → τ → Prop}
    {I : σ → Prop} {f : σ → τ} {Q : Outcome ε α → τ → Prop}
    (hsim : ∀ o s r s', I s → env o s r s' → I s' ∧ env' o (f s) r (f s'))
    (hsafe : ∀ o s, safe' o (f s) → safe o s) (hi : I s) (h : wp env' safe' p Q (f s)) :
    wp env safe p (fun out s' => I s' ∧ Q out (f s')) s := by
  induction p generalizing s with
  | op o k ih =>
    refine ⟨hsafe o s h.1, fun r s₁ he => ?_⟩
    obtain ⟨hi₁, he'⟩ := hsim o s r s₁ hi he
    exact ih r hi₁ (h.2 r (f s₁) he')
  | _ => exact ⟨hi, h⟩

theorem Runs.simulate {env' : (o : Op) → τ → Res o → τ → Prop} {safe' : Op → τ → Prop}
    {R : σ → τ → Prop} {t : τ} {Q : Outcome ε α → τ → Prop}
    (hsim : ∀ o s t r s', R s t → safe' o t → env o s r s' → ∃ t', env' o t r t' ∧ R s' t')
    (hrun : Runs env p s out s') (hR : R s t) (h : wp env' safe' p Q t) :
    ∃ t', R s' t' ∧ Q out t' := by
  induction p generalizing s t with
  | op o k ih =>
    obtain ⟨r, s₁, he, hrun⟩ := hrun
    obtain ⟨t₁, he', hR₁⟩ := hsim o s t r s₁ hR h.1 he
    exact ih r hrun hR₁ (h.2 r t₁ he')
  | _ =>
    obtain ⟨rfl, rfl⟩ := hrun
    exact ⟨t, hR, h⟩

section Preservation

/-- Whatever state in `I` a program is started in, its effects are safe and it ends in `I`. -/
def Preserves (env : (o : Op) → σ → Res o → σ → Prop) (safe : Op → σ → Prop) (I : σ → Prop)
    (p : Prog Op Res ε α) : Prop :=
  ∀ s, I s → wp env safe p (fun _ s' => I s') s

variable {I : σ → Prop}

theorem Preserves.bind {f : α → Prog Op Res ε β} (hp : Preserves env safe I p)
    (hf : ∀ a, Preserves env safe I (f a)) : Preserves env safe I (p >>= f) := by
  intro s hi
  refine wp_bind.mpr (wp_mono (hp s hi) fun out s' hi' => ?_)
  cases out with
  | ok a => exact hf a s' hi'
  | threw e => exact hi'
  | aborted x => exact hi'

theorem Preserves.tryCatch {h : ε → Prog Op Res ε α} (hp : Preserves env safe I p)
    (hh : ∀ e, Preserves env safe I (h e)) : Preserves env safe I (MonadExcept.tryCatch p h) := by
  intro s hi
  refine wp_tryCatch.mpr (wp_mono (hp s hi) fun out s' hi' => ?_)
  cases out with
  | ok a => exact hi'
  | threw e => exact hh e s' hi'
  | aborted x => exact hi'

theorem preserves_pure (a : α) : Preserves env safe I (.pure a : Prog Op Res ε α) := fun _ hi => hi

theorem preserves_throw (e : ε) : Preserves env safe I (.throw e : Prog Op Res ε α) :=
  fun _ hi => hi

theorem preserves_abort (x : Abort) : Preserves env safe I (.abort x : Prog Op Res ε α) :=
  fun _ hi => hi

end Preservation

section Traces

abbrev Event (Op : Type) (Res : Op → Type) := (o : Op) × Res o

def logged (env : (o : Op) → σ → Res o → σ → Prop) (o : Op) (s : σ × List (Event Op Res))
    (r : Res o) (s' : σ × List (Event Op Res)) : Prop :=
  env o s.1 r s'.1 ∧ s'.2 = s.2 ++ [⟨o, r⟩]

def loggedHandler (h : (o : Op) → σ → Res o × σ) (o : Op) (s : σ × List (Event Op Res)) :
    Res o × (σ × List (Event Op Res)) :=
  ((h o s.1).1, (h o s.1).2, s.2 ++ [⟨o, (h o s.1).1⟩])

/-- The traces of a program whose effects are answered as `ans` allows. -/
def Emits (ans : (o : Op) → Res o → Prop) :
    Prog Op Res ε α → Outcome ε α → List (Event Op Res) → Prop
  | .pure a, out, tr => out = .ok a ∧ tr = []
  | .throw e, out, tr => out = .threw e ∧ tr = []
  | .abort x, out, tr => out = .aborted x ∧ tr = []
  | .op o k, out, tr => ∃ r tr', ans o r ∧ Emits ans (k r) out tr' ∧ tr = ⟨o, r⟩ :: tr'

/-- Every effect that a program performs is in `P`, and every abort in `A`. -/
def Confined (P : Op → Prop) (A : Abort → Prop) : Prog Op Res ε α → Prop
  | .pure _ => True
  | .throw _ => True
  | .abort x => A x
  | .op o k => P o ∧ ∀ r, Confined P A (k r)

/-- Every value that a program returns is in `V`, if its effects are answered as `ans`
allows. -/
def Yields (ans : (o : Op) → Res o → Prop) (V : α → Prop) : Prog Op Res ε α → Prop
  | .pure a => V a
  | .throw _ => True
  | .abort _ => True
  | .op o k => ∀ r, ans o r → Yields ans V (k r)

variable {ans : (o : Op) → Res o → Prop} {tr log log' : List (Event Op Res)}
  {P : Op → Prop} {A : Abort → Prop} {V : α → Prop} {f : α → Prog Op Res ε β}

/-- The log of a run is a trace. -/
theorem Runs.emits {I : σ → Prop} (hans : ∀ o s r s', I s → env o s r s' → I s' ∧ ans o r)
    (hi : I s) (hr : Runs (logged env) p (s, log) out (s', log')) :
    ∃ tr, log' = log ++ tr ∧ Emits ans p out tr := by
  induction p generalizing s log with
  | pure a =>
    obtain ⟨rfl, hs⟩ := hr
    exact ⟨[], by simpa using congrArg Prod.snd hs, rfl, rfl⟩
  | throw e =>
    obtain ⟨rfl, hs⟩ := hr
    exact ⟨[], by simpa using congrArg Prod.snd hs, rfl, rfl⟩
  | abort x =>
    obtain ⟨rfl, hs⟩ := hr
    exact ⟨[], by simpa using congrArg Prod.snd hs, rfl, rfl⟩
  | op o k ih =>
    obtain ⟨r, ⟨s₁, log₁⟩, ⟨he, hlog⟩, hr⟩ := hr
    obtain ⟨hi₁, ha⟩ := hans o s r s₁ hi he
    obtain ⟨tr, rfl, htr⟩ := ih r hi₁ hr
    obtain rfl : log₁ = log ++ [⟨o, r⟩] := hlog
    exact ⟨⟨o, r⟩ :: tr, List.append_assoc .., r, tr, ha, htr, rfl⟩

theorem Runs.emits_any (hr : Runs (logged env) p (s, log) out (s', log')) :
    ∃ tr, log' = log ++ tr ∧ Emits (fun _ _ => True) p out tr :=
  Runs.emits (I := fun _ => True) (fun _ _ _ _ _ _ => ⟨trivial, trivial⟩) trivial hr

theorem emits_perform_bind {o : Op} {f : Res o → Prog Op Res ε β} {out : Outcome ε β}
    (h : Emits ans (perform o >>= f) out tr) :
    ∃ r tr', ans o r ∧ Emits ans (f r) out tr' ∧ tr = ⟨o, r⟩ :: tr' := h

theorem emits_bind {out : Outcome ε β} (h : Emits ans (p >>= f) out tr) :
    (∃ a tr₁ tr₂, Emits ans p (.ok a) tr₁ ∧ Emits ans (f a) out tr₂ ∧ tr = tr₁ ++ tr₂) ∨
    (∃ e, Emits ans p (.threw e) tr ∧ out = .threw e) ∨
    ∃ x, Emits ans p (.aborted x) tr ∧ out = .aborted x := by
  induction p generalizing tr with
  | pure a => exact .inl ⟨a, [], tr, ⟨rfl, rfl⟩, h, rfl⟩
  | throw e => exact .inr (.inl ⟨e, ⟨rfl, h.2⟩, h.1⟩)
  | abort x => exact .inr (.inr ⟨x, ⟨rfl, h.2⟩, h.1⟩)
  | op o k ih =>
    obtain ⟨r, tr', ha, h, rfl⟩ := h
    obtain ⟨a, tr₁, tr₂, h₁, h₂, rfl⟩ | ⟨e, h₁, rfl⟩ | ⟨x, h₁, rfl⟩ := ih r h
    · exact .inl ⟨a, ⟨o, r⟩ :: tr₁, tr₂, ⟨r, tr₁, ha, h₁, rfl⟩, h₂, rfl⟩
    · exact .inr (.inl ⟨e, ⟨r, tr', ha, h₁, rfl⟩, rfl⟩)
    · exact .inr (.inr ⟨x, ⟨r, tr', ha, h₁, rfl⟩, rfl⟩)

theorem emits_bind_ok {b : β} (h : Emits ans (p >>= f) (.ok b) tr) :
    ∃ a tr₁ tr₂, Emits ans p (.ok a) tr₁ ∧ Emits ans (f a) (.ok b) tr₂ ∧ tr = tr₁ ++ tr₂ := by
  obtain h | ⟨e, -, he⟩ | ⟨x, -, hx⟩ := emits_bind h
  · exact h
  · cases he
  · cases hx

theorem emits_bind_of_returns {out : Outcome ε β} (h : Emits ans (p >>= f) out tr)
    (hp : ∀ {out tr}, Emits ans p out tr → ∃ a, out = .ok a) :
    ∃ a tr₁ tr₂, Emits ans p (.ok a) tr₁ ∧ Emits ans (f a) out tr₂ ∧ tr = tr₁ ++ tr₂ := by
  obtain h | ⟨e, he, -⟩ | ⟨x, hx, -⟩ := emits_bind h
  · exact h
  · obtain ⟨a, ha⟩ := hp he
    cases ha
  · obtain ⟨a, ha⟩ := hp hx
    cases ha

theorem emits_tryCatch {h : ε → Prog Op Res ε α}
    (he : Emits ans (MonadExcept.tryCatch p h) out tr) :
    (∃ e tr₁ tr₂, Emits ans p (.threw e) tr₁ ∧ Emits ans (h e) out tr₂ ∧ tr = tr₁ ++ tr₂) ∨
    Emits ans p out tr ∧ ∀ e, out ≠ .threw e := by
  induction p generalizing tr with
  | pure a => exact .inr ⟨he, by simp [he.1]⟩
  | throw e => exact .inl ⟨e, [], tr, ⟨rfl, rfl⟩, he, rfl⟩
  | abort x => exact .inr ⟨he, by simp [he.1]⟩
  | op o k ih =>
    obtain ⟨r, tr', ha, he, rfl⟩ := he
    obtain ⟨e, tr₁, tr₂, h₁, h₂, rfl⟩ | ⟨h₁, hne⟩ := ih r he
    · exact .inl ⟨e, ⟨o, r⟩ :: tr₁, tr₂, ⟨r, tr₁, ha, h₁, rfl⟩, h₂, rfl⟩
    · exact .inr ⟨⟨r, tr', ha, h₁, rfl⟩, hne⟩

theorem confined_perform {o : Op} (h : P o) :
    Confined P A (perform o : Prog Op Res ε (Res o)) := ⟨h, fun _ => trivial⟩

theorem Confined.bind (hp : Confined P A p) (hf : ∀ a, Confined P A (f a)) :
    Confined P A (p >>= f) := by
  induction p with
  | pure a => exact hf a
  | throw e => trivial
  | abort x => exact hp
  | op o k ih => exact ⟨hp.1, fun r => ih r (hp.2 r)⟩

theorem Confined.tryCatch {h : ε → Prog Op Res ε α} (hp : Confined P A p)
    (hh : ∀ e, Confined P A (h e)) : Confined P A (MonadExcept.tryCatch p h) := by
  induction p with
  | pure a => trivial
  | throw e => exact hh e
  | abort x => exact hp
  | op o k ih => exact ⟨hp.1, fun r => ih r (hp.2 r)⟩

/-- What the effects of a program keep holds after each of its runs. -/
theorem Confined.wp_invariant {I : σ → Prop} (hp : Confined P A p)
    (hsafe : ∀ o s, P o → I s → safe o s)
    (hI : ∀ o s r s', P o → I s → env o s r s' → I s') (hi : I s) :
    wp env safe p (fun _ s' => I s') s := by
  induction p generalizing s with
  | op o k ih =>
    obtain ⟨ho, hk⟩ := hp
    exact ⟨hsafe o s ho hi, fun r s₁ he => ih r (hk r) (hI o s r s₁ ho hi he)⟩
  | _ => exact hi

theorem Confined.wp_frame {env' : (o : Op) → σ × τ → Res o → σ × τ → Prop} {t : τ}
    (hp : Confined P A p)
    (henv : ∀ o s r x, P o → env' o (s, t) r x → env o s r x.1 ∧ x.2 = t)
    (h : wp env safe p Q s) :
    wp env' (fun o x => safe o x.1) p (fun out x => Q out x.1 ∧ x.2 = t) (s, t) := by
  induction p generalizing s with
  | op o k ih =>
    refine ⟨h.1, ?_⟩
    rintro r ⟨s₁, t₁⟩ he'
    obtain ⟨he, rfl⟩ := henv o s r _ hp.1 he'
    exact ih r (hp.2 r) (h.2 r s₁ he)
  | _ => exact ⟨h, rfl⟩

theorem Confined.mono {P' : Op → Prop} {A' : Abort → Prop} (hp : Confined P A p)
    (hP : ∀ o, P o → P' o) (hA : ∀ x, A x → A' x) : Confined P' A' p := by
  induction p with
  | pure a => trivial
  | throw e => trivial
  | abort x => exact hA x hp
  | op o k ih => exact ⟨hP o hp.1, fun r => ih r (hp.2 r)⟩

theorem Emits.effects (h : Emits ans p out tr) (hc : Confined P A p) : ∀ e ∈ tr, P e.1 := by
  induction p generalizing tr with
  | pure a => simp [h.2]
  | throw e => simp [h.2]
  | abort x => simp [h.2]
  | op o k ih =>
    obtain ⟨r, tr', -, h, rfl⟩ := h
    rintro e (- | ⟨-, he⟩)
    · exact hc.1
    · exact ih r h (hc.2 r) e he

theorem Emits.abort {x : Abort} (h : Emits ans p (.aborted x) tr) (hc : Confined P A p) : A x := by
  induction p generalizing tr with
  | pure a => cases h.1
  | throw e => cases h.1
  | abort y =>
    cases h.1
    exact hc
  | op o k ih =>
    obtain ⟨r, tr', -, h, rfl⟩ := h
    exact ih r h (hc.2 r)

theorem Yields.bind {U : β → Prop} (hp : Yields ans V p) (hf : ∀ a, V a → Yields ans U (f a)) :
    Yields ans U (p >>= f) := by
  induction p with
  | pure a => exact hf a hp
  | throw e => trivial
  | abort x => trivial
  | op o k ih => exact fun r hr => ih r (hp r hr)

theorem Yields.tryCatch {h : ε → Prog Op Res ε α} (hp : Yields ans V p)
    (hh : ∀ e, Yields ans V (h e)) : Yields ans V (MonadExcept.tryCatch p h) := by
  induction p with
  | pure a => exact hp
  | throw e => exact hh e
  | abort x => trivial
  | op o k ih => exact fun r hr => ih r (hp r hr)

theorem yields_true : Yields ans (fun _ => True) p := by
  induction p with
  | op o k ih => exact fun r _ => ih r
  | _ => trivial

theorem Yields.wp_and (hy : Yields ans V p) (hans : ∀ o s r s', env o s r s' → ans o r)
    (h : wp env safe p Q s) :
    wp env safe p (fun out s' => Q out s' ∧ ∀ a, out = .ok a → V a) s := by
  induction p generalizing s with
  | pure a =>
    refine ⟨h, ?_⟩
    rintro _ ⟨⟩
    exact hy
  | throw e => exact ⟨h, nofun⟩
  | abort x => exact ⟨h, nofun⟩
  | op o k ih => exact ⟨h.1, fun r s₁ he => ih r (hy r (hans o s r s₁ he)) (h.2 r s₁ he)⟩

theorem Yields.preserves_bind {I : σ → Prop} (hy : Yields ans V p)
    (hans : ∀ o s r s', env o s r s' → ans o r) (hp : Preserves env safe I p)
    (hf : ∀ a, V a → Preserves env safe I (f a)) : Preserves env safe I (p >>= f) := by
  intro s hi
  refine wp_bind.mpr (wp_mono (hy.wp_and hans (hp s hi)) ?_)
  rintro out s' ⟨hi', hv⟩
  cases out with
  | ok a => exact hf a (hv a rfl) s' hi'
  | threw e => exact hi'
  | aborted x => exact hi'

theorem Confined.wp_safe (hp : Confined P A p) (hsafe : ∀ o s, P o → safe o s)
    (h : wp env (fun _ _ => True) p Q s) : wp env safe p Q s := by
  induction p generalizing s with
  | op o k ih => exact ⟨hsafe o s hp.1, fun r s₁ he => ih r (hp.2 r) (h.2 r s₁ he)⟩
  | _ => exact h

theorem Always.logged (ha : Always env (fun o _ => P o) p s)
    (hr : Runs (Prog.logged env) p (s, log) out (s', log')) :
    Runs env p s out s' ∧ ∀ e ∈ log', e ∈ log ∨ P e.1 := by
  induction p generalizing s log with
  | op o k ih =>
    obtain ⟨r, ⟨s₁, log₁⟩, ⟨he, rfl⟩, hr⟩ := hr
    obtain ⟨hr', hlog⟩ := ih r (ha.2 r s₁ he) hr
    refine ⟨⟨r, s₁, he, hr'⟩, fun e hm => ?_⟩
    rcases hlog e hm with hm | hm
    · rcases List.mem_append.mp hm with hm | hm
      · exact .inl hm
      · obtain rfl := List.mem_singleton.mp hm
        exact .inr ha.1
    · exact .inr hm
  | _ =>
    obtain ⟨rfl, hs⟩ := hr
    obtain ⟨rfl, rfl⟩ := Prod.mk.inj hs
    exact ⟨⟨rfl, rfl⟩, fun e hm => .inl hm⟩

end Traces

end Prog

end Lib
