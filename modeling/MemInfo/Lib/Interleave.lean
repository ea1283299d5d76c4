import Mathlib.Data.Sum.Basic
import MemInfo.Lib.Prog

/-! # Two programs that share a state

Each effect is one atomic step. A program may be made of stages; the runs in which no stage
is interrupted are some of the interleavings, and what every stage preserves holds at their
end.
-/

namespace Lib.Prog

variable {Op : Type} {Res : Op → Type} {ε α β σ Φ : Type} {env : (o : Op) → σ → Res o → σ → Prop}

/-- The runs of two programs, step by step, until both have ended. -/
inductive Interleaves (env : (o : Op) → σ → Res o → σ → Prop) :
    Prog Op Res ε α → Prog Op Res ε α → σ → Outcome ε α → Outcome ε α → σ → Prop where
  | done (out out' : Outcome ε α) (s : σ) : Interleaves env (ended out) (ended out') s out out' s
  | left {o : Op} {k : Res o → Prog Op Res ε α} {q : Prog Op Res ε α} {r : Res o} {s s₁ s' : σ}
      {out out' : Outcome ε α} : env o s r s₁ → Interleaves env (k r) q s₁ out out' s' →
      Interleaves env (.op o k) q s out out' s'
  | right {o : Op} {k : Res o → Prog Op Res ε α} {p : Prog Op Res ε α} {r : Res o} {s s₁ s' : σ}
      {out out' : Outcome ε α} : env o s r s₁ → Interleaves env p (k r) s₁ out out' s' →
      Interleaves env p (.op o k) s out out' s'

def next : Outcome ε (Φ ⊕ α) → Φ ⊕ Outcome ε α
  | .ok (.inl φ) => .inl φ
  | .ok (.inr a) => .inr (.ok a)
  | .threw e => .inr (.threw e)
  | .aborted x => .inr (.aborted x)

/-- The runs of two programs made of stages in which no stage is interrupted. -/
inductive Staged (env : (o : Op) → σ → Res o → σ → Prop) (stage : Φ → Prog Op Res ε (Φ ⊕ α)) :
    Φ ⊕ Outcome ε α → Φ ⊕ Outcome ε α → σ → Outcome ε α → Outcome ε α → σ → Prop where
  | done (out out' : Outcome ε α) (s : σ) : Staged env stage (.inr out) (.inr out') s out out' s
  | left {φ : Φ} {t : Φ ⊕ Outcome ε α} {mid : Outcome ε (Φ ⊕ α)} {s s₁ s' : σ}
      {out out' : Outcome ε α} : Runs env (stage φ) s mid s₁ →
      Staged env stage (next mid) t s₁ out out' s' → Staged env stage (.inl φ) t s out out' s'
  | right {φ : Φ} {t : Φ ⊕ Outcome ε α} {mid : Outcome ε (Φ ⊕ α)} {s s₁ s' : σ}
      {out out' : Outcome ε α} : Runs env (stage φ) s mid s₁ →
      Staged env stage t (next mid) s₁ out out' s' → Staged env stage t (.inl φ) s out out' s'

section Stages

variable {stage : Φ → Prog Op Res ε (Φ ⊕ α)} {t u : Φ ⊕ Outcome ε α} {s s' : σ}
  {out out' : Outcome ε α}

/-- What every stage of either program preserves. The programs may have labels. -/
theorem Staged.invariant {ι : Type} {i j : ι}
    {I : ι → ι → Φ ⊕ Outcome ε α → Φ ⊕ Outcome ε α → σ → Prop}
    (hsymm : ∀ i j t u s, I i j t u s → I j i u t s)
    (hstage : ∀ i j φ u s mid s', I i j (.inl φ) u s → Runs env (stage φ) s mid s' →
      I i j (next mid) u s')
    (h : Staged env stage t u s out out' s') (hi : I i j t u s) :
    I i j (.inr out) (.inr out') s' := by
  induction h with
  | done => exact hi
  | left hrun _ ih => exact ih (hstage _ _ _ _ _ _ _ hi hrun)
  | right hrun _ ih =>
    exact ih (hsymm _ _ _ _ _ (hstage _ _ _ _ _ _ _ (hsymm _ _ _ _ _ hi) hrun))

variable {rest : Φ → Prog Op Res ε α}

def remaining (rest : Φ → Prog Op Res ε α) : Φ ⊕ Outcome ε α → Prog Op Res ε α
  | .inl φ => rest φ
  | .inr out => ended out

theorem Interleaves.run_left {p : Prog Op Res ε (Φ ⊕ α)} {q : Prog Op Res ε α}
    {mid : Outcome ε (Φ ⊕ α)} {s₁ : σ} (hrun : Runs env p s mid s₁)
    (h : Interleaves env (remaining rest (next mid)) q s₁ out out' s') :
    Interleaves env (p >>= fun x => remaining rest (next (.ok x))) q s out out' s' := by
  induction p generalizing s with
  | op o k ih =>
    obtain ⟨r, s₂, he, hrun⟩ := hrun
    exact .left he (ih r hrun)
  | _ =>
    obtain ⟨rfl, rfl⟩ := hrun
    exact h

theorem Interleaves.run_right {p : Prog Op Res ε (Φ ⊕ α)} {q : Prog Op Res ε α}
    {mid : Outcome ε (Φ ⊕ α)} {s₁ : σ} (hrun : Runs env p s mid s₁)
    (h : Interleaves env q (remaining rest (next mid)) s₁ out out' s') :
    Interleaves env q (p >>= fun x => remaining rest (next (.ok x))) s out out' s' := by
  induction p generalizing s with
  | op o k ih =>
    obtain ⟨r, s₂, he, hrun⟩ := hrun
    exact .right he (ih r hrun)
  | _ =>
    obtain ⟨rfl, rfl⟩ := hrun
    exact h

theorem Staged.interleaves
    (hrest : ∀ φ, rest φ = stage φ >>= fun x => remaining rest (next (.ok x)))
    (h : Staged env stage t u s out out' s') :
    Interleaves env (remaining rest t) (remaining rest u) s out out' s' := by
  induction h with
  | done out out' s => exact .done out out' s
  | left hrun _ ih =>
    rw [remaining, hrest]
    exact .run_left hrun ih
  | right hrun _ ih =>
    rw [remaining, hrest]
    exact .run_right hrun ih

end Stages

end Lib.Prog
