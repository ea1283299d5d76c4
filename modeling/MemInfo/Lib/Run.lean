import Mathlib.Data.List.Basic
import Mathlib.Data.List.Induction
import Mathlib.Tactic.Common

/-! # Runs and the traces a specification allows

A machine answers every input and moves on. A specification relates an abstract
state, an input, an answer and the next abstract state; a machine refines it when
every run of the machine is a trace that the specification allows.
-/

namespace Lib

variable {σ τ ι ρ : Type*}

/-- The answers and the last state of a machine on a list of inputs. -/
def run (step : σ → ι → ρ × σ) : σ → List ι → List ρ × σ
  | s, [] => ([], s)
  | s, i :: is =>
    let r := step s i
    let rs := run step r.2 is
    (r.1 :: rs.1, rs.2)

def trace (step : σ → ι → ρ × σ) (s : σ) (is : List ι) : List (ι × ρ) :=
  is.zip (run step s is).1

/-- The traces a specification allows between two abstract states. -/
inductive Allowed (spec : τ → ι → ρ → τ → Prop) : τ → List (ι × ρ) → τ → Prop where
  | nil (a : τ) : Allowed spec a [] a
  | cons {a b c : τ} {i : ι} {r : ρ} {tr : List (ι × ρ)} :
      spec a i r b → Allowed spec b tr c → Allowed spec a ((i, r) :: tr) c

theorem Allowed.append {spec : τ → ι → ρ → τ → Prop} {a b c : τ} {tr tr' : List (ι × ρ)}
    (h : Allowed spec a tr b) (h' : Allowed spec b tr' c) : Allowed spec a (tr ++ tr') c := by
  induction h with
  | nil a => exact h'
  | cons hs _ ih => exact .cons hs (ih h')

theorem Allowed.replicate {spec : τ → ι → ρ → τ → Prop} {a : ℕ → τ} {i : ι} {r : ρ}
    (hstep : ∀ k, spec (a k) i r (a (k + 1))) (n k : ℕ) :
    Allowed spec (a k) (List.replicate n (i, r)) (a (k + n)) := by
  induction n generalizing k with
  | zero => exact .nil _
  | succ n ih =>
    have hrest := ih (k + 1)
    rw [Nat.add_right_comm, Nat.add_assoc] at hrest
    exact .cons (hstep k) hrest

/-- What allowed inputs and answers preserve holds at the end of an allowed trace. -/
theorem Allowed.invariant {spec : τ → ι → ρ → τ → Prop} {I : τ → Prop} {P : ι × ρ → Prop} {a b : τ}
    {tr : List (ι × ρ)} (hstep : ∀ a i r b, P (i, r) → I a → spec a i r b → I b)
    (h : Allowed spec a tr b) (hP : ∀ e ∈ tr, P e) (ha : I a) : I b := by
  induction h with
  | nil a => exact ha
  | cons hs _ ih =>
    rw [List.forall_mem_cons] at hP
    exact ih hP.2 (hstep _ _ _ _ hP.1 ha hs)

variable {step : σ → ι → ρ × σ} {s : σ} {i : ι} {is js : List ι}

@[simp] theorem run_nil : run step s [] = ([], s) := rfl

@[simp] theorem run_cons_snd :
    (run step s (i :: is)).2 = (run step (step s i).2 is).2 := rfl

@[simp] theorem trace_nil : trace step s [] = [] := rfl

@[simp] theorem trace_cons :
    trace step s (i :: is) = (i, (step s i).1) :: trace step (step s i).2 is := rfl

theorem run_append_snd :
    (run step s (is ++ js)).2 = (run step (run step s is).2 js).2 := by
  induction is generalizing s with
  | nil => rfl
  | cons i is ih => exact ih

theorem trace_append :
    trace step s (is ++ js) = trace step s is ++ trace step (run step s is).2 js := by
  induction is generalizing s with
  | nil => rfl
  | cons i is ih => simp only [List.cons_append, trace_cons, run_cons_snd, ih]

/-- What holds at the start and is preserved by every step holds after every run. The
invariant may speak of the inputs that are still to come. -/
theorem run_invariant (I : List ι → σ → Prop)
    (hstep : ∀ i is s, I (i :: is) s → I is (step s i).2) (h : I is s) :
    I [] (run step s is).2 := by
  induction is generalizing s with
  | nil => exact h
  | cons i is ih => exact ih (hstep i is s h)

theorem allowed_trace {spec : σ → ι → ρ → σ → Prop} {I : σ → Prop}
    (hstep : ∀ s i, I s → spec s i (step s i).1 (step s i).2 ∧ I (step s i).2) (h : I s) :
    Allowed spec s (trace step s is) (run step s is).2 := by
  induction is generalizing s with
  | nil => exact .nil s
  | cons i is ih => exact .cons (hstep s i h).1 (ih (hstep s i h).2)

/-- A run in rounds, each of which moves an indexed invariant on by one. -/
theorem run_rounds (P : ℕ → σ → Prop) (round : ℕ → List ι) {n : ℕ}
    (hround : ∀ k s, k < n → P k s → P (k + 1) (run step s (round k)).2) (h : P 0 s) :
    P n (run step s ((List.range n).flatMap round)).2 := by
  induction n with
  | zero => exact h
  | succ n ih =>
    rw [List.range_succ, List.flatMap_append, run_append_snd, List.flatMap_singleton]
    exact hround n _ n.lt_succ_self (ih fun k s hk => hround k s (Nat.lt_succ_of_lt hk))

/-! Runs whose steps may be impossible. -/

section Partial

variable {next : σ → ι → Option σ} {t : σ}

theorem foldlM_invariant_of_mem {I : σ → Prop} {P : ι → Prop}
    (hstep : ∀ s i t, P i → I s → next s i = some t → I t) (hP : ∀ i ∈ is, P i) (hs : I s)
    (hrun : is.foldlM next s = some t) : I t := by
  induction is generalizing s with
  | nil =>
    cases hrun
    exact hs
  | cons i is ih =>
    rw [List.forall_mem_cons] at hP
    obtain ⟨u, hnext, hrest⟩ := Option.bind_eq_some_iff.1 hrun
    exact ih hP.2 (hstep s i u hP.1 hs hnext) hrest

/-- What every possible step preserves holds after every run. -/
theorem foldlM_invariant {I : σ → Prop} (hstep : ∀ s i t, I s → next s i = some t → I t) (hs : I s)
    (hrun : is.foldlM next s = some t) : I t :=
  foldlM_invariant_of_mem (P := fun _ => True) (fun s i t _ => hstep s i t) (fun _ _ => trivial) hs
    hrun

theorem foldlM_cons_of_some (hnext : next s i = some t) :
    (i :: is).foldlM next s = is.foldlM next t := by
  rw [List.foldlM_cons, hnext]
  rfl

theorem foldlM_append_of_some (hrun : is.foldlM next s = some t) :
    (is ++ js).foldlM next s = js.foldlM next t := by
  rw [List.foldlM_append, hrun]
  rfl

theorem foldlM_concat_eq_some :
    (is ++ [i]).foldlM next s = some t ↔ ∃ u, is.foldlM next s = some u ∧ next u i = some t := by
  rw [List.foldlM_append, Option.bind_eq_bind, Option.bind_eq_some_iff]
  simp only [List.foldlM_cons, List.foldlM_nil, bind_pure]

/-- An invariant that speaks of the inputs so far, and may use that they lead to the state. -/
theorem foldlM_history {I : List ι → σ → Prop} (hnil : I [] s)
    (hstep : ∀ is u i t, is.foldlM next s = some u → I is u → next u i = some t → I (is ++ [i]) t)
    (hrun : is.foldlM next s = some t) : I is t := by
  induction is using List.reverseRecOn generalizing t with
  | nil =>
    cases hrun
    exact hnil
  | append_singleton is i ih =>
    obtain ⟨u, hu, hnext⟩ := foldlM_concat_eq_some.1 hrun
    exact hstep is u i t hu (ih hu) hnext

theorem foldlM_of_prefix (hpre : js <+: is) (hrun : is.foldlM next s = some t) :
    ∃ u, js.foldlM next s = some u := by
  obtain ⟨rest, rfl⟩ := hpre
  rw [List.foldlM_append] at hrun
  obtain ⟨u, hu, -⟩ := Option.bind_eq_some_iff.1 hrun
  exact ⟨u, hu⟩

end Partial

/-! Runs whose events of one kind are counted. -/

section Counted

variable (J : ℕ → σ → Prop) (p : ι × ρ → Bool)

/-- An invariant that knows how many counted events have happened. -/
theorem run_counted
    (hstep : ∀ n s i, J n s → J (n + if p (i, (step s i).1) then 1 else 0) (step s i).2)
    {n : ℕ} (h : J n s) : J (n + (trace step s is).countP p) (run step s is).2 := by
  induction is generalizing s n with
  | nil => exact h
  | cons i is ih =>
    have hr := ih (hstep n s i h)
    rw [run_cons_snd, trace_cons, List.countP_cons]
    rwa [Nat.add_assoc, Nat.add_comm (ite _ _ _)] at hr

theorem run_counted_refines {spec : τ → ι → ρ → τ → Prop} (view : σ → τ) {bound : ℕ}
    (hstep : ∀ n s i, J n s → J (n + if p (i, (step s i).1) then 1 else 0) (step s i).2)
    (hspec : ∀ n s i, J n s → (n + if p (i, (step s i).1) then 1 else 0) < bound →
      spec (view s) i (step s i).1 (view (step s i).2))
    {n : ℕ} (h : J n s) (hb : n + (trace step s is).countP p < bound) :
    Allowed spec (view s) (trace step s is) (view (run step s is).2) := by
  induction is generalizing s n with
  | nil => exact .nil _
  | cons i is ih =>
    rw [trace_cons, List.countP_cons] at hb
    exact .cons (hspec n s i h (by omega)) (ih (hstep n s i h) (by omega))

end Counted

end Lib
