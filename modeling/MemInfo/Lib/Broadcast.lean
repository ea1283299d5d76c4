import Mathlib.Logic.Function.Basic
import MemInfo.Lib.Run

/-! # Nodes on a broadcast medium

Nodes act on their own and send messages to everyone. The medium loses, delays, reorders and
duplicates them: a message that was sent may reach a node at any later time, any number of times
or never. Messages from elsewhere may reach a node as well.
-/

namespace Lib

/-- What a node does on its own, with the messages it sends, and when a message arrives. -/
structure Broadcast (σ ε ξ μ : Type*) where
  act : σ → ε → Option (σ × List μ)
  receive : σ → ξ → μ → Option σ

namespace Broadcast

structure World (ι σ μ : Type*) where
  nodes : ι → σ
  sent : List (ι × μ) := []

inductive Event (ι ε ξ μ : Type*) where
  | act (i : ι) (e : ε)
  /-- What is at this place among the messages sent reaches a node. -/
  | deliver (i : ι) (k : ℕ) (x : ξ)
  /-- A message from elsewhere reaches a node. -/
  | inject (i : ι) (m : μ) (x : ξ)

variable {ι σ ε ξ μ : Type*}

def Event.arrival (sent : List (ι × μ)) : Event ι ε ξ μ → Option (ι × ξ × μ)
  | .act _ _ => none
  | .deliver i k x => sent[k]?.map fun m => (i, x, m.2)
  | .inject i m x => some (i, x, m)

section Steps

variable [DecidableEq ι] (B : Broadcast σ ε ξ μ)

def step (w : World ι σ μ) : Event ι ε ξ μ → Option (World ι σ μ)
  | .act i e => (B.act (w.nodes i) e).map fun r =>
      ⟨Function.update w.nodes i r.1, w.sent ++ r.2.map (Prod.mk i)⟩
  | .deliver i k x => w.sent[k]?.bind fun m =>
      (B.receive (w.nodes i) x m.2).map fun n => { w with nodes := Function.update w.nodes i n }
  | .inject i m x =>
      (B.receive (w.nodes i) x m).map fun n => { w with nodes := Function.update w.nodes i n }

def run (nodes : ι → σ) (events : List (Event ι ε ξ μ)) : Option (World ι σ μ) :=
  events.foldlM B.step ⟨nodes, []⟩

end Steps

variable [DecidableEq ι] {B : Broadcast σ ε ξ μ} {nodes : ι → σ} {w w' : World ι σ μ}
  {e : Event ι ε ξ μ} {es : List (Event ι ε ξ μ)} {i j : ι} {k : ℕ} {x : ξ} {m : μ} {ev : ε}

theorem step_act_eq_some : B.step w (.act i ev) = some w' ↔
    ∃ n ms, B.act (w.nodes i) ev = some (n, ms) ∧
      w' = ⟨Function.update w.nodes i n, w.sent ++ ms.map (Prod.mk i)⟩ := by
  simp only [step, Option.map_eq_some_iff, Prod.exists, @eq_comm _ _ w']

theorem step_cases (h : B.step w e = some w') :
    (∃ i ev n ms, e = .act i ev ∧ B.act (w.nodes i) ev = some (n, ms) ∧
        w' = ⟨Function.update w.nodes i n, w.sent ++ ms.map (Prod.mk i)⟩) ∨
      ∃ i x m n, e.arrival w.sent = some (i, x, m) ∧ B.receive (w.nodes i) x m = some n ∧
        w' = { w with nodes := Function.update w.nodes i n } := by
  cases e with
  | act i ev =>
    obtain ⟨n, ms, hact, hw⟩ := step_act_eq_some.1 h
    exact Or.inl ⟨i, ev, n, ms, rfl, hact, hw⟩
  | deliver i k x =>
    obtain ⟨m, hk, hrec⟩ := Option.bind_eq_some_iff.1 h
    obtain ⟨n, hn, rfl⟩ := Option.map_eq_some_iff.1 hrec
    exact Or.inr ⟨i, x, m.2, n, by simp [Event.arrival, hk], hn, rfl⟩
  | inject i m x =>
    obtain ⟨n, hn, rfl⟩ := Option.map_eq_some_iff.1 h
    exact Or.inr ⟨i, x, m, n, rfl, hn, rfl⟩

theorem arrival_of_step (h : B.step w e = some w') {sent : List (ι × μ)} (hpre : w.sent <+: sent) :
    e.arrival sent = e.arrival w.sent := by
  cases e with
  | act i ev => rfl
  | deliver i k x =>
    obtain ⟨m, hk, -⟩ := Option.bind_eq_some_iff.1 h
    obtain ⟨rest, rfl⟩ := hpre
    have hlt : k < w.sent.length := (List.getElem?_eq_some_iff.1 hk).1
    rw [Event.arrival, Event.arrival, List.getElem?_append_left hlt]
  | inject i m x => rfl

/-- What a step is for a node. -/
theorem node_cases (h : B.step w e = some w') (j : ι) :
    (∃ ev ms, e = .act j ev ∧ B.act (w.nodes j) ev = some (w'.nodes j, ms)) ∨
      (∃ x m, e.arrival w.sent = some (j, x, m) ∧
        B.receive (w.nodes j) x m = some (w'.nodes j)) ∨
      w'.nodes j = w.nodes j ∧ (∀ x m, e.arrival w.sent ≠ some (j, x, m)) ∧
        ∀ ev, e ≠ .act j ev := by
  obtain ⟨i, ev, n, ms, rfl, hact, rfl⟩ | ⟨i, x, m, n, harrival, hrec, rfl⟩ := step_cases h
  · by_cases hij : j = i
    · subst hij
      exact Or.inl ⟨ev, ms, rfl, by simpa using hact⟩
    · refine Or.inr (Or.inr ⟨Function.update_of_ne hij _ _, by simp [Event.arrival], ?_⟩)
      rintro ev' ⟨⟩
      exact hij rfl
  · by_cases hij : j = i
    · subst hij
      exact Or.inr (Or.inl ⟨x, m, harrival, by simpa using hrec⟩)
    · refine Or.inr (Or.inr ⟨Function.update_of_ne hij _ _, fun x' m' h' => hij ?_, ?_⟩)
      · cases harrival.symm.trans h'
        rfl
      · rintro ev ⟨⟩
        cases harrival

theorem sent_step_eq (h : B.step w e = some w') : ∃ more, w'.sent = w.sent ++ more ∧
    ∀ i m, (i, m) ∈ more → ∃ ev n ms, e = .act i ev ∧ B.act (w.nodes i) ev = some (n, ms) ∧
      m ∈ ms := by
  obtain ⟨i, ev, n, ms, rfl, hact, rfl⟩ | ⟨i, x, m, n, -, -, rfl⟩ := step_cases h
  · refine ⟨_, rfl, fun j m hm => ?_⟩
    obtain ⟨m', hm', heq⟩ := List.mem_map.1 hm
    cases heq
    exact ⟨ev, n, ms, rfl, hact, hm'⟩
  · exact ⟨[], (List.append_nil _).symm, nofun⟩

theorem sent_step (h : B.step w e = some w') : w.sent <+: w'.sent := by
  obtain ⟨more, heq, -⟩ := sent_step_eq h
  exact ⟨more, heq.symm⟩

theorem sent_run (h : es.foldlM B.step w = some w') : w.sent <+: w'.sent :=
  foldlM_invariant (I := fun u => w.sent <+: u.sent) (fun _ _ _ hu hs => hu.trans (sent_step hs))
    ⟨[], List.append_nil _⟩ h

/-- What arrived in a run stays the same when more is sent. -/
theorem arrival_of_run (hrun : es.foldlM B.step w = some w') (he : e ∈ es)
    {sent : List (ι × μ)} (hpre : w'.sent <+: sent) : e.arrival sent = e.arrival w'.sent := by
  obtain ⟨before, after, rfl⟩ := List.append_of_mem he
  rw [List.foldlM_append] at hrun
  obtain ⟨u, -, hrest⟩ := Option.bind_eq_some_iff.1 hrun
  obtain ⟨v, hv, hafter⟩ := Option.bind_eq_some_iff.1 hrest
  have huw : u.sent <+: w'.sent := (sent_step hv).trans (sent_run hafter)
  rw [arrival_of_step hv (huw.trans hpre), arrival_of_step hv huw]

theorem sent_origin (hrun : B.run nodes es = some w) (hm : (i, m) ∈ w.sent) :
    ∃ before u ev n ms, before ++ [.act i ev] <+: es ∧ B.run nodes before = some u ∧
      B.act (u.nodes i) ev = some (n, ms) ∧ m ∈ ms := by
  refine foldlM_history (I := fun es w => ∀ i m, (i, m) ∈ w.sent →
    ∃ before u ev n ms, before ++ [.act i ev] <+: es ∧ B.run nodes before = some u ∧
      B.act (u.nodes i) ev = some (n, ms) ∧ m ∈ ms) ?_ ?_ hrun i m hm
  · intro i m hm
    cases hm
  · intro es u e v hu ih hstep i m hm
    obtain ⟨more, hsent, hmore⟩ := sent_step_eq hstep
    rw [hsent] at hm
    obtain hm | hm := List.mem_append.1 hm
    · obtain ⟨before, u', ev, n, ms, hpre, hrest⟩ := ih i m hm
      exact ⟨before, u', ev, n, ms, hpre.trans (List.prefix_append _ _), hrest⟩
    · obtain ⟨ev, n, ms, rfl, hact, hmem⟩ := hmore i m hm
      exact ⟨es, u, ev, n, ms, ⟨[], List.append_nil _⟩, hu, hact, hmem⟩

/-- What every node keeps, on its own and when a message arrives, holds of all nodes. -/
theorem nodes_invariant {I : ι → σ → Prop}
    (hact : ∀ i s ev n ms, I i s → B.act s ev = some (n, ms) → I i n)
    (hreceive : ∀ i s x m n, I i s → B.receive s x m = some n → I i n) (hinit : ∀ i, I i (nodes i))
    (hrun : B.run nodes es = some w) (i : ι) : I i (w.nodes i) := by
  refine foldlM_invariant (I := fun w => I i (w.nodes i)) ?_ (hinit i) hrun
  intro u e v hu hstep
  obtain ⟨ev, ms, -, hev⟩ | ⟨x, m, -, hrec⟩ | ⟨hsame, -⟩ := node_cases hstep i
  · exact hact i _ ev _ ms hu hev
  · exact hreceive i _ x m _ hu hrec
  · rwa [hsame]

end Broadcast

end Lib
