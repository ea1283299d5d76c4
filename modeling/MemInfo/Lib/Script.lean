import Mathlib.Data.List.Basic
import Mathlib.Order.GameAdd
import Mathlib.Tactic.Common

/-! # Programs on a stream

A program that writes and reads exact numbers of items, where the system moves some of them at a
time. What a program does with the items it is given is a function of them alone (`eval`), and a
call that moves items, however many, takes nothing from that function. A program makes only
finitely many calls that move anything.
-/

namespace Lib

/-- What a program is about to do, in the middle of a transfer or at its end. A program between two
transfers is already in the second one. -/
inductive Script (ι α : Type*) where
  | done (result : α)
  -- the process was ended by a signal
  | killed
  /-- The items `b :: left` are still to be written. -/
  | write (b : ι) (left : List ι) (next : Script ι α)
  /-- The items `got` have been read, and `missing + 1` more are wanted. -/
  | read (missing : ℕ) (got : List ι) (next : List ι → Script ι α)

/-- What the system makes of a call: it is interrupted before it has done anything, it fails, or it
moves up to `n + 1` items. -/
inductive Syscall where
  | interrupted
  | fails
  | moves (n : ℕ)
  deriving DecidableEq, Repr

namespace Script

variable {ι α : Type*}

def writeExact (next : Script ι α) : List ι → Script ι α
  | [] => next
  | b :: left => .write b left next

def readExact (next : List ι → Script ι α) : ℕ → Script ι α
  | 0 => next []
  | n + 1 => .read n [] next

def isOpen : Script ι α → Bool
  | .done _ => false
  | .killed => false
  | .write _ _ _ => true
  | .read _ _ _ => true

def resume (missing : ℕ) (got : List ι) (next : List ι → Script ι α) (taken : List ι) :
    Script ι α :=
  if missing < taken.length then next (got ++ taken)
  else .read (missing - taken.length) (got ++ taken) next

structure Acted (ι α : Type*) where
  script : Script ι α
  incoming : List ι
  sent : List ι

section Act

variable (fail : α) (ignored peerOpen : Bool) (incoming : List ι)

/-- One call. A program whose call fails ends with `fail`. To read waits while nothing has come in
and the peer may still write, and fails at the end of the stream. To write to a peer that has
closed fails where the signal for it is ignored, and ends the process otherwise. -/
def act : Script ι α → Syscall → Acted ι α
  | .done a, _ => ⟨.done a, incoming, []⟩
  | .killed, _ => ⟨.killed, incoming, []⟩
  | .write b left next, .interrupted => ⟨.write b left next, incoming, []⟩
  | .write _ _ _, .fails => ⟨.done fail, incoming, []⟩
  | .write b left next, .moves n =>
    if peerOpen then ⟨writeExact next (left.drop n), incoming, b :: left.take n⟩
    else if ignored then ⟨.done fail, incoming, []⟩
    else ⟨.killed, incoming, []⟩
  | .read missing got next, .interrupted => ⟨.read missing got next, incoming, []⟩
  | .read _ _ _, .fails => ⟨.done fail, incoming, []⟩
  | .read missing got next, .moves n =>
    if incoming = [] then
      if peerOpen then ⟨.read missing got next, incoming, []⟩ else ⟨.done fail, incoming, []⟩
    else
      ⟨resume missing got next (incoming.take (min n missing + 1)),
        incoming.drop (min n missing + 1), []⟩

end Act

def Writes : Script ι α → Prop
  | .done _ => True
  | .killed => True
  | .write _ _ next => next.Writes
  | .read _ _ _ => False

def Concludes : Script ι α → Prop
  | .done _ => True
  | .killed => True
  | .write _ _ next => next.Writes
  | .read _ _ next => ∀ x, (next x).Concludes

/-! ## What a program does with given items -/

structure Evaluated (ι α : Type*) where
  out : List ι
  script : Script ι α
  rest : List ι

def eval : Script ι α → List ι → Evaluated ι α
  | .done a, x => ⟨[], .done a, x⟩
  | .killed, x => ⟨[], .killed, x⟩
  | .write b left next, x =>
    let r := eval next x
    ⟨b :: left ++ r.out, r.script, r.rest⟩
  | .read missing got next, x =>
    if missing < x.length then
      eval (next (got ++ x.take (missing + 1))) (x.drop (missing + 1))
    else ⟨[], .read (missing - x.length) (got ++ x) next, []⟩

section Eval

variable {s : Script ι α} {x y : List ι}

theorem eval_writeExact (next : Script ι α) (bytes x : List ι) :
    eval (writeExact next bytes) x =
      ⟨bytes ++ (eval next x).out, (eval next x).script, (eval next x).rest⟩ := by
  cases bytes <;> rfl

theorem eval_readExact (next : List ι → Script ι α) {a : List ι} {count : ℕ}
    (h : a.length = count) (x : List ι) :
    eval (readExact next count) (a ++ x) = eval (next a) x := by
  subst h
  cases a with
  | nil => rfl
  | cons b a =>
    have hlt : a.length < (b :: a ++ x).length := by
      rw [List.length_append, List.length_cons]
      omega
    have htake : (b :: a ++ x).take (a.length + 1) = b :: a := List.take_left' rfl
    have hdrop : (b :: a ++ x).drop (a.length + 1) = x := List.drop_left' rfl
    rw [List.length_cons, readExact, eval, if_pos hlt, htake, hdrop, List.nil_append]

theorem eval_append (s : Script ι α) (x y : List ι) :
    eval s (x ++ y) =
      ⟨(eval s x).out ++ (eval (eval s x).script ((eval s x).rest ++ y)).out,
        (eval (eval s x).script ((eval s x).rest ++ y)).script,
        (eval (eval s x).script ((eval s x).rest ++ y)).rest⟩ := by
  induction s generalizing x y with
  | done a => rfl
  | killed => rfl
  | write b left next ih =>
    simp only [eval]
    rw [ih]
    simp
  | read missing got next ih =>
    by_cases hx : missing < x.length
    · have hxy : missing < (x ++ y).length := by
        rw [List.length_append]
        omega
      simp only [eval, if_pos hx, if_pos hxy, List.take_append_of_le_length hx,
        List.drop_append_of_le_length hx]
      exact ih _ _ _
    · rw [Nat.not_lt] at hx
      have hlen : (x ++ y).length = x.length + y.length := List.length_append
      have hstop : eval (.read missing got next) x =
          ⟨[], .read (missing - x.length) (got ++ x) next, []⟩ := if_neg (Nat.not_lt.2 hx)
      rw [hstop]
      dsimp only
      rw [List.nil_append, List.nil_append]
      by_cases hy : missing - x.length < y.length
      · have htake : (x ++ y).take (missing + 1) = x ++ y.take (missing - x.length + 1) := by
          rw [List.take_append, List.take_of_length_le (by omega)]
          congr 2
          omega
        have hdrop : (x ++ y).drop (missing + 1) = y.drop (missing - x.length + 1) := by
          rw [List.drop_append, List.drop_of_length_le (by omega), List.nil_append]
          congr 1
          omega
        simp only [eval]
        rw [if_pos (by omega), if_pos hy, htake, hdrop, List.append_assoc]
      · simp only [eval]
        rw [if_neg (by omega), if_neg hy, hlen, Nat.sub_sub, List.append_assoc]

theorem eval_resume (missing : ℕ) (got : List ι) (next : List ι → Script ι α) {k : ℕ}
    (hk : k ≤ missing + 1) (x : List ι) :
    eval (resume missing got next (x.take k)) (x.drop k) = eval (.read missing got next) x := by
  unfold resume
  split_ifs with hall
  · have hlen := hall
    rw [List.length_take] at hlen
    obtain rfl : k = missing + 1 := by omega
    rw [eval, if_pos (by omega)]
  · have hstop : eval (.read missing got next) (x.take k) =
        ⟨[], .read (missing - (x.take k).length) (got ++ x.take k) next, []⟩ := if_neg hall
    have happend := eval_append (.read missing got next) (x.take k) (x.drop k)
    rw [List.take_append_drop, hstop] at happend
    rw [happend]
    simp

theorem eval_resume_append (missing : ℕ) (got : List ι) (next : List ι → Script ι α) {k : ℕ}
    (hk : k ≤ missing + 1) (x y : List ι) :
    eval (resume missing got next (x.take k)) (x.drop k ++ y) =
      eval (.read missing got next) (x ++ y) := by
  rw [eval_append, eval_resume missing got next hk, ← eval_append]

@[simp] theorem eval_read_nil (missing : ℕ) (got : List ι) (next : List ι → Script ι α) :
    eval (.read missing got next) [] = ⟨[], .read missing got next, []⟩ := by
  simp [eval]

theorem eval_of_not_open (h : s.isOpen = false) (x : List ι) : eval s x = ⟨[], s, x⟩ := by
  cases s with
  | done a => rfl
  | killed => rfl
  | write b left next => cases h
  | read missing got next => cases h

end Eval

/-! ## Progress -/

inductive Less : Script ι α → Script ι α → Prop where
  | stop {s s' : Script ι α} : s.isOpen = true → s'.isOpen = false → Less s' s
  | write {b : ι} {left left' : List ι} {next : Script ι α} :
      left'.length < left.length + 1 → Less (writeExact next left') (.write b left next)
  | read {missing missing' : ℕ} {got got' : List ι} {next : List ι → Script ι α} :
      missing' < missing → Less (.read missing' got' next) (.read missing got next)
  | next {missing : ℕ} {got x : List ι} {next : List ι → Script ι α} :
      Less (next x) (.read missing got next)

theorem acc_of_not_open {s : Script ι α} (h : s.isOpen = false) : Acc Less s := by
  constructor
  rintro s' (⟨hopen, -⟩ | _ | _ | _)
  · rw [h] at hopen
    cases hopen
  all_goals cases h

theorem acc_less (s : Script ι α) : Acc Less s := by
  induction s with
  | done a => exact acc_of_not_open rfl
  | killed => exact acc_of_not_open rfl
  | write b left next ih =>
    induction hn : left.length using Nat.strong_induction_on generalizing b left with
    | _ n ihn =>
      constructor
      rintro s' (⟨-, hs'⟩ | hlt | _ | _)
      · exact acc_of_not_open hs'
      · rename_i left'
        cases left' with
        | nil => exact ih
        | cons b' left' => exact ihn left'.length (by simp at hlt; omega) b' left' rfl
  | read missing got next ih =>
    induction missing using Nat.strong_induction_on generalizing got with
    | _ missing ihm =>
      constructor
      rintro s' (⟨-, hs'⟩ | _ | hlt | _)
      · exact acc_of_not_open hs'
      · exact ihm _ hlt _
      · exact ih _

theorem wellFounded_less : WellFounded (@Less ι α) := ⟨acc_less⟩

section Act

variable {s : Script ι α} {fail : α} {ignored peerOpen : Bool} {incoming : List ι} {c : Syscall}

theorem less_resume {missing : ℕ} {got : List ι} {next : List ι → Script ι α} {taken : List ι}
    (h : taken ≠ []) : Less (resume missing got next taken) (.read missing got next) := by
  have hpos := List.length_pos_iff.2 h
  unfold resume
  split_ifs
  · exact .next
  · exact .read (by omega)

theorem act_interrupted (s : Script ι α) :
    s.act fail ignored peerOpen incoming .interrupted = ⟨s, incoming, []⟩ := by
  cases s <;> rfl

theorem act_of_not_open (h : s.isOpen = false) (c : Syscall) :
    s.act fail ignored peerOpen incoming c = ⟨s, incoming, []⟩ := by
  cases s with
  | done a => rfl
  | killed => rfl
  | write b left next => cases h
  | read missing got next => cases h

theorem act_fails (h : s.isOpen = true) :
    s.act fail ignored peerOpen incoming .fails = ⟨.done fail, incoming, []⟩ := by
  cases s with
  | done a => cases h
  | killed => cases h
  | write b left next => rfl
  | read missing got next => rfl

theorem less_act_write (b : ι) (left : List ι) (next : Script ι α) (n : ℕ) :
    Less ((Script.write b left next).act fail ignored peerOpen incoming (.moves n)).script
      (.write b left next) := by
  simp only [act]
  split_ifs
  · exact .write (Nat.lt_succ_of_le (List.drop_sublist n left).length_le)
  · exact .stop rfl rfl
  · exact .stop rfl rfl

theorem less_act_read {missing : ℕ} {got : List ι} {next : List ι → Script ι α}
    (h : incoming = [] → peerOpen = false) (n : ℕ) :
    Less ((Script.read missing got next).act fail ignored peerOpen incoming (.moves n)).script
      (.read missing got next) := by
  simp only [act]
  split_ifs with hempty hopen
  · rw [h hempty] at hopen
    cases hopen
  · exact .stop rfl rfl
  · exact less_resume (by simpa using hempty)

theorem act_moves_read {missing : ℕ} {got : List ι} {next : List ι → Script ι α}
    (hs : s = .read missing got next) (h : incoming ≠ []) (n : ℕ) :
    s.act fail ignored peerOpen incoming (.moves n) =
      ⟨.resume missing got next (incoming.take (min n missing + 1)),
        incoming.drop (min n missing + 1), []⟩ := by
  rw [hs]
  exact if_neg h

theorem act_eq_or_less (s : Script ι α) (c : Syscall) :
    s.act fail ignored peerOpen incoming c = ⟨s, incoming, []⟩ ∨
      Less (s.act fail ignored peerOpen incoming c).script s := by
  cases s with
  | done a => exact Or.inl rfl
  | killed => exact Or.inl rfl
  | write b left next =>
    cases c with
    | interrupted => exact Or.inl rfl
    | fails => exact Or.inr (.stop rfl rfl)
    | moves n => exact Or.inr (less_act_write b left next n)
  | read missing got next =>
    cases c with
    | interrupted => exact Or.inl rfl
    | fails => exact Or.inr (.stop rfl rfl)
    | moves n =>
      simp only [act]
      split_ifs with hempty
      · exact Or.inl rfl
      · exact Or.inr (.stop rfl rfl)
      · exact Or.inr (less_resume (by simpa using hempty))

theorem Writes.concludes (h : s.Writes) : s.Concludes := by
  cases s with
  | done a => trivial
  | killed => trivial
  | write b left next => exact h
  | read missing got next => exact h.elim

theorem concludes_writeExact {next : Script ι α} (h : next.Writes) (left : List ι) :
    (writeExact next left).Concludes := by
  cases left with
  | nil => exact h.concludes
  | cons b left => exact h

theorem out_ne_nil_of_writes (h : s.Writes) (hopen : s.isOpen = true) (x : List ι) :
    (s.eval x).out ≠ [] := by
  cases s with
  | done a => cases hopen
  | killed => cases hopen
  | write b left next => exact List.cons_ne_nil _ _
  | read missing got next => exact h.elim

theorem writes_writeExact {next : Script ι α} (h : next.Writes) (left : List ι) :
    (writeExact next left).Writes := by
  cases left with
  | nil => exact h
  | cons b left => exact h

theorem concludes_readExact {next : List ι → Script ι α} (h : ∀ x, (next x).Concludes) (count : ℕ) :
    (readExact next count).Concludes := by
  cases count with
  | zero => exact h []
  | succ n => exact h

theorem concludes_resume {missing : ℕ} {got : List ι} {next : List ι → Script ι α}
    (h : (Script.read missing got next).Concludes) (taken : List ι) :
    (resume missing got next taken).Concludes := by
  unfold resume
  split_ifs
  · exact h _
  · exact h

theorem less_irrefl (s : Script ι α) : ¬ Less s s :=
  fun h => (wellFounded_less.irrefl).irrefl s h

end Act

end Script

end Lib
