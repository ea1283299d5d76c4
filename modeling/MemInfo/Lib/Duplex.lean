import MemInfo.Lib.Script

/-! # Two programs on a stream

A client and a server, each with a program of exact transfers, connected by a stream in both
directions. A schedule says at every time who makes the next call and what the system makes of it.
If nothing fails, the client ends with the result that the two programs agree on, whatever the
calls move; and if something does, it ends with the result for a failure.
-/

namespace Lib

/-- A client and a server, and what is on its way between them. -/
structure Duplex (ι α β : Type*) where
  client : Script ι α
  server : Script ι β
  toServer : List ι := []
  toClient : List ι := []

inductive Party where
  | client
  | server
  deriving DecidableEq, Repr

/-- The results of a failure, and who ignores the signal for writing to a closed stream. -/
structure Endings (α β : Type*) where
  clientFail : α
  serverFail : β
  clientIgnores : Bool
  serverIgnores : Bool

namespace Duplex

variable {ι α β : Type*} (e : Endings α β)

/-- The next call. A program that is over has closed the stream. -/
def step (s : Duplex ι α β) : Party × Syscall → Duplex ι α β
  | (.client, c) =>
    let r := s.client.act e.clientFail e.clientIgnores s.server.isOpen s.toClient c
    { s with client := r.script, toClient := r.incoming, toServer := s.toServer ++ r.sent }
  | (.server, c) =>
    let r := s.server.act e.serverFail e.serverIgnores s.client.isOpen s.toServer c
    { s with server := r.script, toServer := r.incoming, toClient := s.toClient ++ r.sent }

theorem step_client_of_act {s : Duplex ι α β} {c : Syscall} {r : Script.Acted ι α}
    (h : s.client.act e.clientFail e.clientIgnores s.server.isOpen s.toClient c = r) :
    s.step e (.client, c) = ⟨r.script, s.server, s.toServer ++ r.sent, r.incoming⟩ := by
  rw [← h]
  rfl

theorem step_server_of_act {s : Duplex ι α β} {c : Syscall} {r : Script.Acted ι β}
    (h : s.server.act e.serverFail e.serverIgnores s.client.isOpen s.toServer c = r) :
    s.step e (.server, c) = ⟨s.client, r.script, r.incoming, s.toClient ++ r.sent⟩ := by
  rw [← h]
  rfl

theorem step_interrupted (s : Duplex ι α β) (p : Party) : s.step e (p, .interrupted) = s := by
  cases p with
  | client => rw [step_client_of_act e (Script.act_interrupted _), List.append_nil]
  | server => rw [step_server_of_act e (Script.act_interrupted _), List.append_nil]

theorem step_client_of_closed {s : Duplex ι α β} (h : s.client.isOpen = false) (c : Syscall) :
    s.step e (.client, c) = s := by
  rw [step_client_of_act e (Script.act_of_not_open h c), List.append_nil]

theorem step_server_of_closed {s : Duplex ι α β} (h : s.server.isOpen = false) (c : Syscall) :
    s.step e (.server, c) = s := by
  rw [step_server_of_act e (Script.act_of_not_open h c), List.append_nil]

/-- The state before the call of time `t`. -/
def run (schedule : ℕ → Party × Syscall) (s : Duplex ι α β) : ℕ → Duplex ι α β
  | 0 => s
  | t + 1 => step e (run schedule s t) (schedule t)

def Fair (schedule : ℕ → Party × Syscall) : Prop :=
  ∀ p t, ∃ t' ≥ t, ∃ n, schedule t' = (p, .moves n)

/-! ## What the programs will do -/

section Future

variable (s : Duplex ι α β)

def ahead : Script.Evaluated ι α := s.client.eval s.toClient

def reply : Script.Evaluated ι β := s.server.eval (s.toServer ++ s.ahead.out)

def outcome : Script.Evaluated ι α := s.ahead.script.eval (s.ahead.rest ++ s.reply.out)

/-- If nothing fails, the server takes all that the client writes, and the client does not write
again, ends with `a` and leaves `unread`. -/
structure Agrees (a : α) (unread : List ι) : Prop where
  outcome_eq : s.outcome = ⟨[], .done a, unread⟩
  heard : s.reply.rest = []

end Future

section Agrees

variable {s s' : Duplex ι α β} {a : α} {unread : List ι}

theorem Agrees.result (h : s.Agrees a unread) : s.outcome.script = .done a := by
  rw [h.outcome_eq]

theorem Agrees.congr (h : s.Agrees a unread) (hserver : s'.server = s.server)
    (hscript : s'.ahead.script = s.ahead.script) (hrest : s'.ahead.rest = s.ahead.rest)
    (hsent : s'.toServer ++ s'.ahead.out = s.toServer ++ s.ahead.out) : s'.Agrees a unread := by
  have hreply : s'.reply = s.reply := by rw [reply, reply, hserver, hsent]
  have houtcome : s'.outcome = s.outcome := by rw [outcome, outcome, hscript, hrest, hreply]
  exact ⟨houtcome.trans h.outcome_eq, by rw [hreply, h.heard]⟩

theorem Agrees.congr_server (h : s.Agrees a unread) (hclient : s'.client = s.client)
    (hto : s'.toClient = s.toClient)
    (hreply : s'.server.eval (s'.toServer ++ s.ahead.out) =
      s.server.eval (s.toServer ++ s.ahead.out)) : s'.Agrees a unread := by
  have hahead : s'.ahead = s.ahead := by rw [ahead, ahead, hclient, hto]
  have hreply' : s'.reply = s.reply := by rw [reply, hahead, hreply, reply]
  have houtcome : s'.outcome = s.outcome := by rw [outcome, outcome, hahead, hreply']
  exact ⟨houtcome.trans h.outcome_eq, by rw [hreply', h.heard]⟩

theorem Agrees.step_server_write (h : s.Agrees a unread) {b : ι} {left : List ι} {next : Script ι β}
    (hserver : s.server = .write b left next) (n : ℕ) :
    Agrees ⟨s.client, .writeExact next (left.drop n), s.toServer,
      s.toClient ++ b :: left.take n⟩ a unread := by
  set z := b :: left.take n with hz
  set future := next.eval (s.toServer ++ s.ahead.out) with hfuture
  set w := left.drop n ++ future.out with hw
  set middle := s.ahead.script.eval (s.ahead.rest ++ z) with hmiddle
  -- the client takes what is written now, and the rest later
  have hreply : s.reply = ⟨z ++ w, future.script, future.rest⟩ := by
    rw [reply, hserver]
    simp only [hz, hw, Script.eval, ← hfuture, List.cons_append]
    rw [← List.append_assoc (left.take n), List.take_append_drop]
  have houtcome : s.outcome = ⟨middle.out ++ (middle.script.eval (middle.rest ++ w)).out,
      (middle.script.eval (middle.rest ++ w)).script,
      (middle.script.eval (middle.rest ++ w)).rest⟩ := by
    rw [outcome, hreply, ← List.append_assoc, Script.eval_append]
  have hend := h.outcome_eq
  rw [houtcome, Script.Evaluated.mk.injEq] at hend
  obtain ⟨hmid, hlast⟩ := List.append_eq_nil_iff.1 hend.1
  have hahead : ahead ⟨s.client, .writeExact next (left.drop n), s.toServer, s.toClient ++ z⟩ =
      ⟨s.ahead.out, middle.script, middle.rest⟩ := by
    rw [ahead, Script.eval_append]
    change (⟨s.ahead.out ++ middle.out, middle.script, middle.rest⟩ : Script.Evaluated ι α) = _
    rw [hmid, List.append_nil]
  have hreply' : reply ⟨s.client, .writeExact next (left.drop n), s.toServer, s.toClient ++ z⟩ =
      ⟨w, future.script, future.rest⟩ := by
    rw [reply, hahead, Script.eval_writeExact]
  have houtcome' : outcome ⟨s.client, .writeExact next (left.drop n), s.toServer, s.toClient ++ z⟩ =
      middle.script.eval (middle.rest ++ w) := by
    rw [outcome, hahead, hreply']
  have hheard := h.heard
  rw [hreply] at hheard
  constructor
  · rw [houtcome']
    cases hfinal : middle.script.eval (middle.rest ++ w)
    rw [hfinal] at hlast hend
    rw [Script.Evaluated.mk.injEq]
    exact ⟨hlast, hend.2⟩
  · rw [hreply']
    exact hheard

theorem Agrees.client_eq (h : s.Agrees a unread) (hclosed : s.client.isOpen = false) :
    s.client = .done a := by
  have hresult := h.result
  rw [outcome, ahead, Script.eval_of_not_open hclosed] at hresult
  rwa [Script.eval_of_not_open hclosed] at hresult

theorem Agrees.out_eq_nil (h : s.Agrees a unread) (hclosed : s.server.isOpen = false) :
    s.ahead.out = [] := by
  have hheard := h.heard
  rw [reply, Script.eval_of_not_open hclosed] at hheard
  exact (List.append_eq_nil_iff.1 hheard).2

theorem Agrees.reply_ne_nil (h : s.Agrees a unread) {missing : ℕ} {got : List ι}
    {next : List ι → Script ι α} (hclient : s.client = .read missing got next)
    (hempty : s.toClient = []) : s.reply.out ≠ [] := by
  intro hreply
  have hresult := h.result
  rw [outcome, hreply, ahead, hclient, hempty, Script.eval_read_nil, List.append_nil,
    Script.eval_read_nil] at hresult
  cases hresult

theorem reply_out_of_not_open (hclosed : s.server.isOpen = false) : s.reply.out = [] := by
  rw [reply, Script.eval_of_not_open hclosed]

theorem Agrees.server_open_of_write (h : s.Agrees a unread) {b : ι} {left : List ι}
    {next : Script ι α} (hclient : s.client = .write b left next) : s.server.isOpen = true := by
  by_contra hclosed
  have hout := h.out_eq_nil (Bool.eq_false_iff.2 hclosed)
  rw [ahead, hclient] at hout
  cases hout

theorem Agrees.server_open_of_read (h : s.Agrees a unread) {missing : ℕ} {got : List ι}
    {next : List ι → Script ι α} (hclient : s.client = .read missing got next)
    (hempty : s.toClient = []) : s.server.isOpen = true := by
  by_contra hclosed
  exact h.reply_ne_nil hclient hempty (reply_out_of_not_open (Bool.eq_false_iff.2 hclosed))

theorem ahead_of_read {missing : ℕ} {got : List ι} {next : List ι → Script ι α}
    (hclient : s.client = .read missing got next) (n : ℕ) :
    s.ahead = Script.eval (.resume missing got next (s.toClient.take (min n missing + 1)))
      (s.toClient.drop (min n missing + 1)) := by
  rw [ahead, hclient]
  exact (Script.eval_resume missing got next (by omega) s.toClient).symm

theorem Agrees.ahead_step_client (h : s.Agrees a unread) {c : Syscall} (hc : c ≠ .fails) :
    (s.step e (.client, c)).ahead.script = s.ahead.script ∧
      (s.step e (.client, c)).ahead.rest = s.ahead.rest ∧
      (s.step e (.client, c)).toServer ++ (s.step e (.client, c)).ahead.out =
        s.toServer ++ s.ahead.out := by
  cases c with
  | fails => exact absurd rfl hc
  | interrupted =>
    rw [step_interrupted]
    exact ⟨rfl, rfl, rfl⟩
  | moves n =>
    cases hclient : s.client with
    | done r =>
      rw [step_client_of_closed e (by rw [hclient]; rfl)]
      exact ⟨rfl, rfl, rfl⟩
    | killed =>
      rw [step_client_of_closed e (by rw [hclient]; rfl)]
      exact ⟨rfl, rfl, rfl⟩
    | write b left next =>
      have hact : s.client.act e.clientFail e.clientIgnores s.server.isOpen s.toClient (.moves n) =
          ⟨.writeExact next (left.drop n), s.toClient, b :: left.take n⟩ := by
        rw [hclient, h.server_open_of_write hclient]
        rfl
      have hahead : s.ahead = ⟨b :: left ++ (next.eval s.toClient).out,
          (next.eval s.toClient).script, (next.eval s.toClient).rest⟩ := by
        rw [ahead, hclient]
        rfl
      rw [step_client_of_act e hact, hahead, ahead, Script.eval_writeExact]
      refine ⟨rfl, rfl, ?_⟩
      dsimp only
      rw [List.append_assoc, List.cons_append, ← List.append_assoc (left.take n),
        List.take_append_drop, List.cons_append]
    | read missing got next =>
      by_cases hempty : s.toClient = []
      · have hact : s.client.act e.clientFail e.clientIgnores s.server.isOpen s.toClient
            (.moves n) = ⟨s.client, s.toClient, []⟩ := by
          rw [hclient, h.server_open_of_read hclient hempty, hempty]
          rfl
        rw [step_client_of_act e hact, List.append_nil]
        exact ⟨rfl, rfl, rfl⟩
      · rw [step_client_of_act e (Script.act_moves_read hclient hempty n), List.append_nil]
        rw [ahead_of_read hclient n]
        exact ⟨rfl, rfl, rfl⟩

theorem Agrees.step_client (h : s.Agrees a unread) {c : Syscall} (hc : c ≠ .fails) :
    (s.step e (.client, c)).Agrees a unread := by
  obtain ⟨hscript, hrest, hsent⟩ := h.ahead_step_client e hc
  exact h.congr rfl hscript hrest hsent

theorem step_server_of_write {b : ι} {left : List ι} {next : Script ι β} {n : ℕ}
    (hserver : s.server = .write b left next) (hopen : s.client.isOpen = true) :
    s.step e (.server, .moves n) =
      ⟨s.client, .writeExact next (left.drop n), s.toServer, s.toClient ++ b :: left.take n⟩ := by
  have hact : s.server.act e.serverFail e.serverIgnores s.client.isOpen s.toServer (.moves n) =
      ⟨.writeExact next (left.drop n), s.toServer, b :: left.take n⟩ := by
    rw [hserver, hopen]
    rfl
  rw [step_server_of_act e hact]

theorem step_server_of_waits {missing : ℕ} {got : List ι} {next : List ι → Script ι β} {n : ℕ}
    (hserver : s.server = .read missing got next) (hempty : s.toServer = [])
    (hopen : s.client.isOpen = true) : s.step e (.server, .moves n) = s := by
  have hact : s.server.act e.serverFail e.serverIgnores s.client.isOpen s.toServer (.moves n) =
      ⟨s.server, s.toServer, []⟩ := by
    rw [hserver, hopen, hempty]
    rfl
  rw [step_server_of_act e hact, List.append_nil]

theorem Agrees.step_server (h : s.Agrees a unread) (hopen : s.client.isOpen = true) {c : Syscall}
    (hc : c ≠ .fails) : (s.step e (.server, c)).Agrees a unread := by
  cases c with
  | fails => exact absurd rfl hc
  | interrupted =>
    rw [step_interrupted]
    exact h
  | moves n =>
    cases hserver : s.server with
    | done r =>
      rw [step_server_of_closed e (by rw [hserver]; rfl)]
      exact h
    | killed =>
      rw [step_server_of_closed e (by rw [hserver]; rfl)]
      exact h
    | write b left next =>
      rw [step_server_of_write e hserver hopen]
      exact h.step_server_write hserver n
    | read missing got next =>
      by_cases hempty : s.toServer = []
      · rw [step_server_of_waits e hserver hempty hopen]
        exact h
      · rw [step_server_of_act e (Script.act_moves_read hserver hempty n), List.append_nil]
        exact h.congr_server rfl rfl (by
          rw [hserver]
          exact Script.eval_resume_append missing got next (by omega) s.toServer s.ahead.out)

end Agrees

/-! ## Progress -/

section Progress

variable {s : Duplex ι α β} {a : α} {unread : List ι}

theorem step_eq_or_gameAdd (s : Duplex ι α β) (c : Party × Syscall) :
    s.step e c = s ∨ Prod.GameAdd Script.Less Script.Less
      ((s.step e c).client, (s.step e c).server) (s.client, s.server) := by
  obtain ⟨p, c⟩ := c
  cases p with
  | client =>
    rcases Script.act_eq_or_less s.client c with hact | hless
    · left
      rw [step_client_of_act e hact, List.append_nil]
    · exact Or.inr (.fst hless)
  | server =>
    rcases Script.act_eq_or_less s.server c with hact | hless
    · left
      rw [step_server_of_act e hact, List.append_nil]
    · exact Or.inr (.snd hless)

def Ready (s : Duplex ι α β) (p : Party) : Prop := ∀ n, s.step e (p, .moves n) ≠ s

theorem ready_client (h : ∀ n, Script.Less
    (s.client.act e.clientFail e.clientIgnores s.server.isOpen s.toClient (.moves n)).script
      s.client) : s.Ready e .client := by
  intro n heq
  have hless := h n
  have hsame : (s.client.act e.clientFail e.clientIgnores s.server.isOpen s.toClient
      (.moves n)).script = s.client := congrArg Duplex.client heq
  rw [hsame] at hless
  exact Script.less_irrefl _ hless

theorem ready_server (h : ∀ n, Script.Less
    (s.server.act e.serverFail e.serverIgnores s.client.isOpen s.toServer (.moves n)).script
      s.server) : s.Ready e .server := by
  intro n heq
  have hless := h n
  have hsame : (s.server.act e.serverFail e.serverIgnores s.client.isOpen s.toServer
      (.moves n)).script = s.server := congrArg Duplex.server heq
  rw [hsame] at hless
  exact Script.less_irrefl _ hless

theorem Agrees.exists_ready (h : s.Agrees a unread) (hopen : s.client.isOpen = true) :
    ∃ p, s.Ready e p := by
  cases hclient : s.client with
  | done r =>
    rw [hclient] at hopen
    cases hopen
  | killed =>
    rw [hclient] at hopen
    cases hopen
  | write b left next =>
    refine ⟨.client, ready_client e fun n => ?_⟩
    rw [hclient]
    exact Script.less_act_write b left next n
  | read missing got next =>
    by_cases hempty : s.toClient = []
    · have hreply := h.reply_ne_nil hclient hempty
      refine ⟨.server, ready_server e fun n => ?_⟩
      cases hserver : s.server with
      | done r => exact absurd (reply_out_of_not_open (by rw [hserver]; rfl)) hreply
      | killed => exact absurd (reply_out_of_not_open (by rw [hserver]; rfl)) hreply
      | write b left next => exact Script.less_act_write b left next n
      | read missing' got' next' =>
        -- the server cannot wait, too
        refine Script.less_act_read (fun hto => ?_) n
        rw [reply, ahead, hclient, hempty, hto, hserver, Script.eval_read_nil] at hreply
        exact absurd (by simp) hreply
    · refine ⟨.client, ready_client e fun n => ?_⟩
      rw [hclient]
      exact Script.less_act_read (fun h => absurd h hempty) n

def Before (s s' : Duplex ι α β) : Prop :=
  Prod.GameAdd Script.Less Script.Less (s.client, s.server) (s'.client, s'.server)

theorem wellFounded_before : WellFounded (@Before ι α β) :=
  InvImage.wf (fun s : Duplex ι α β => (s.client, s.server))
    (Script.wellFounded_less.prod_gameAdd Script.wellFounded_less)

variable {schedule : ℕ → Party × Syscall}

theorem before_or_run_eq (t d : ℕ) :
    (∃ u, Before (run e schedule s u) (run e schedule s t)) ∨
      run e schedule s (t + d) = run e schedule s t := by
  induction d with
  | zero => exact Or.inr rfl
  | succ d ih =>
    rcases ih with hbefore | hsame
    · exact Or.inl hbefore
    · rcases step_eq_or_gameAdd e (run e schedule s (t + d)) (schedule (t + d)) with heq | hless
      · exact Or.inr (heq.trans hsame)
      · rw [hsame] at hless
        exact Or.inl ⟨t + d + 1, by rwa [Before, run, hsame]⟩

theorem exists_closed (hfair : Fair schedule)
    (hready : ∀ t, (run e schedule s t).client.isOpen = true →
      ∃ p, (run e schedule s t).Ready e p) :
    ∃ t, (run e schedule s t).client.isOpen = false := by
  have hend (u : Duplex ι α β) : ∀ t, run e schedule s t = u →
      ∃ t', (run e schedule s t').client.isOpen = false := by
    induction u using wellFounded_before.induction with
    | _ u ih =>
      intro t ht
      by_cases hopen : (run e schedule s t).client.isOpen = true
      · obtain ⟨p, hp⟩ := hready t hopen
        obtain ⟨t', hle, n, hn⟩ := hfair p t
        obtain ⟨d, rfl⟩ := Nat.exists_eq_add_of_le hle
        have hbefore : ∃ v, Before (run e schedule s v) (run e schedule s t) := by
          rcases before_or_run_eq e t d with hbefore | hsame
          · exact hbefore
          · rcases step_eq_or_gameAdd e (run e schedule s t) (schedule (t + d)) with heq | hless
            · rw [hn] at heq
              exact absurd heq (hp n)
            · exact ⟨t + d + 1, by rwa [Before, run, hsame]⟩
        obtain ⟨v, hv⟩ := hbefore
        exact ih _ (ht ▸ hv) v rfl
      · exact ⟨t, Bool.eq_false_iff.2 hopen⟩
  exact hend _ 0 rfl

end Progress

/-! ## Failures -/

section Failures

variable {s : Duplex ι α β} {a : α} {unread : List ι} {P : Script ι α → Prop}

def Alone (s : Duplex ι α β) (P : Script ι α → Prop) : Prop :=
  s.server.isOpen = false ∧ P s.ahead.script

def Killing (s : Duplex ι α β) (c : Party × Syscall) : Prop :=
  (∃ n, c = (.client, .moves n)) ∧ (∃ b left next, s.client = .write b left next) ∧
    s.server.isOpen = false ∧ e.clientIgnores = false

theorem client_step_of_killing {c : Party × Syscall} (h : Killing e s c) :
    (s.step e c).client = .killed := by
  obtain ⟨⟨n, rfl⟩, ⟨b, left, next, hclient⟩, hserver, hignores⟩ := h
  have hact : s.client.act e.clientFail e.clientIgnores s.server.isOpen s.toClient (.moves n) =
      ⟨.killed, s.toClient, []⟩ := by
    rw [hclient, hserver, hignores]
    rfl
  rw [step_client_of_act e hact]

theorem client_step_of_closed (h : s.client.isOpen = false) (c : Party × Syscall) :
    (s.step e c).client = s.client := by
  obtain ⟨p, c⟩ := c
  cases p with
  | client => rw [step_client_of_closed e h]
  | server => rfl

/-- Without a server the client reads what is left, fails, or is killed for its writing. -/
theorem Alone.step (h : s.Alone P) (hopen : s.client.isOpen = true) (c : Party × Syscall) :
    (s.step e c).Alone P ∨ (s.step e c).client = .done e.clientFail ∨
      (s.step e c).client = .killed ∧ Killing e s c := by
  obtain ⟨p, c⟩ := c
  cases p with
  | server =>
    left
    rw [step_server_of_closed e h.1]
    exact h
  | client =>
    cases c with
    | interrupted =>
      left
      rw [step_interrupted]
      exact h
    | fails =>
      right; left
      rw [step_client_of_act e (Script.act_fails hopen)]
    | moves n =>
      cases hclient : s.client with
      | done r =>
        rw [hclient] at hopen
        cases hopen
      | killed =>
        rw [hclient] at hopen
        cases hopen
      | write b left next =>
        right
        cases hignores : e.clientIgnores with
        | true =>
          left
          have hact : s.client.act e.clientFail e.clientIgnores s.server.isOpen s.toClient
              (.moves n) = ⟨.done e.clientFail, s.toClient, []⟩ := by
            rw [hclient, h.1, hignores]
            rfl
          rw [step_client_of_act e hact]
        | false =>
          have hkilling : Killing e s (.client, .moves n) :=
            ⟨⟨n, rfl⟩, ⟨b, left, next, hclient⟩, h.1, hignores⟩
          exact Or.inr ⟨client_step_of_killing e hkilling, hkilling⟩
      | read missing got next =>
        by_cases hempty : s.toClient = []
        · right; left
          have hact : s.client.act e.clientFail e.clientIgnores s.server.isOpen s.toClient
              (.moves n) = ⟨.done e.clientFail, s.toClient, []⟩ := by
            rw [hclient, h.1, hempty]
            rfl
          rw [step_client_of_act e hact]
        · left
          rw [step_client_of_act e (Script.act_moves_read hclient hempty n), List.append_nil]
          refine ⟨h.1, ?_⟩
          rw [ahead, ← ahead_of_read hclient n]
          exact h.2

inductive Stays (K : Prop) (P : Script ι α → Prop) (s : Duplex ι α β) : Prop where
  | failed : s.client = .done e.clientFail → Stays K P s
  | killed : s.client = .killed → K → Stays K P s
  | ended : s.client.isOpen = false → P s.client → Stays K P s
  | alone : s.client.isOpen = true → s.Alone P → Stays K P s

theorem stays_of_alone {K : Prop} (h : s.Alone P) : Stays e K P s := by
  by_cases hopen : s.client.isOpen = true
  · exact .alone hopen h
  · have hclosed := Bool.eq_false_iff.2 hopen
    have hP := h.2
    rw [ahead, Script.eval_of_not_open hclosed] at hP
    exact .ended hclosed hP

theorem Stays.step {K : Prop} {c : Party × Syscall} (h : Stays e K P s) (hK : Killing e s c → K) :
    Stays e K P (s.step e c) := by
  cases h with
  | failed hclient =>
    exact .failed (by rw [client_step_of_closed e (by rw [hclient]; rfl), hclient])
  | killed hclient hkilled =>
    exact .killed (by rw [client_step_of_closed e (by rw [hclient]; rfl), hclient]) hkilled
  | ended hclosed hP =>
    have hclient := client_step_of_closed e hclosed c
    exact .ended (by rw [hclient, hclosed]) (by rwa [hclient])
  | alone hopen halone =>
    rcases halone.step e hopen c with halone' | hfailed | ⟨hkilled, hkilling⟩
    · exact stays_of_alone e halone'
    · exact .failed hfailed
    · exact .killed hkilled (hK hkilling)

theorem Agrees.alone (h : s.Agrees a unread) (hopen : s.server.isOpen = true) :
    (s.step e (.server, .fails)).Alone fun sc => sc.isOpen = true ∨ sc = .done a := by
  rw [step_server_of_act e (Script.act_fails hopen), List.append_nil]
  refine ⟨rfl, ?_⟩
  change s.ahead.script.isOpen = true ∨ s.ahead.script = .done a
  by_cases hahead : s.ahead.script.isOpen = true
  · exact Or.inl hahead
  · have hresult := h.result
    rw [outcome, Script.eval_of_not_open (Bool.eq_false_iff.2 hahead)] at hresult
    exact Or.inr hresult

def AtBest (a : α) (sc : Script ι α) : Prop := sc.isOpen = true ∨ sc = .done a

def Fails (s : Duplex ι α β) (c : Party × Syscall) : Prop :=
  c = (.client, .fails) ∨ c = (.server, .fails) ∧ s.server.isOpen = true

theorem Agrees.step_of_not_fails (h : s.Agrees a unread) (hopen : s.client.isOpen = true)
    {c : Party × Syscall} (hc : ¬ s.Fails c) : (s.step e c).Agrees a unread := by
  obtain ⟨p, c⟩ := c
  cases p with
  | client => exact h.step_client e fun hfails => hc (Or.inl (by rw [hfails]))
  | server =>
    by_cases hserver : s.server.isOpen = true
    · exact h.step_server e hopen fun hfails => hc (Or.inr ⟨by rw [hfails], hserver⟩)
    · rw [step_server_of_closed e (Bool.eq_false_iff.2 hserver)]
      exact h

theorem Agrees.step_or_stays (h : s.Agrees a unread) (hopen : s.client.isOpen = true) (K : Prop)
    (c : Party × Syscall) : (s.step e c).Agrees a unread ∨ Stays e K (AtBest a) (s.step e c) := by
  by_cases hc : s.Fails c
  · right
    rcases hc with rfl | ⟨rfl, hserver⟩
    · exact .failed (by rw [step_client_of_act e (Script.act_fails hopen)])
    · exact stays_of_alone e (h.alone e hserver)
  · exact Or.inl (h.step_of_not_fails e hopen hc)

theorem Alone.ready (h : s.Alone P) (hopen : s.client.isOpen = true) : s.Ready e .client := by
  refine ready_client e fun n => ?_
  cases hclient : s.client with
  | done r =>
    rw [hclient] at hopen
    cases hopen
  | killed =>
    rw [hclient] at hopen
    cases hopen
  | write b left next => exact Script.less_act_write b left next n
  | read missing got next => exact Script.less_act_read (fun _ => h.1) n

theorem Stays.ready {K : Prop} (h : Stays e K P s) (hopen : s.client.isOpen = true) :
    s.Ready e .client := by
  cases h with
  | failed hclient =>
    rw [hclient] at hopen
    cases hopen
  | killed hclient _ =>
    rw [hclient] at hopen
    cases hopen
  | ended hclosed _ =>
    rw [hclosed] at hopen
    cases hopen
  | alone _ halone => exact halone.ready e hopen

theorem Stays.closed {K : Prop} (h : Stays e K P s) (hclosed : s.client.isOpen = false) :
    s.client = .done e.clientFail ∨ s.client = .killed ∧ K ∨ P s.client := by
  cases h with
  | failed hclient => exact Or.inl hclient
  | killed hclient hK => exact Or.inr (Or.inl ⟨hclient, hK⟩)
  | ended _ hP => exact Or.inr (Or.inr hP)
  | alone hopen _ =>
    rw [hclosed] at hopen
    cases hopen

/-- The two agree, the client takes all that the server writes, and the server's last words are
still to come as long as it is not over. -/
structure Engages (s : Duplex ι α β) (a : α) : Prop extends s.Agrees a [] where
  concludes : s.server.Concludes
  needed : s.server.isOpen = true → s.ahead.script.isOpen = true

theorem Agrees.ahead_open (h : s.Agrees a []) (hreply : s.reply.out ≠ []) :
    s.ahead.script.isOpen = true := by
  by_contra hclosed
  have hend := h.outcome_eq
  rw [outcome, Script.eval_of_not_open (Bool.eq_false_iff.2 hclosed),
    Script.Evaluated.mk.injEq] at hend
  exact hreply (List.append_eq_nil_iff.1 hend.2.2).2

theorem Engages.step_client (h : s.Engages a) {c : Syscall} (hc : c ≠ .fails) :
    (s.step e (.client, c)).Engages a where
  toAgrees := h.toAgrees.step_client e hc
  concludes := h.concludes
  needed := by
    rw [(h.toAgrees.ahead_step_client e hc).1]
    exact h.needed

theorem Engages.step_server (h : s.Engages a) (hopen : s.client.isOpen = true) {c : Syscall}
    (hc : c ≠ .fails) : (s.step e (.server, c)).Engages a := by
  cases c with
  | fails => exact absurd rfl hc
  | interrupted =>
    rw [step_interrupted]
    exact h
  | moves n =>
    have hconcludes := h.concludes
    cases hserver : s.server with
    | done r =>
      rw [step_server_of_closed e (by rw [hserver]; rfl)]
      exact h
    | killed =>
      rw [step_server_of_closed e (by rw [hserver]; rfl)]
      exact h
    | write b left next =>
      rw [step_server_of_write e hserver hopen]
      rw [hserver] at hconcludes
      have hagrees := h.toAgrees.step_server_write hserver n
      refine ⟨hagrees, Script.concludes_writeExact hconcludes _, fun hopen' => ?_⟩
      -- what is left to be written is what the client waits for
      exact hagrees.ahead_open
        (Script.out_ne_nil_of_writes (Script.writes_writeExact hconcludes _) hopen' _)
    | read missing got next =>
      have hagrees := h.toAgrees.step_server e hopen (c := .moves n) (by simp)
      by_cases hempty : s.toServer = []
      · rw [step_server_of_waits e hserver hempty hopen]
        exact h
      · rw [step_server_of_act e (Script.act_moves_read hserver hempty n), List.append_nil]
          at hagrees ⊢
        rw [hserver] at hconcludes
        exact ⟨hagrees, Script.concludes_resume hconcludes _,
          fun _ => h.needed (by rw [hserver]; rfl)⟩

theorem Engages.step (h : s.Engages a) (hopen : s.client.isOpen = true) {c : Party × Syscall}
    (hc : ¬ s.Fails c) : (s.step e c).Engages a := by
  obtain ⟨p, c⟩ := c
  cases p with
  | client => exact h.step_client e fun hfails => hc (Or.inl (by rw [hfails]))
  | server =>
    by_cases hserver : s.server.isOpen = true
    · exact h.step_server e hopen fun hfails => hc (Or.inr ⟨by rw [hfails], hserver⟩)
    · rw [step_server_of_closed e (Bool.eq_false_iff.2 hserver)]
      exact h

/-- After a failure the client cannot get the result. -/
theorem Engages.stays (h : s.Engages a) (hopen : s.client.isOpen = true) (K : Prop)
    {c : Party × Syscall} (hc : s.Fails c) :
    Stays e K (fun sc => sc.isOpen = true) (s.step e c) := by
  rcases hc with rfl | ⟨rfl, hserver⟩
  · exact .failed (by rw [step_client_of_act e (Script.act_fails hopen)])
  · apply stays_of_alone
    rw [step_server_of_act e (Script.act_fails hserver), List.append_nil]
    exact ⟨rfl, h.needed hserver⟩

end Failures

/-! ## Whole runs -/

section Runs

variable {schedule : ℕ → Party × Syscall} {s : Duplex ι α β} {a : α} {unread : List ι}

/-- At some time the client is killed for writing to a closed stream. -/
def BrokenPipe (schedule : ℕ → Party × Syscall) (s : Duplex ι α β) : Prop :=
  ∃ t, Killing e (run e schedule s t) (schedule t)

/-- Before the client has ended, a call of one of the two fails. -/
def CutOff (schedule : ℕ → Party × Syscall) (s : Duplex ι α β) : Prop :=
  ∃ t, (run e schedule s t).client.isOpen = true ∧ (run e schedule s t).Fails (schedule t)

theorem client_run_of_closed {t u : ℕ} (h : (run e schedule s t).client.isOpen = false)
    (hle : t ≤ u) : (run e schedule s u).client = (run e schedule s t).client := by
  induction hle with
  | refl => rfl
  | step _ ih => exact (client_step_of_closed e (by rw [ih, h]) _).trans ih

theorem client_run_eq_of_closed {t u : ℕ} (ht : (run e schedule s t).client.isOpen = false)
    (hu : (run e schedule s u).client.isOpen = false) :
    (run e schedule s t).client = (run e schedule s u).client := by
  rcases Nat.le_total t u with hle | hle
  · exact (client_run_of_closed e ht hle).symm
  · exact client_run_of_closed e hu hle

theorem agrees_or_stays (h : s.Agrees a unread) (t : ℕ) :
    (run e schedule s t).client.isOpen = true ∧ (run e schedule s t).Agrees a unread ∨
      Stays e (BrokenPipe e schedule s) (AtBest a) (run e schedule s t) := by
  have hagrees {u : Duplex ι α β} (hu : u.Agrees a unread) :
      u.client.isOpen = true ∧ u.Agrees a unread ∨
        Stays e (BrokenPipe e schedule s) (AtBest a) u := by
    by_cases hopen : u.client.isOpen = true
    · exact Or.inl ⟨hopen, hu⟩
    · have hclosed := Bool.eq_false_iff.2 hopen
      exact Or.inr (.ended hclosed (Or.inr (hu.client_eq hclosed)))
  induction t with
  | zero => exact hagrees h
  | succ t ih =>
    rcases ih with ⟨hopen, hu⟩ | hstays
    · rcases hu.step_or_stays e hopen (BrokenPipe e schedule s) (schedule t) with hu' | hstays
      · exact hagrees hu'
      · exact Or.inr hstays
    · exact Or.inr (hstays.step e fun hkilling => ⟨t, hkilling⟩)

theorem exists_closed_of_agrees (hfair : Fair schedule) (h : s.Agrees a unread) :
    ∃ t, (run e schedule s t).client.isOpen = false := by
  apply exists_closed e hfair
  intro t hopen
  rcases agrees_or_stays e h t with ⟨-, hu⟩ | hstays
  · exact hu.exists_ready e hopen
  · exact ⟨.client, hstays.ready e hopen⟩

theorem exists_end (hfair : Fair schedule) (h : s.Agrees a unread) :
    ∃ t, (run e schedule s t).client = .done a ∨
      (run e schedule s t).client = .done e.clientFail ∨
      (run e schedule s t).client = .killed ∧ BrokenPipe e schedule s := by
  obtain ⟨t, hclosed⟩ := exists_closed_of_agrees e hfair h
  refine ⟨t, ?_⟩
  rcases agrees_or_stays e h t with ⟨hopen, -⟩ | hstays
  · rw [hclosed] at hopen
    cases hopen
  · rcases hstays.closed e hclosed with hfail | hkilled | (hopen | hdone)
    · exact Or.inr (Or.inl hfail)
    · exact Or.inr (Or.inr hkilled)
    · rw [hclosed] at hopen
      cases hopen
    · exact Or.inl hdone

theorem exists_result (hfair : Fair schedule) (h : s.Agrees a unread)
    (hcut : ¬ CutOff e schedule s) : ∃ t, (run e schedule s t).client = .done a := by
  have hagrees (t : ℕ) : (run e schedule s t).client = .done a ∨
      (run e schedule s t).Agrees a unread := by
    induction t with
    | zero => exact Or.inr h
    | succ t ih =>
      rcases ih with hdone | hu
      · left
        rw [run, client_step_of_closed e (by rw [hdone]; rfl), hdone]
      · by_cases hopen : (run e schedule s t).client.isOpen = true
        · exact Or.inr (hu.step_of_not_fails e hopen fun hfail => hcut ⟨t, hopen, hfail⟩)
        · left
          have hclosed := Bool.eq_false_iff.2 hopen
          rw [run, client_step_of_closed e hclosed, hu.client_eq hclosed]
  have hready (t : ℕ) (hopen : (run e schedule s t).client.isOpen = true) :
      ∃ p, (run e schedule s t).Ready e p := by
    rcases hagrees t with hdone | hu
    · rw [hdone] at hopen
      cases hopen
    · exact hu.exists_ready e hopen
  obtain ⟨t, hclosed⟩ := exists_closed e hfair hready
  rcases hagrees t with hdone | hu
  · exact ⟨t, hdone⟩
  · exact ⟨t, hu.client_eq hclosed⟩

theorem engages_or_stays (h : s.Engages a) (t : ℕ) :
    (run e schedule s t).client = .done a ∨
      (run e schedule s t).client.isOpen = true ∧ (run e schedule s t).Engages a ∨
      Stays e (BrokenPipe e schedule s) (fun sc => sc.isOpen = true) (run e schedule s t) := by
  have hengages {u : Duplex ι α β} (hu : u.Engages a) :
      u.client = .done a ∨ u.client.isOpen = true ∧ u.Engages a := by
    by_cases hopen : u.client.isOpen = true
    · exact Or.inr ⟨hopen, hu⟩
    · exact Or.inl (hu.toAgrees.client_eq (Bool.eq_false_iff.2 hopen))
  induction t with
  | zero => exact (hengages h).imp_right Or.inl
  | succ t ih =>
    rcases ih with hdone | ⟨hopen, hu⟩ | hstays
    · left
      rw [run, client_step_of_closed e (by rw [hdone]; rfl), hdone]
    · by_cases hc : (run e schedule s t).Fails (schedule t)
      · exact Or.inr (Or.inr (hu.stays e hopen _ hc))
      · exact (hengages (hu.step e hopen hc)).imp_right Or.inl
    · exact Or.inr (Or.inr (hstays.step e fun hkilling => ⟨t, hkilling⟩))

theorem exists_failure (hfair : Fair schedule) (h : s.Engages a) (hcut : CutOff e schedule s) :
    ∃ t, (run e schedule s t).client = .done e.clientFail ∨
      (run e schedule s t).client = .killed ∧ BrokenPipe e schedule s := by
  obtain ⟨t, hopen, hfails⟩ := hcut
  -- from the failure on the client is lost
  have hlost (u : ℕ) : Stays e (BrokenPipe e schedule s) (fun sc => sc.isOpen = true)
      (run e schedule s (t + 1 + u)) := by
    induction u with
    | zero =>
      rcases engages_or_stays e h t with hdone | ⟨-, hu⟩ | hstays
      · rw [hdone] at hopen
        cases hopen
      · exact hu.stays e hopen _ hfails
      · exact hstays.step e fun hkilling => ⟨t, hkilling⟩
    | succ u ih => exact ih.step e fun hkilling => ⟨t + 1 + u, hkilling⟩
  obtain ⟨u, hclosed⟩ := exists_closed_of_agrees e hfair h.toAgrees
  have hclosed' : (run e schedule s (t + 1 + u)).client.isOpen = false := by
    rw [client_run_of_closed e hclosed (Nat.le_add_left _ _), hclosed]
  refine ⟨t + 1 + u, ?_⟩
  rcases (hlost u).closed e hclosed' with hfail | hkilled | hopen'
  · exact Or.inl hfail
  · exact Or.inr hkilled
  · rw [hclosed'] at hopen'
    cases hopen'

theorem killed_of_brokenPipe (h : BrokenPipe e schedule s) :
    ∃ t, (run e schedule s t).client = .killed := by
  obtain ⟨t, hkilling⟩ := h
  exact ⟨t + 1, client_step_of_killing e hkilling⟩

end Runs

end Duplex

end Lib
