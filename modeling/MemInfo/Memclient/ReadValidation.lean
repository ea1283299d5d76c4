import MemInfo.Memclient.Placement
import MemInfo.Memclient.WriteBack

/-! # Validation of what is read

A response to READ has passed the verifier of `on_peer_read`, which is about the layout of the
buffer. `read_remote` looks at the status and at the presence of data, and neither at the length
of the data nor at the checksum.
-/

namespace MemInfo

open Lib Prog

namespace MemoryClient

def readAnswer : Event Effect Effect.Res → Option MemoryResponse
  | ⟨.net (.call _ req), .response r⟩ => if req.op = .read then some r else none
  | _ => none

def readAnswers (log : Log) : List MemoryResponse := log.filterMap readAnswer

def payload (r : MemoryResponse) : List Byte := r.data.getD []

/-- A call for `size` bytes that does not store outside of its buffer, and that returns so many
bytes, all of them from responses with a checksum that matches, if it returns. -/
structure Validated (size : ℕ) (out : Outcome Err (List Byte)) (log : Log) : Prop where
  inside : out ≠ .aborted .undefined
  length : ∀ data, out = .ok data → data.length = size
  received : ∀ data, out = .ok data → data = (readAnswers log).flatMap payload
  checked : ∀ data, out = .ok data → ∀ r ∈ readAnswers log, crc32c (payload r) = r.checksum

variable {ν : Type}

/-- `read_remote` validates what these peers send it, and it comes to an end. -/
structure ReadsValidated (net : (o : NetOp) → ν → o.Res → ν → Prop) : Prop where
  validated : ∀ c w alloc offset size rel out s log, (∀ x ∈ alloc.stripes, x.length < 2 ^ 64) →
    Runs (logged (clientEnv net)) (readRemote alloc offset size rel) ((c, w), []) out (s, log) →
    Validated size out log
  ends : ∀ c w alloc offset size rel out s log,
    (alloc.isStriped = true → Consecutive 0 alloc.stripes alloc.size) → alloc.size < 2 ^ 64 →
    offset + size ≤ alloc.size →
    Runs (logged (clientEnv net)) (readRemote alloc offset size rel) ((c, w), []) out (s, log) →
    out ≠ .aborted .diverges

/-- A READ that may be sent in this state of the network: of a part of a stripe, or to a peer that
has just been found connected. -/
def Requested (net : (o : NetOp) → ν → o.Res → ν → Prop) (p offset size : ℕ) (w : ν) : Prop :=
  (0 < size ∧ offset + size < 2 ^ 64) ∨ ∃ w₀ peer, net (.peer p) w₀ peer w ∧ peer.connected = true

section Logs

variable {tr tr₁ tr₂ : Log} {data data₁ data₂ : List Byte}

theorem readAnswers_append : readAnswers (tr₁ ++ tr₂) = readAnswers tr₁ ++ readAnswers tr₂ :=
  List.filterMap_append

/-- The bytes that the READ requests of a log brought, with checksums that match. -/
structure Delivered (tr : Log) (data : List Byte) : Prop where
  bytes : (readAnswers tr).flatMap payload = data
  checked : ∀ r ∈ readAnswers tr, crc32c (payload r) = r.checksum

theorem Delivered.of_no_read (h : readAnswers tr = []) : Delivered tr [] := by
  constructor <;> simp [h]

theorem payload_of_data {r : MemoryResponse} (h : r.data = some data) : payload r = data := by
  rw [payload, h, Option.getD_some]

/-- One response, with a checksum that matches. -/
theorem Delivered.of_read {r : MemoryResponse} (h : readAnswers tr = [r])
    (hdata : r.data = some data) (hcrc : crc32c data = r.checksum) : Delivered tr data := by
  constructor
  · rw [h, List.flatMap_singleton, payload_of_data hdata]
  · rw [h]
    intro r' hr'
    rw [List.mem_singleton.mp hr', payload_of_data hdata]
    exact hcrc

theorem Delivered.append (h₁ : Delivered tr₁ data₁) (h₂ : Delivered tr₂ data₂) :
    Delivered (tr₁ ++ tr₂) (data₁ ++ data₂) := by
  constructor
  · rw [readAnswers_append, List.flatMap_append, h₁.bytes, h₂.bytes]
  · intro r hr
    rw [readAnswers_append] at hr
    rcases List.mem_append.mp hr with hr | hr
    · exact h₁.checked r hr
    · exact h₂.checked r hr

theorem Delivered.validated {size : ℕ} (h : Delivered tr data) (hlen : data.length = size) :
    Validated size (.ok data) tr := by
  constructor
  · exact nofun
  · rintro _ ⟨⟩
    exact hlen
  · rintro _ ⟨⟩
    exact h.bytes.symm
  · rintro _ ⟨⟩
    exact h.checked

theorem validated_threw {size : ℕ} {e : Err} : Validated size (.threw e) tr :=
  ⟨nofun, nofun, nofun, nofun⟩

end Logs

def Faithful : (o : Effect) → o.Res → Prop
  | .mem .nextRequestId, id => id < 2 ^ 64
  | .net (.call _ req), r => ∀ handle offset size id resp data,
    req = readRequest handle offset size id → id < 2 ^ 64 → 0 < size → offset + size < 2 ^ 64 →
    r = .response resp → resp.status = .ok → resp.data = some data →
    data.length = size ∧ crc32c data = resp.checksum
  | _, _ => True

section Traces

variable {ans : (o : Effect) → o.Res → Prop} {tr : Log} {p handle offset size ro n : ℕ}
  {rel : Bool}

theorem emits_releaseAfter {out : Outcome Err Unit}
    (he : Emits ans (releaseAfter rel p handle) out tr) :
    readAnswers tr = [] ∧ (out = .ok () ∨ ∃ e, out = .threw e) := by
  unfold releaseAfter at he
  split_ifs at he
  · obtain ⟨id, tr₁, -, ⟨r, tr₂, -, he, rfl⟩, rfl⟩ := he
    cases r with
    | response resp =>
      obtain ⟨rfl, rfl⟩ := he
      exact ⟨rfl, .inl rfl⟩
    | empty =>
      obtain ⟨rfl, rfl⟩ := he
      exact ⟨rfl, .inl rfl⟩
    | timeout =>
      obtain ⟨rfl, rfl⟩ := he
      exact ⟨rfl, .inr ⟨_, rfl⟩⟩
  · obtain ⟨rfl, rfl⟩ := he
    exact ⟨rfl, .inl rfl⟩

theorem emits_fetch {out : Outcome Err (List Byte)}
    (he : Emits Faithful (fetch p handle offset size) out tr) (hpos : 0 < size)
    (hlt : offset + size < 2 ^ 64) :
    (∃ e, out = .threw e) ∨ ∃ data, out = .ok data ∧ data.length = size ∧ Delivered tr data := by
  obtain ⟨id, tr₁, hid, ⟨r, tr₂, hr, he, rfl⟩, rfl⟩ := he
  cases r with
  | empty => exact .inl ⟨_, he.1⟩
  | timeout => exact .inl ⟨_, he.1⟩
  | response resp =>
    change Emits Faithful (responseData (some resp)) out tr₂ at he
    obtain ⟨data, hst, hdata, hret⟩ | ⟨e, hret⟩ := responseData_cases resp
    · rw [hret] at he
      obtain ⟨rfl, rfl⟩ := he
      obtain ⟨hlen, hcrc⟩ := hr handle offset size id resp data rfl hid hpos hlt rfl hst hdata
      exact .inr ⟨data, rfl, hlen, .of_read rfl hdata hcrc⟩
    · rw [hret] at he
      exact .inl ⟨e, he.1⟩

theorem emits_readStripe {x : Stripe} {result : List Byte} {out : Outcome Err (List Byte)}
    (he : Emits Faithful (readStripe x offset n rel result ro) out tr) (hpos : 0 < n)
    (hlt : offset + n < 2 ^ 64) (hfit : ro + n ≤ result.length) :
    (∃ e, out = .threw e) ∨
      ∃ data, out = .ok (splice result ro data) ∧ data.length = n ∧ Delivered tr data := by
  obtain ⟨data, tr₁, tr₂, h₁, h₂, rfl⟩ | ⟨e, -, rfl⟩ | ⟨y, h₁, rfl⟩ := emits_bind he
  · obtain ⟨e, he⟩ | ⟨data', he, hlen, hd⟩ := emits_fetch h₁ hpos hlt
    · cases he
    · obtain rfl := Outcome.ok.inj he
      rw [if_neg (by omega)] at h₂
      obtain ⟨u, tr₃, tr₄, h₃, h₄, rfl⟩ | ⟨e, -, rfl⟩ | ⟨y, h₃, rfl⟩ := emits_bind h₂
      · obtain ⟨rfl, rfl⟩ := h₄
        refine .inr ⟨data, rfl, hlen, ?_⟩
        have hrel := Delivered.of_no_read (emits_releaseAfter h₃).1
        simpa using hd.append hrel
      · exact .inl ⟨e, rfl⟩
      · obtain h | ⟨e, h⟩ := (emits_releaseAfter h₃).2
        · cases h
        · cases h
  · exact .inl ⟨e, rfl⟩
  · obtain ⟨e, he⟩ | ⟨data, he, -⟩ := emits_fetch h₁ hpos hlt
    · cases he
    · cases he

theorem take_splice {result data : List Byte} (h : ro ≤ result.length) :
    (splice result ro data).take (ro + data.length) = result.take ro ++ data := by
  have hlen : (result.take ro ++ data).length = ro + data.length := by
    rw [List.length_append, List.length_take, Nat.min_eq_left h]
  rw [splice, ← hlen, List.take_left]

theorem emits_readPass {xs : List Stripe} {result : List Byte} {out : Outcome Err (List Byte × ℕ)}
    (he : Emits Faithful (readPass offset size rel xs result ro) out tr)
    (hx : ∀ x ∈ xs, x.length < 2 ^ 64) (hlen : result.length = size) (hro : ro ≤ size) :
    (∃ e, out = .threw e) ∨
      ∃ result' ro' data, out = .ok (result', ro') ∧ result'.length = size ∧ ro' ≤ size ∧
        result'.take ro' = result.take ro ++ data ∧ Delivered tr data := by
  induction xs generalizing result ro tr with
  | nil =>
    obtain ⟨rfl, rfl⟩ := he
    exact .inr ⟨result, ro, [], rfl, hlen, hro, (List.append_nil _).symm, .of_no_read rfl⟩
  | cons x xs ih =>
    have hxs : ∀ y ∈ xs, y.length < 2 ^ 64 := fun y hy => hx y (List.mem_cons_of_mem _ hy)
    have hxl := hx x List.mem_cons_self
    unfold readPass at he
    split_ifs at he with hge hcov
    · obtain ⟨rfl, rfl⟩ := he
      exact .inr ⟨result, ro, [], rfl, hlen, hro, (List.append_nil _).symm, .of_no_read rfl⟩
    · dsimp only at he
      obtain ⟨hlo, hhi⟩ := hcov
      have hwrap : wrap (x.offset + x.length) ≤ x.offset + x.length := Nat.mod_le _ _
      obtain ⟨k, hk⟩ : ∃ k, k = wrap (offset + ro) - x.offset := ⟨_, rfl⟩
      obtain ⟨m, hm⟩ : ∃ m, m = min (size - ro) (x.length - k) := ⟨_, rfl⟩
      rw [← hk, ← hm] at he
      obtain ⟨result₁, tr₁, tr₂, h₁, h₂, rfl⟩ | ⟨e, -, rfl⟩ | ⟨y, h₁, rfl⟩ := emits_bind he
      · obtain ⟨e, tr₃, tr₄, -, h₄, -⟩ | ⟨h₃, -⟩ := emits_tryCatch h₁
        · cases h₄.1
        · obtain ⟨e, h⟩ | ⟨data, h, hdata, hd⟩ :=
            emits_readStripe h₃ (by omega) (by omega) (by omega)
          · cases h
          · obtain rfl := Outcome.ok.inj h
            have hfit : ro + data.length ≤ result.length := by omega
            obtain hthrew | ⟨result', ro', rest, hout, hlen', hro', htake, hrest⟩ :=
              ih h₂ hxs ((length_splice hfit).trans hlen) (by omega)
            · exact .inl hthrew
            · refine .inr ⟨result', ro', data ++ rest, hout, hlen', hro', ?_, hd.append hrest⟩
              rw [htake, ← hdata, take_splice (by omega), List.append_assoc]
      · exact .inl ⟨e, rfl⟩
      · obtain ⟨e, tr₃, tr₄, -, h₄, -⟩ | ⟨h₃, -⟩ := emits_tryCatch h₁
        · cases h₄.1
        · obtain ⟨e, h⟩ | ⟨data, h, -⟩ := emits_readStripe h₃ (by omega) (by omega) (by omega)
          · cases h
          · cases h
    · exact ih he hxs hlen hro

theorem emits_readPasses {xs : List Stripe} {passes : ℕ} {result : List Byte}
    {out : Outcome Err (List Byte)}
    (he : Emits Faithful (readPasses offset size rel xs passes result ro) out tr)
    (hx : ∀ x ∈ xs, x.length < 2 ^ 64) (hlen : result.length = size) (hro : ro ≤ size) :
    (∃ e, out = .threw e) ∨ out = .aborted .diverges ∨
      ∃ data, out = .ok (result.take ro ++ data) ∧ (result.take ro ++ data).length = size ∧
        Delivered tr data := by
  induction passes generalizing result ro tr with
  | zero => exact .inr (.inl he.1)
  | succ passes ih =>
    unfold readPasses at he
    split_ifs at he with hlt
    · obtain ⟨⟨result₁, ro₁⟩, tr₁, tr₂, h₁, h₂, rfl⟩ | ⟨e, -, rfl⟩ | ⟨y, h₁, rfl⟩ := emits_bind he
      · obtain ⟨e, h⟩ | ⟨result', ro', data, h, hlen', hro', htake, hd⟩ :=
          emits_readPass h₁ hx hlen hro
        · cases h
        · obtain ⟨rfl, rfl⟩ := Prod.mk.inj (Outcome.ok.inj h)
          obtain hthrew | hdiv | ⟨rest, hout, hlen'', hrest⟩ := ih h₂ hlen' hro'
          · exact .inl hthrew
          · exact .inr (.inl hdiv)
          · rw [htake, List.append_assoc] at hout hlen''
            exact .inr (.inr ⟨data ++ rest, hout, hlen'', hd.append hrest⟩)
      · exact .inl ⟨e, rfl⟩
      · obtain ⟨e, h⟩ | ⟨result', ro', data, h, -⟩ := emits_readPass h₁ hx hlen hro
        · cases h
        · cases h
    · obtain ⟨rfl, rfl⟩ := he
      have htake : result.take ro = result := List.take_of_length_le (by omega)
      refine .inr (.inr ⟨[], ?_, ?_, .of_no_read rfl⟩)
      · rw [htake, List.append_nil]
      · rw [htake, List.append_nil, hlen]

/-- A pass over consecutive stripes from the one that holds the next byte reads all that is
left. -/
theorem emits_readPass_end {xs : List Stripe} {lo hi ro' : ℕ} {result result' : List Byte}
    (he : Emits ans (readPass offset size rel xs result ro) (.ok (result', ro')) tr)
    (hx : Consecutive lo xs hi) (hhi : hi < 2 ^ 64) (hle : offset + size ≤ hi)
    (hlo : ro < size → lo ≤ offset + ro) (hro : ro ≤ size) : ro' = size := by
  induction xs generalizing result ro tr lo with
  | nil =>
    obtain rfl : lo = hi := hx
    obtain rfl := (Prod.mk.inj (Outcome.ok.inj he.1)).2
    omega
  | cons x xs ih =>
    obtain ⟨rfl, hpos, hx⟩ := hx
    have hxe := hx.le
    unfold readPass at he
    split_ifs at he with hge hcov
    · obtain rfl := (Prod.mk.inj (Outcome.ok.inj he.1)).2
      omega
    · rw [Covers, wrap_of_lt (by omega), wrap_of_lt (by omega)] at hcov
      rw [wrap_of_lt (by omega)] at he
      obtain ⟨result₁, tr₁, tr₂, -, h₂, rfl⟩ | ⟨e, -, h⟩ | ⟨y, -, h⟩ := emits_bind he
      · exact ih h₂ hx (fun _ => by omega) (by omega)
      · cases h
      · cases h
    · rw [Covers, wrap_of_lt (by omega), wrap_of_lt (by omega)] at hcov
      exact ih he hx (fun _ => by omega) hro

theorem readRemote_ends {alloc : RemoteAllocation} {out : Outcome Err (List Byte)}
    (he : Emits ans (readRemote alloc offset size rel) out tr)
    (hx : alloc.isStriped = true → Consecutive 0 alloc.stripes alloc.size)
    (hlt : alloc.size < 2 ^ 64) (hle : offset + size ≤ alloc.size) : out ≠ .aborted .diverges := by
  rintro rfl
  have hb : Background fun _ => True := ⟨trivial, fun _ _ => trivial⟩
  unfold readRemote at he
  split_ifs at he with hs
  · unfold readPasses at he
    split_ifs at he with hpos
    · obtain ⟨⟨result', ro'⟩, tr₁, tr₂, h₁, h₂, rfl⟩ | ⟨e, -, h⟩ | ⟨y, h₁, h⟩ := emits_bind he
      · have hend := emits_readPass_end h₁ (hx hs) hlt hle (fun _ => Nat.zero_le _) (Nat.zero_le _)
        subst hend
        dsimp only at h₂
        rw [readPasses_done _ _ _ _ _ hpos] at h₂
        cases h₂.1
      · cases h
      · have hy : y = .undefined := h₁.abort (confined_readPass hb
          (fun _ _ _ _ _ _ => trivial) (fun _ _ _ _ => trivial) _ _ _)
        rw [hy] at h
        cases h
    · cases he.1
  · have hconf : Confined (fun _ => True) (fun _ => False) (requirePeer alloc >>= fun p => do
        let data ← fetch p alloc.remoteHandle offset size
        releaseAfter rel p alloc.remoteHandle
        Pure.pure data) := by
      apply confined_requirePeer hb
      intro p _
      apply Confined.bind (confined_fetch hb fun _ => trivial)
      intro data
      exact .bind (confined_releaseAfter hb fun _ _ => trivial) fun _ => trivial
    exact he.abort hconf

end Traces

section Peers

variable {net : (o : NetOp) → ν → o.Res → ν → Prop} {p handle offset size id : ℕ} {w w' : ν}
  {resp : MemoryResponse} {data : List Byte}

/-- Peers that answer a READ with `StatusCode_OK` and data only if the data has the length that was
asked for and its checksum. -/
def AnswersReads (net : (o : NetOp) → ν → o.Res → ν → Prop) : Prop :=
  ∀ p handle offset size id w resp data w', id < 2 ^ 64 → Requested net p offset size w →
    net (.call p (readRequest handle offset size id)) w (.response resp) w' →
    resp.status = .ok → resp.data = some data →
    data.length = size ∧ crc32c data = resp.checksum

theorem AnswersReads.faithful (hnet : AnswersReads net) {o : Effect} {s s' : Client × ν} {r : o.Res}
    (h : clientEnv net o s r s') : Faithful o r := by
  match o with
  | .mem o =>
    cases o with
    | nextRequestId =>
      obtain rfl : r = wrap s.1.nextRequestId := congrArg Prod.fst h.1
      exact wrap_lt _
    | _ => trivial
  | .net o =>
    cases o with
    | call p req =>
      rintro handle offset size id resp data rfl hid hpos hlt rfl hst hdata
      exact hnet p handle offset size id s.2 resp data s'.2 hid (.inl ⟨hpos, hlt⟩) h.2 hst hdata
    | _ => trivial

theorem AnswersReads.validated_striped (hnet : AnswersReads net) {alloc : RemoteAllocation}
    {rel : Bool} {c : Client} {out : Outcome Err (List Byte)} {s : Client × ν} {log : Log}
    (hs : alloc.isStriped = true) (hx : ∀ x ∈ alloc.stripes, x.length < 2 ^ 64)
    (hr : Runs (logged (clientEnv net)) (readRemote alloc offset size rel) ((c, w), []) out
      (s, log)) : Validated size out log := by
  have hans : ∀ o s r s', True → clientEnv net o s r s' → True ∧ Faithful o r :=
    fun _ _ _ _ _ h => ⟨trivial, hnet.faithful h⟩
  obtain ⟨tr, rfl, he⟩ := Runs.emits (I := fun _ => True) hans trivial hr
  unfold readRemote at he
  rw [if_pos hs] at he
  obtain ⟨e, rfl⟩ | rfl | ⟨data, rfl, hlen, hd⟩ :=
    emits_readPasses he hx List.length_replicate (Nat.zero_le _)
  · exact validated_threw
  · exact ⟨nofun, nofun, nofun, nofun⟩
  · exact hd.validated hlen

theorem readRemote_single {alloc : RemoteAllocation} (hs : ¬ alloc.isStriped = true)
    (hp : alloc.peer = some p) (offset size : ℕ) (rel : Bool) :
    readRemote alloc offset size rel = (do
      let peer ← MemoryClient.net (.peer p)
      if peer.connected then do
        let data ← fetch p alloc.remoteHandle offset size
        releaseAfter rel p alloc.remoteHandle
        Pure.pure data
      else MonadExcept.throw (.runtimeError "Peer not connected")) := by
  rw [readRemote, if_neg hs, requirePeer, hp]
  dsimp only
  rw [bind_assoc]
  apply bind_congr
  intro peer
  split_ifs <;> rfl

theorem AnswersReads.validated_single (hnet : AnswersReads net) {alloc : RemoteAllocation}
    {rel : Bool} {c : Client} {out : Outcome Err (List Byte)} {s : Client × ν} {log : Log}
    (hs : ¬ alloc.isStriped = true)
    (hr : Runs (logged (clientEnv net)) (readRemote alloc offset size rel) ((c, w), []) out
      (s, log)) : Validated size out log := by
  cases hp : alloc.peer with
  | none =>
    rw [readRemote, if_neg hs, requirePeer, hp] at hr
    obtain ⟨rfl, -⟩ := hr
    exact validated_threw
  | some p =>
    rw [readRemote_single hs hp] at hr
    obtain ⟨peer, w₁, hpeer, hr⟩ := runs_bind_net hr
    split_ifs at hr with hconn
    swap
    · obtain ⟨rfl, -⟩ := hr
      exact validated_threw
    rw [fetch, syncRemoteCall] at hr
    simp only [bind_assoc] at hr
    replace hr := runs_bind_mem hr
    obtain ⟨r, w₂, hcall, hr⟩ := runs_bind_net hr
    cases r with
    | empty =>
      obtain ⟨rfl, -⟩ := hr
      exact validated_threw
    | timeout =>
      obtain ⟨rfl, -⟩ := hr
      exact validated_threw
    | response resp =>
      change Runs _ (responseData (some resp) >>= fun data => do
        releaseAfter rel p alloc.remoteHandle
        Pure.pure data) _ out (s, log) at hr
      obtain ⟨data, hst, hdata, hret⟩ | ⟨e, hret⟩ := responseData_cases resp
      · obtain ⟨hlen, hcrc⟩ := hnet p alloc.remoteHandle offset size _ w₁ resp data w₂ (wrap_lt _)
          (.inr ⟨w, peer, hpeer, hconn⟩) hcall hst hdata
        rw [hret] at hr
        change Runs _ (releaseAfter rel p alloc.remoteHandle >>= fun _ => Pure.pure data) _ out
          (s, log) at hr
        obtain ⟨tr, rfl, he⟩ := hr.emits_any
        obtain ⟨u, tr₁, tr₂, h₁, ⟨rfl, rfl⟩, rfl⟩ | ⟨e, -, rfl⟩ | ⟨y, h₁, rfl⟩ := emits_bind he
        · apply Delivered.validated _ hlen
          apply Delivered.of_read _ hdata hcrc
          rw [List.append_nil, readAnswers_append, (emits_releaseAfter h₁).1]
          rfl
        · exact validated_threw
        · obtain h | ⟨e, h⟩ := (emits_releaseAfter h₁).2
          · cases h
          · cases h
      · rw [hret] at hr
        obtain ⟨rfl, -⟩ := hr
        exact validated_threw

theorem readRemote_stripedBlock (hpos : 0 < size) (hlt : offset + size < 2 ^ 64) :
    readRemote (stripedBlock p handle (offset + size)) offset size false =
      (tryCatch (readStripe ⟨handle, 0, offset + size, p⟩ offset size false
          (List.replicate size 0) 0)
        (fun e => MonadExcept.throw (.runtimeError ("Failed to read stripe: " ++ e.what))) >>=
          fun result => Pure.pure result) := by
  have hcov : Covers ⟨handle, 0, offset + size, p⟩ offset := by
    simp only [Covers, Nat.zero_add, wrap_of_lt hlt]
    omega
  simp only [readRemote, stripedBlock, if_true, readPasses, if_pos hpos, readPass,
    if_neg (Nat.not_le.mpr hpos), Nat.add_zero, wrap_of_lt (n := offset) (by omega), if_pos hcov,
    Nat.sub_zero, Nat.add_sub_cancel_left, Nat.min_self, Nat.zero_add, bind_assoc, pure_bind,
    readPasses_done _ _ _ _ _ hpos]

def clientAt (id : ℕ) : Client := { Client.new 0 with nextRequestId := id }

theorem checked_of_striped (hval : ReadsValidated net) (hid : id < 2 ^ 64) (hpos : 0 < size)
    (hlt : offset + size < 2 ^ 64)
    (hcall : net (.call p (readRequest handle offset size id)) w (.response resp) w')
    (hst : resp.status = .ok) (hdata : resp.data = some data) :
    data.length = size ∧ crc32c data = resp.checksum := by
  have hrun : wp (logged (clientEnv net)) (fun _ _ => True)
      (readRemote (stripedBlock p handle (offset + size)) offset size false)
      (fun out s => Validated size out s.2) ((clientAt id, w), []) := by
    refine wp_iff.mpr ⟨always_true, fun out s hr => ?_⟩
    exact hval.validated _ w _ offset size false out s.1 s.2 (by simpa [stripedBlock] using hlt) hr
  rw [readRemote_stripedBlock hpos hlt, wp_bind, wp_tryCatch] at hrun
  replace hrun := wp_mem_bind (wp_bind.mp hrun)
  have hidc : ((clientAt id).perform .nextRequestId).1 = id := wrap_of_lt hid
  rw [hidc] at hrun
  replace hrun := wp_net_bind hcall hrun
  change wp _ _ (responseData (some resp)) _ _ at hrun
  rw [responseData_of_ok hst hdata] at hrun
  change wp _ _ (if 0 + data.length > (List.replicate size (0 : Byte)).length then _ else _) _ _
    at hrun
  rw [Nat.zero_add, List.length_replicate] at hrun
  split_ifs at hrun with hlong
  · exact absurd rfl hrun.inside
  · change Validated size (.ok (splice (List.replicate size 0) 0 data)) _ at hrun
    have hlen := hrun.length _ rfl
    have hcheck := hrun.checked _ rfl resp (List.mem_singleton.mpr rfl)
    have hbytes : splice (List.replicate size 0) 0 data = payload resp :=
      (hrun.received _ rfl).trans (List.flatMap_singleton _ _)
    rw [payload_of_data hdata] at hbytes hcheck
    rw [hbytes] at hlen
    exact ⟨hlen, hcheck⟩

theorem checked_of_single (hval : ReadsValidated net) (hid : id < 2 ^ 64) {w₀ : ν}
    {peer : RemotePeer} (hpeer : net (.peer p) w₀ peer w) (hconn : peer.connected = true)
    (hcall : net (.call p (readRequest handle offset size id)) w (.response resp) w')
    (hst : resp.status = .ok) (hdata : resp.data = some data) :
    data.length = size ∧ crc32c data = resp.checksum := by
  have hrun : wp (logged (clientEnv net)) (fun _ _ => True)
      (readRemote { remoteHandle := handle, size, peer := some p } offset size false)
      (fun out s => Validated size out s.2) ((clientAt id, w₀), []) := by
    refine wp_iff.mpr ⟨always_true, fun out s hr => ?_⟩
    exact hval.validated _ w₀ _ offset size false out s.1 s.2
      (fun x hx => absurd hx List.not_mem_nil) hr
  rw [readRemote_single (p := p) Bool.false_ne_true rfl] at hrun
  replace hrun := wp_net_bind hpeer hrun
  rw [if_pos hconn, fetch, syncRemoteCall] at hrun
  simp only [bind_assoc] at hrun
  replace hrun := wp_mem_bind hrun
  have hidc : ((clientAt id).perform .nextRequestId).1 = id := wrap_of_lt hid
  rw [hidc] at hrun
  replace hrun := wp_net_bind hcall hrun
  change wp _ _ (responseData (some resp) >>= _) _ _ at hrun
  rw [responseData_of_ok hst hdata] at hrun
  change Validated size (.ok data) _ at hrun
  have hcheck := hrun.checked _ rfl resp (List.mem_singleton.mpr rfl)
  rw [payload_of_data hdata] at hcheck
  exact ⟨hrun.length _ rfl, hcheck⟩

/-- What `read_remote` returns is validated exactly if no peer answers a READ with
`StatusCode_OK` and data of another length, or with another checksum. -/
theorem reads_validated_iff (net : (o : NetOp) → ν → o.Res → ν → Prop) :
    ReadsValidated net ↔ AnswersReads net := by
  constructor
  · rintro hval p handle offset size id w resp data w' hid hreq hcall hst hdata
    rcases hreq with ⟨hpos, hlt⟩ | ⟨w₀, peer, hpeer, hconn⟩
    · exact checked_of_striped hval hid hpos hlt hcall hst hdata
    · exact checked_of_single hval hid hpeer hconn hcall hst hdata
  · intro hnet
    constructor
    · intro c w alloc offset size rel out s log hx hr
      by_cases hs : alloc.isStriped = true
      · exact hnet.validated_striped hs hx hr
      · exact hnet.validated_single hs hr
    · intro c w alloc offset size rel out s log hx hlt hle hr
      obtain ⟨tr, -, he⟩ := hr.emits_any
      exact readRemote_ends he hx hlt hle

end Peers

/-- A peer that answers every READ with three bytes and the checksum 0. -/
def threeBytes : (o : NetOp) → Unit → o.Res × Unit
  | .availableBytes, _ => (0, ())
  | .connectedPeers, _ => ([0], ())
  | .waitForConnectedPeer, _ => (true, ())
  | .candidates, _ => ([0], ())
  | .peer _, _ => ({ connected := true }, ())
  | .call _ _, _ => (.response { data := some [1, 2, 3] }, ())

/-- One byte is asked for: three are returned, or stored in a buffer of one byte. -/
theorem answer_not_validated :
    (eval (clientHandler threeBytes) (readRemote { size := 1, peer := some 0 } 0 1 false)
      (Client.new 0, ())).1 = .ok [1, 2, 3] ∧
    (eval (clientHandler threeBytes) (readRemote (stripedBlock 0 0 1) 0 1 false)
      (Client.new 0, ())).1 = .aborted .undefined ∧
    crc32c [1, 2, 3] ≠ 0 ∧
    ¬ ReadsValidated fun o w r w' => (r, w') = threeBytes o w := by
  refine ⟨by decide, by decide, by decide, fun hval => ?_⟩
  have hcall : (CallResult.response { data := some [1, 2, 3] }, ()) =
    threeBytes (.call 0 (readRequest 0 0 1 1)) () := rfl
  have hlen := (checked_of_striped hval (by decide) (by decide) (by decide) hcall rfl rfl).1
  exact absurd hlen (by decide)

end MemoryClient

end MemInfo
