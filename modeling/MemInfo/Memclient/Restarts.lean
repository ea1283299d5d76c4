import MemInfo.Lib.Threads
import MemInfo.Memclient.Hosts
import MemInfo.Memclient.Provenance
import MemInfo.Memclient.Upkeep

/-! # Peers that restart

A peer may lose its connection, get a new one, and restart its memoryd, which then counts
handles from 1 again. The client keeps the entries of blocks that are gone, so a handle that
is given out once more can meet an old entry. If a memoryd restarts only while neither the
table nor a call in progress names a block of it, no two entries name the same block, and
what is read of a handle was written to that handle.
-/

namespace MemInfo

open Lib Prog MemoryClient

/-- The peers answer a request or leave it without an answer. What is asked of the table of
peers and of the memory monitor is left open. -/
def hostNet : (o : NetOp) → (ℕ → Host) → o.Res → (ℕ → Host) → Prop
  | .call p req, w, .response resp, w' =>
    let r := (w p).daemon.serve (.request (w p).daemon.session req)
    r.1 = some resp ∧ r.2.granted < 2 ^ 64 ∧ w' = Function.update w p { w p with daemon := r.2 }
  | .call p req, w, _, w' =>
    w' = w ∨ w' = Function.update w p { w p with pending := req :: (w p).pending }
  | _, w, _, w' => w' = w

def mentioned : (o : Effect) → o.Res → Set ℕ
  | .mem (.remoteFind _), some a => { p | ∃ r ∈ a.refs, r.1 = p }
  | .net (.call p req), .response resp => { q | q = p ∧ req.op = .alloc ∧ resp.status = .ok }
  | _, _ => ∅

structure Fleet (ι : Type) where
  client : Client
  hosts : ℕ → Host
  /-- The peers of the blocks that a call has been told of. -/
  told : ι → Set ℕ

variable {ι : Type}

def fleetEnv [DecidableEq ι] (i : ι) (o : Effect) (s : Fleet ι) (r : o.Res) (s' : Fleet ι) : Prop :=
  clientEnv hostNet o (s.client, s.hosts) r (s'.client, s'.hosts) ∧
    s'.told = Function.update s.told i (s.told i ∪ mentioned o r)

/-- What the peers may do by themselves. A memoryd restarts only where `may` allows it. -/
inductive Fleet.Moves (may : (ι → ClientM Value) → Fleet ι → ℕ → Prop) (T : ι → ClientM Value)
    (s : Fleet ι) : Fleet ι → Prop where
  | host (p : ℕ) (x : Host) : (s.hosts p).Step x → x.daemon.granted < 2 ^ 64 →
      Moves may T s { s with hosts := Function.update s.hosts p x }
  | restart (p : ℕ) (x : Host) : may T s p → x.Fresh →
      Moves may T s { s with hosts := Function.update s.hosts p x }

/-- The states of a client on which `calls` are made, with the calls as far as they have got. -/
abbrev FleetRuns [DecidableEq ι] (may : (ι → ClientM Value) → Fleet ι → ℕ → Prop) (calls : ι → Call)
    (s : Fleet ι) : (ι → ClientM Value) → Fleet ι → Prop :=
  Evolves fleetEnv (Fleet.Moves may) (fun i => (calls i).exec) s

/-- No entry of the table names a block of the peer, and no call in progress has been granted
one or has found one in the table. -/
def Unnamed (T : ι → ClientM Value) (s : Fleet ι) (p : ℕ) : Prop :=
  (∀ x ∈ s.client.held, x.peer ≠ p) ∧ ∀ i, Active (T i) → p ∉ s.told i

structure Fleet.Started (maxLocalBytes : ℕ) (s : Fleet ι) : Prop where
  client : s.client = Client.new maxLocalBytes
  hosts : ∀ p, (s.hosts p).Fresh
  told : ∀ i, s.told i = ∅

section Clients

variable {W : ℕ → Byte → Prop} {label label' : Ref → Option ℕ} {c : Client} {h : ℕ}
  {a : RemoteAllocation}

/-- Everything that a client holds is in its place: bytes are cached under their handle, and
each block of a peer belongs to one entry of the table. -/
structure Client.Filed (W : ℕ → Byte → Prop) (label : Ref → Option ℕ) (c : Client) : Prop where
  inv : c.cache.Inv
  cached : ∀ n ∈ c.cache.list, BytesOf W n.block.handle n.block.data
  entries : ∀ {h a}, c.remoteHandles.lookup h = some a → 0 < a.size ∧ ∀ x ∈ a.refs, label x = some h
  nodup : (c.held.map Stripe.ref).Nodup

theorem Client.filed_new (maxLocalBytes : ℕ) : (Client.new maxLocalBytes).Filed W label := by
  constructor
  · exact LRUCache.inv_new _
  · exact nofun
  · exact nofun
  · exact List.nodup_nil

theorem Client.held_insert_erase :
    Client.held { c with remoteHandles := c.remoteHandles.insert h a } =
      a.parts ++ Client.held { c with remoteHandles := c.remoteHandles.erase h } := rfl

theorem Client.held_erase_sublist :
    (Client.held { c with remoteHandles := c.remoteHandles.erase h }).Sublist c.held :=
  (List.kerase_sublist _ _).flatMap _

namespace Client.Filed

theorem label_held (hc : c.Filed W label) {x : Stripe} (hx : x ∈ c.held) :
    ∃ h, label x.ref = some h := by
  obtain ⟨⟨h, a⟩, he, hx⟩ := List.mem_flatMap.mp hx
  exact ⟨h, (hc.entries (Dict.mem_entries_iff.mp he)).2 _ (List.mem_map_of_mem hx)⟩

theorem relabel (hc : c.Filed W label)
    (hkept : ∀ x ∈ c.held, label' x.ref = label x.ref) : c.Filed W label' := by
  refine ⟨hc.inv, hc.cached, fun {h a} hl => ⟨(hc.entries hl).1, fun x hx => ?_⟩, hc.nodup⟩
  obtain ⟨y, hy, rfl⟩ := List.mem_map.mp hx
  rw [hkept y (List.mem_flatMap.mpr ⟨⟨h, a⟩, Dict.mem_entries_iff.mpr hl, hy⟩)]
  exact (hc.entries hl).2 _ hx

theorem insert (hc : c.Filed W label) (hsize : 0 < a.size) (hnodup : a.refs.Nodup)
    (hnone : ∀ x ∈ a.refs, label x = none) :
    Client.Filed W (fun x => if x ∈ a.refs then some h else label x)
      { c with remoteHandles := c.remoteHandles.insert h a } := by
  have hfar {x : Stripe} (hx : x ∈ c.held) : x.ref ∉ a.refs := by
    intro hmem
    obtain ⟨k, hk⟩ := hc.label_held hx
    simp [hnone _ hmem] at hk
  constructor
  · exact hc.inv
  · exact hc.cached
  · intro k b hk
    rw [Dict.lookup_insert_iff] at hk
    split_ifs at hk with heq
    · obtain rfl := Option.some.inj hk
      exact ⟨hsize, fun x hx => by rw [if_pos hx, heq]⟩
    · refine ⟨(hc.entries hk).1, fun x hx => ?_⟩
      obtain ⟨y, hy, rfl⟩ := List.mem_map.mp hx
      rw [if_neg (hfar (List.mem_flatMap.mpr ⟨⟨k, b⟩, Dict.mem_entries_iff.mpr hk, hy⟩))]
      exact (hc.entries hk).2 _ hx
  · rw [held_insert_erase, List.map_append]
    have hsub := (held_erase_sublist (c := c) (h := h)).map Stripe.ref
    refine List.Nodup.append hnodup (hc.nodup.sublist hsub) fun x hx hx' => ?_
    obtain ⟨y, hy, rfl⟩ := List.mem_map.mp (hsub.subset hx')
    exact hfar hy hx

theorem erase (hc : c.Filed W label) :
    Client.Filed W label { c with remoteHandles := c.remoteHandles.erase h } := by
  refine ⟨hc.inv, hc.cached, fun {k b} hk => ?_, hc.nodup.sublist (held_erase_sublist.map _)⟩
  rw [Dict.lookup_erase_iff] at hk
  split_ifs at hk
  exact hc.entries hk

theorem cache {cache : LRUCache} (hc : c.Filed W label) (hi : cache.Inv)
    (hb : ∀ n ∈ cache.list, BytesOf W n.block.handle n.block.data) :
    Client.Filed W label { c with cache := cache } :=
  ⟨hi, hb, hc.entries, hc.nodup⟩

theorem put (hc : c.Filed W label) {data : List Byte} (hd : BytesOf W h data) (dirty : Bool) :
    Client.Filed W label { c with cache := (c.cache.put h data dirty).2 } := by
  apply hc.cache hc.inv.put
  intro n hn
  unfold LRUCache.put at hn
  split_ifs at hn
  · exact hc.cached n hn
  · rcases List.mem_cons.mp hn with rfl | hn
    · exact hd
    · exact hc.cached n (LRUCache.detach_subset _ _ (LRUCache.makeRoom_subset _ _ _ hn))

/-- Every access keeps things in their place. An entry that is made is the one that needs
labels. -/
theorem perform (hc : c.Filed W label) {o : MemOp} {n : Notes} (hd : Demand W (.mem o) n)
    (ho : ∀ h a, o ≠ .remoteInsert h a) : (c.perform o).2.Filed W label := by
  cases o with
  | cacheGet k =>
    exact hc.cache (hc.inv.get k) fun n hn => hc.cached n (LRUCache.get_subset _ _ hn)
  | cachePut k data dirty => exact hc.put hd dirty
  | cacheRemove k =>
    exact hc.cache (hc.inv.detach k) fun n hn => hc.cached n (LRUCache.detach_subset _ _ hn)
  | cacheEvictOne =>
    exact hc.cache hc.inv.evictOne fun n hn => hc.cached n (LRUCache.popBack_subset _ hn)
  | remoteInsert k a => exact absurd rfl (ho k a)
  | remoteTake k => exact hc.erase
  | nextLocalHandle => exact ⟨hc.inv, hc.cached, hc.entries, hc.nodup⟩
  | nextRequestId => exact ⟨hc.inv, hc.cached, hc.entries, hc.nodup⟩
  | _ => exact hc

theorem answers (hc : c.Filed W label) {o : MemOp} (n : Notes) (hfind : ∀ h, o ≠ .remoteFind h)
    (hinsert : ∀ h a, o ≠ .remoteInsert h a) : notesEnv W (.mem o) n (c.perform o).1 n := by
  cases o with
  | cacheGet k =>
    refine ⟨rfl, fun data hd => ?_⟩
    obtain ⟨l, -, he⟩ := hc.inv.get_cases k
    obtain ⟨m, hm, rfl, rfl⟩ := hc.inv.content_eq_some.mp ((congrArg Prod.fst he).symm.trans hd)
    exact hc.cached m hm
  | cacheEvictOne =>
    refine ⟨rfl, fun b hb => ?_⟩
    obtain ⟨m, hm, rfl⟩ := Option.map_eq_some_iff.mp hb
    exact hc.cached m (List.mem_of_getLast? hm)
  | remoteFind k => exact absurd rfl (hfind k)
  | remoteInsert k a => exact absurd rfl (hinsert k a)
  | _ => rfl

end Client.Filed

end Clients

structure Notes.Agree (label : Ref → Option ℕ) (hosts : ℕ → Host) (told : Set ℕ) (n : Notes) :
    Prop where
  known : ∀ r h, n.known r h → label r = some h ∧ r.1 ∈ told
  inHand : ∀ r ∈ n.inHand, label r = none ∧ r.1 ∈ told ∧ 1 ≤ r.2 ∧ r.2 ≤ (hosts r.1).daemon.granted
  nodup : n.inHand.Nodup

theorem Notes.Agree.relabel {label label' : Ref → Option ℕ} {hosts : ℕ → Host} {told : Set ℕ}
    {n : Notes} {l : List Ref} (hn : n.Agree label hosts told) (hl : l.Sublist n.inHand)
    (hkept : ∀ r h, label r = some h → label' r = some h) (hnone : ∀ r ∈ l, label' r = none) :
    Notes.Agree label' hosts told { n with inHand := l } := by
  constructor
  · intro r h hk
    exact ⟨hkept r h (hn.known r h hk).1, (hn.known r h hk).2⟩
  · intro r hr
    exact ⟨hnone r hr, (hn.inHand r (hl.subset hr)).2⟩
  · exact hn.nodup.sublist hl

def Apart (t : ι → Notes) : Prop := Pairwise fun i j => (t i).inHand.Disjoint (t j).inHand

theorem Apart.update [DecidableEq ι] {t : ι → Notes} {i : ι} {n : Notes} (ht : Apart t)
    (hn : ∀ j ≠ i, n.inHand.Disjoint (t j).inHand) : Apart (Function.update t i n) := by
  intro j k hne
  by_cases hj : j = i
  · subst hj
    rw [Function.update_self, Function.update_of_ne hne.symm]
    exact hn k hne.symm
  · rw [Function.update_of_ne hj]
    by_cases hk : k = i
    · subst hk
      rw [Function.update_self]
      exact (hn j hj).symm
    · rw [Function.update_of_ne hk]
      exact ht hne

/-- The state agrees with what the calls have noted. The label of a block is the handle under
which it was entered into the table. -/
structure Fleet.Agrees (W : ℕ → Byte → Prop) (label : Ref → Option ℕ) (t : ι → Notes)
    (s : Fleet ι) : Prop where
  client : s.client.Filed W label
  hosts : ∀ p, (s.hosts p).Tidy W fun k => label (p, k)
  notes : ∀ i, (t i).Agree label s.hosts (s.told i)
  apart : Apart t

namespace Fleet.Agrees

variable {W : ℕ → Byte → Prop} {label : Ref → Option ℕ} {t : ι → Notes} {s s' : Fleet ι} {i : ι}

theorem advance (ha : s.Agrees W label t) (hclient : s'.client.Filed W label)
    (hhosts : ∀ p, (s'.hosts p).Tidy W fun k => label (p, k))
    (hgranted : ∀ p, (s.hosts p).daemon.granted ≤ (s'.hosts p).daemon.granted)
    (htold : ∀ j, s.told j ⊆ s'.told j) : s'.Agrees W label t := by
  refine ⟨hclient, hhosts, fun j => ?_, ha.apart⟩
  constructor
  · intro r h hk
    obtain ⟨hl, ht⟩ := (ha.notes j).known r h hk
    exact ⟨hl, htold j ht⟩
  · intro r hr
    obtain ⟨hl, ht, hpos, hle⟩ := (ha.notes j).inHand r hr
    exact ⟨hl, htold j ht, hpos, hle.trans (hgranted r.1)⟩
  · exact (ha.notes j).nodup

theorem advance_host {p : ℕ} {x : Host} (ha : s.Agrees W label t) (hclient : s'.client = s.client)
    (hhosts : s'.hosts = Function.update s.hosts p x) (hx : x.Tidy W fun k => label (p, k))
    (hle : (s.hosts p).daemon.granted ≤ x.daemon.granted) (htold : ∀ j, s.told j ⊆ s'.told j) :
    s'.Agrees W label t := by
  apply ha.advance
  · rw [hclient]
    exact ha.client
  · rw [hhosts, Function.forall_update_iff s.hosts fun q x => x.Tidy W fun k => label (q, k)]
    exact ⟨hx, fun q _ => ha.hosts q⟩
  · rw [hhosts, Function.forall_update_iff s.hosts fun q x =>
      (s.hosts q).daemon.granted ≤ x.daemon.granted]
    exact ⟨hle, fun q _ => le_refl _⟩
  · exact htold

theorem restart {T : ι → ClientM Value} {p : ℕ} {x : Host} (ha : s.Agrees W label t)
    (hmay : Unnamed T s p) (hx : x.Fresh) : ∃ label' t',
    Fleet.Agrees W label' t' { s with hosts := Function.update s.hosts p x } ∧
      ∀ i, Active (T i) → t' i = t i := by
  classical
  -- the blocks of the peer lose their labels, and calls that have ended forget what they knew
  refine ⟨fun r => if r.1 = p then none else label r,
    fun i => if Active (T i) then t i else .blank, ?_, fun i hi => if_pos hi⟩
  constructor
  · apply ha.client.relabel
    intro y hy
    exact if_neg (hmay.1 y hy)
  · intro q
    dsimp only
    by_cases hq : q = p
    · subst hq
      rw [Function.update_self]
      simp only [if_true]
      exact ⟨hx.tidy, by simp [hx.pending]⟩
    · rw [Function.update_of_ne hq]
      simp only [if_neg hq]
      exact ha.hosts q
  · intro i
    split_ifs with hi
    · have hfar (q : ℕ) (hq : q ∈ s.told i) : q ≠ p := fun he => hmay.2 i hi (he ▸ hq)
      constructor
      · intro r h hk
        obtain ⟨hl, ht⟩ := (ha.notes i).known r h hk
        exact ⟨by rw [if_neg (hfar _ ht), hl], ht⟩
      · intro r hr
        obtain ⟨hl, ht, hpos, hle⟩ := (ha.notes i).inHand r hr
        refine ⟨by rw [if_neg (hfar _ ht), hl], ht, hpos, ?_⟩
        dsimp only
        rwa [Function.update_of_ne (hfar _ ht)]
      · exact (ha.notes i).nodup
    · exact ⟨nofun, nofun, List.nodup_nil⟩
  · intro i j hne
    dsimp only
    split_ifs
    · exact ha.apart hne
    all_goals simp [Notes.blank]

theorem move {T : ι → ClientM Value} (ha : s.Agrees W label t) (hm : Fleet.Moves Unnamed T s s') :
    ∃ label' t', s'.Agrees W label' t' ∧ ∀ i, Active (T i) → t' i = t i := by
  cases hm with
  | host p x hstep hb =>
    obtain ⟨htidy, hle⟩ := (ha.hosts p).step hstep hb
    exact ⟨label, t, ha.advance_host rfl rfl htidy hle fun _ => subset_rfl, fun _ _ => rfl⟩
  | restart p x hmay hx => exact ha.restart hmay hx

theorem harmless {p : ℕ} {req : MemoryRequest} (ha : s.Agrees W label t)
    (hd : Demand W (.net (.call p req)) (t i)) : Harmless W (fun k => label (p, k)) req := by
  intro hop
  obtain ⟨h, data, hk, hdata, hw⟩ := hd.2 hop
  exact ⟨h, data, ((ha.notes i).known _ _ hk).1, hdata, hw⟩

theorem step_unanswered {p : ℕ} {req : MemoryRequest} (ha : s.Agrees W label t)
    (hd : Demand W (.net (.call p req)) (t i)) (hclient : s'.client = s.client)
    (hhosts : s'.hosts = s.hosts ∨ s'.hosts = Function.update s.hosts p
      { s.hosts p with pending := req :: (s.hosts p).pending })
    (htold : ∀ j, s.told j ⊆ s'.told j) : s'.Agrees W label t := by
  rcases hhosts with hhosts | hhosts
  · exact ha.advance (hclient ▸ ha.client) (hhosts ▸ ha.hosts) (fun p => hhosts ▸ le_refl _) htold
  · apply ha.advance_host hclient hhosts _ (le_refl _) htold
    exact ⟨(ha.hosts p).daemon, List.forall_mem_cons.mpr ⟨ha.harmless hd, (ha.hosts p).pending⟩⟩

variable [DecidableEq ι]

theorem note {n : Notes} (ha : s.Agrees W label t) (hn : n.Agree label s.hosts (s.told i))
    (hd : ∀ j ≠ i, n.inHand.Disjoint (t j).inHand) :
    s.Agrees W label (Function.update t i n) := by
  refine ⟨ha.client, ha.hosts, ?_, ha.apart.update hd⟩
  rw [Function.forall_update_iff t fun j n => n.Agree label s.hosts (s.told j)]
  exact ⟨hn, fun j _ => ha.notes j⟩

theorem grant {r : Ref} (ha : s.Agrees W label t) (hr : label r = none ∧ r.1 ∈ s.told i ∧
      1 ≤ r.2 ∧ r.2 ≤ (s.hosts r.1).daemon.granted) (hnew : ∀ j, r ∉ (t j).inHand) :
    s.Agrees W label (Function.update t i { t i with inHand := r :: (t i).inHand }) := by
  apply ha.note
  · constructor
    · exact (ha.notes i).known
    · exact List.forall_mem_cons.mpr ⟨hr, (ha.notes i).inHand⟩
    · exact List.nodup_cons.mpr ⟨hnew i, (ha.notes i).nodup⟩
  · intro j hj
    exact List.disjoint_cons_left.mpr ⟨hnew j, ha.apart hj.symm⟩

theorem insert {h : ℕ} {a : RemoteAllocation} (ha : s.Agrees W label t) (hzero : ∀ h, W h 0)
    (hsize : 0 < a.size) (hsub : a.refs.Subperm (t i).inHand) :
    Fleet.Agrees W (fun x => if x ∈ a.refs then some h else label x)
      (Function.update t i { t i with inHand := (t i).inHand.diff a.refs })
      { s with client :=
          { s.client with remoteHandles := s.client.remoteHandles.insert h a } } := by
  have hin := (ha.notes i).inHand
  have hnone (x : Ref) (hx : x ∈ a.refs) : label x = none := (hin x (hsub.subset hx)).1
  -- no label is replaced: the blocks that get one were in the hands of the call
  have hkept (x : Ref) (k : ℕ) (hx : label x = some k) :
      (if x ∈ a.refs then some h else label x) = some k := by
    rw [if_neg, hx]
    intro hmem
    simp [hnone x hmem] at hx
  obtain ⟨l, hperm, hl⟩ := hsub
  have hnodup : a.refs.Nodup := hperm.nodup_iff.mp ((ha.notes i).nodup.sublist hl)
  constructor
  · exact ha.client.insert hsize hnodup hnone
  · intro p
    have hp := ha.hosts p
    refine ⟨hp.daemon.relabel hzero (fun k => hkept (p, k)) fun k m hk => ?_, ?_⟩
    · split_ifs at hk with hmem
      · exact (hin (p, k) (hl.subset (hperm.mem_iff.mpr hmem))).2.2
      · exact hp.daemon.labelled hk
    · exact fun req hreq => (hp.pending req hreq).relabel fun k => hkept (p, k)
  · rw [Function.forall_update_iff t fun j n => n.Agree _ s.hosts (s.told j)]
    constructor
    · apply (ha.notes i).relabel (List.diff_sublist _ _) hkept
      intro r hr
      obtain ⟨hr, hnot⟩ := (ha.notes i).nodup.mem_sdiff_iff.mp hr
      rw [if_neg hnot]
      exact (hin r hr).1
    · intro j hj
      apply (ha.notes j).relabel (List.Sublist.refl _) hkept
      intro r hr
      rw [if_neg fun hmem => ha.apart hj hr (hl.subset (hperm.mem_iff.mpr hmem))]
      exact ((ha.notes j).inHand r hr).1
  · apply ha.apart.update
    intro j hj
    exact List.disjoint_of_subset_left (List.diff_subset _ _) (ha.apart hj.symm)

theorem told_subset {o : Effect} {r : o.Res} (he : fleetEnv i o s r s') (j : ι) :
    s.told j ⊆ s'.told j := by
  rw [he.2]
  by_cases hj : j = i
  · subst hj
    rw [Function.update_self]
    exact Set.subset_union_left
  · rw [Function.update_of_ne hj]

theorem mentioned_subset {o : Effect} {r : o.Res} (he : fleetEnv i o s r s') :
    mentioned o r ⊆ s'.told i := by
  rw [he.2, Function.update_self]
  exact Set.subset_union_right

theorem step_mem {o : MemOp} {r : o.Res} (ha : s.Agrees W label t) (hzero : ∀ h, W h 0)
    (hd : Demand W (.mem o) (t i)) (he : fleetEnv i (.mem o) s r s') :
    ∃ label' u, notesEnv W (.mem o) (t i) r u ∧ s'.Agrees W label' (Function.update t i u) := by
  have htold := told_subset he
  have hmentioned := mentioned_subset he
  have hclient : s'.client = (s.client.perform o).2 := congrArg Prod.snd he.1.1
  have hhosts : s'.hosts = s.hosts := he.1.2
  obtain rfl : r = (s.client.perform o).1 := congrArg Prod.fst he.1.1
  have hadvance {label' : Ref → Option ℕ} {t' : ι → Notes}
      (ha : Fleet.Agrees W label' t' { s with client := (s.client.perform o).2 }) :
      s'.Agrees W label' t' := by
    apply ha.advance
    · exact hclient ▸ ha.client
    · exact hhosts ▸ ha.hosts
    · exact fun p => hhosts ▸ le_refl _
    · exact htold
  by_cases hinsert : ∃ h a, o = .remoteInsert h a
  · obtain ⟨h, a, rfl⟩ := hinsert
    exact ⟨_, _, rfl, hadvance (ha.insert hzero hd.1 hd.2)⟩
  have hfiled := ha.client.perform hd fun h a heq => hinsert ⟨h, a, heq⟩
  have hsame : s'.Agrees W label t := hadvance ⟨hfiled, ha.hosts, ha.notes, ha.apart⟩
  by_cases hfind : ∃ h, o = .remoteFind h
  · obtain ⟨h, rfl⟩ := hfind
    refine ⟨label, ⟨(t i).inHand, fun x k => (t i).known x k ∨
      k = h ∧ ∃ a, s.client.remoteHandles.lookup h = some a ∧ x ∈ a.refs⟩, ?_, hsame.note ?_ ?_⟩
    · refine ⟨rfl, fun _ _ => .inl, fun a hl => ?_⟩
      exact ⟨(ha.client.entries hl).1, fun x hx => .inr ⟨rfl, a, hl, hx⟩⟩
    · refine ⟨?_, (hsame.notes i).inHand, (hsame.notes i).nodup⟩
      rintro x k (hk | ⟨rfl, a, hl, hx⟩)
      · exact (hsame.notes i).known x k hk
      · rw [show (s.client.perform (.remoteFind k)).1 = some a from hl] at hmentioned
        exact ⟨(ha.client.entries hl).2 x hx, hmentioned ⟨x, hx, rfl⟩⟩
    · exact fun j hj => ha.apart hj.symm
  · refine ⟨label, t i, ha.client.answers _ (fun h heq => hfind ⟨h, heq⟩)
      (fun h a heq => hinsert ⟨h, a, heq⟩), ?_⟩
    rwa [Function.update_eq_self]

theorem step_response {p : ℕ} {req : MemoryRequest} {resp : MemoryResponse}
    (ha : s.Agrees W label t) (hd : Demand W (.net (.call p req)) (t i))
    (he : fleetEnv i (.net (.call p req)) s (.response resp) s') :
    ∃ u, notesEnv W (.net (.call p req)) (t i) (.response resp) u ∧
      s'.Agrees W label (Function.update t i u) := by
  have htold := told_subset he
  have hmentioned := mentioned_subset he
  have hclient : s'.client = s.client := he.1.1
  obtain ⟨hresp, hb, hhosts⟩ : hostNet (.call p req) s.hosts (.response resp) s'.hosts := he.1.2
  have hanswer := (ha.hosts p).daemon.request (ha.harmless hd) hresp hb
  have hself : (s'.hosts p).daemon =
      ((s.hosts p).daemon.serve (.request (s.hosts p).daemon.session req)).2 := by
    rw [hhosts, Function.update_self]
  have hsame : s'.Agrees W label t := by
    apply ha.advance_host hclient hhosts _ hanswer.granted_le htold
    exact ⟨hanswer.tidy, (ha.hosts p).pending⟩
  by_cases hg : req.op = .alloc ∧ resp.status = .ok
  · obtain ⟨hold, hnew⟩ := hanswer.granted hg.1 (hd.1 hg.1) hg.2
    -- everything that has a label or is in the hands of a call was granted before
    have hbeyond (hle : resp.handle ≤ (s.hosts p).daemon.granted) : False := by omega
    have hfresh : label (p, resp.handle) = none := by
      cases hl : label (p, resp.handle) with
      | none => rfl
      | some h => exact (hbeyond ((ha.hosts p).daemon.labelled hl).2).elim
    have hle : resp.handle ≤ (s'.hosts p).daemon.granted := by
      rw [hself]
      exact hnew.le
    have hpos : 1 ≤ resp.handle := by omega
    have hnone (j : ι) (hj : (p, resp.handle) ∈ (t j).inHand) : False :=
      hbeyond ((ha.notes j).inHand _ hj).2.2.2
    have htold : p ∈ s'.told i := hmentioned ⟨rfl, hg⟩
    exact ⟨_, (if_pos hg).mpr rfl, hsame.grant ⟨hfresh, htold, hpos, hle⟩ hnone⟩
  · refine ⟨t i, (if_neg hg).mpr ⟨rfl, ?_⟩, ?_⟩
    · intro hop hst data hdata h hk
      obtain ⟨hne, hbytes⟩ := hanswer.data hop hst data hdata
      simp only [((ha.notes i).known _ _ hk).1] at hbytes
      exact ⟨hne, hbytes⟩
    · rwa [Function.update_eq_self]

theorem step (ha : s.Agrees W label t) (hzero : ∀ h, W h 0) {o : Effect} {r : o.Res}
    (hd : Demand W o (t i)) (he : fleetEnv i o s r s') :
    ∃ label' u, notesEnv W o (t i) r u ∧ s'.Agrees W label' (Function.update t i u) := by
  have hself (hsame : s'.Agrees W label t) : s'.Agrees W label (Function.update t i (t i)) := by
    rwa [Function.update_eq_self]
  cases o with
  | mem o => exact ha.step_mem hzero hd he
  | net o =>
    cases o with
    | call p req =>
      cases r with
      | response resp => exact ⟨label, ha.step_response hd he⟩
      | _ => exact ⟨label, t i, rfl, hself (ha.step_unanswered hd he.1.1 he.1.2 (told_subset he))⟩
    | _ =>
      have hclient : s'.client = s.client := he.1.1
      have hhosts : s'.hosts = s.hosts := he.1.2
      refine ⟨label, t i, rfl, hself ?_⟩
      apply ha.advance (hclient ▸ ha.client) (hhosts ▸ ha.hosts) _ (told_subset he)
      exact fun p => hhosts ▸ le_refl _

end Fleet.Agrees

theorem Fleet.Started.agrees {W : ℕ → Byte → Prop} {maxLocalBytes : ℕ} {s : Fleet ι}
    (hs : s.Started maxLocalBytes) : s.Agrees W (fun _ => none) fun _ => .blank := by
  constructor
  · rw [hs.client]
    exact Client.filed_new maxLocalBytes
  · exact fun p => ⟨(hs.hosts p).tidy, by simp [(hs.hosts p).pending]⟩
  · exact fun _ => ⟨nofun, nofun, List.nodup_nil⟩
  · exact fun _ _ _ => List.disjoint_nil_left _

/-- What is kept in every run in which memoryds restart only while nothing names their
blocks. -/
theorem Fleet.Started.runs [DecidableEq ι] {W : ℕ → Byte → Prop} {maxLocalBytes : ℕ}
    {calls : ι → Call} {s₀ s : Fleet ι} {T : ι → ClientM Value} (hs : s₀.Started maxLocalBytes)
    (hzero : ∀ h, W h 0) (hcalls : ∀ i, (calls i).Supplies W)
    (hrun : FleetRuns Unnamed calls s₀ T s) :
    ∃ label t, s.Agrees W label t ∧ ∀ i, wp (notesEnv W) (Demand W) (T i)
      (fun out _ => (calls i).Returns W out) (t i) := by
  have hstep (t : ι → Notes) (s : Fleet ι) (i : ι) (o : Effect) (r : o.Res) (s' : Fleet ι)
      (ha : ∃ label, s.Agrees W label t) (hd : Demand W o (t i)) (he : fleetEnv i o s r s') :
      ∃ u, notesEnv W o (t i) r u ∧ ∃ label, s'.Agrees W label (Function.update t i u) := by
    obtain ⟨label, ha⟩ := ha
    obtain ⟨label', u, hn, ha'⟩ := ha.step hzero hd he
    exact ⟨u, hn, label', ha'⟩
  have hmove (T : ι → ClientM Value) (t : ι → Notes) (s s' : Fleet ι)
      (ha : ∃ label, s.Agrees W label t) (hm : Fleet.Moves Unnamed T s s') :
      ∃ t', (∃ label, s'.Agrees W label t') ∧ ∀ i, Active (T i) → t' i = t i := by
    obtain ⟨label, ha⟩ := ha
    obtain ⟨label', t', ha', hsame⟩ := ha.move hm
    exact ⟨t', ⟨label', ha'⟩, hsame⟩
  have hexec (i : ι) : wp (notesEnv W) (Demand W) (calls i).exec
      (fun out _ => (calls i).Returns W out) Notes.blank := by
    apply wp_mono (disciplined_exec hzero (hcalls i))
    rintro out n ⟨-, hout⟩ h offset size data hcall rfl
    exact hout _ rfl h offset size data hcall rfl
  obtain ⟨t, ⟨label, ha⟩, ht⟩ := hrun.contract hstep hmove ⟨_, hs.agrees⟩ hexec
  exact ⟨label, t, ha, ht⟩

/-- No two entries of the table name the same block of a peer, and a read returns nothing but
bytes that were written to its handle, if memoryds restart only while nothing names their
blocks and no block is empty. -/
theorem no_alias_across_restarts [DecidableEq ι] {maxLocalBytes : ℕ} {calls : ι → Call}
    {s₀ s : Fleet ι} {T : ι → ClientM Value} (hstart : s₀.Started maxLocalBytes)
    (hsize : ∀ i n, calls i = .allocate n → n ≠ 0) (hrun : FleetRuns Unnamed calls s₀ T s) :
    (s.client.held.map Stripe.ref).Nodup ∧
      ∀ i h offset n data, calls i = .read h offset n → T i = .pure (.bytes data) →
        ∀ b ∈ data, b = 0 ∨
          ∃ j offset' written, calls j = .write h offset' written ∧ b ∈ written := by
  have hcalls (i : ι) : (calls i).Supplies fun h b =>
      b = 0 ∨ ∃ j offset' written, calls j = .write h offset' written ∧ b ∈ written := by
    cases hc : calls i with
    | allocate n => exact hsize i n hc
    | write h offset data => exact fun b hb => .inr ⟨i, offset, data, hc, hb⟩
    | free h => trivial
    | read h offset n => trivial
  obtain ⟨label, t, ha, hout⟩ := hstart.runs (fun _ => .inl rfl) hcalls hrun
  refine ⟨ha.client.nodup, fun i h offset n data hread hT => ?_⟩
  have hi := hout i
  rw [hT] at hi
  exact hi h offset n data hread rfl

section Scenes

variable [DecidableEq ι]

/-- Peer 0 is the only one that the client is told of, and every request is answered. -/
def promptNet : (o : NetOp) → (ℕ → Host) → o.Res × (ℕ → Host)
  | .availableBytes, w => (0, w)
  | .connectedPeers, w => ([0], w)
  | .waitForConnectedPeer, w => (true, w)
  | .candidates, w => ([0], w)
  | .peer _, w => ({ connected := true }, w)
  | .call p req, w =>
    match (w p).daemon.serve (.request (w p).daemon.session req) with
    | (some resp, d) => (.response resp, Function.update w p { w p with daemon := d })
    | (none, _) => (.timeout, w)

def promptFleet (i : ι) (o : Effect) (s : Fleet ι) : o.Res × Fleet ι :=
  let r := clientHandler promptNet o (s.client, s.hosts)
  (r.1, ⟨r.2.1, r.2.2, Function.update s.told i (s.told i ∪ mentioned o r.1)⟩)

def handlesLeft : Effect → Fleet ι → Bool
  | .net (.call p req), s =>
    ((s.hosts p).daemon.serve (.request (s.hosts p).daemon.session req)).2.granted < 2 ^ 64
  | _, _ => true

theorem promptFleet_allowed (i : ι) (o : Effect) (s : Fleet ι) (hgood : handlesLeft o s) :
    fleetEnv i o s (promptFleet i o s).1 (promptFleet i o s).2 := by
  refine ⟨?_, rfl⟩
  cases o with
  | mem o => exact ⟨rfl, rfl⟩
  | net o =>
    cases o with
    | call p req => exact ⟨rfl, rfl, by simpa [handlesLeft] using hgood, rfl⟩
    | _ => exact ⟨rfl, rfl⟩

variable {may : (ι → ClientM Value) → Fleet ι → ℕ → Prop} {calls : ι → Call} {s₀ s : Fleet ι}
  {T : ι → ClientM Value}

def promptly (s : Fleet ι) (i : ι) (call : Call) : Outcome Err Value × Fleet ι :=
  eval (promptFleet i) call.exec s

theorem promptly_runs (h : FleetRuns may calls s₀ T s) (i : ι) (out : Outcome Err Value)
    (hT : T i = (calls i).exec) (hgood : checks (promptFleet i) handlesLeft (calls i).exec s)
    (hout : (promptly s i (calls i)).1 = out) :
    FleetRuns may calls s₀ (Function.update T i (ended out)) (promptly s i (calls i)).2 := by
  apply h.run
  rw [hT, ← hout]
  exact runs_of_checks (promptFleet_allowed i) _ hgood

theorem promptly_told {i j : ι} (hj : j ≠ i) (call : Call) :
    (promptly s i call).2.told j = s.told j := by
  unfold promptly
  generalize call.exec = p
  induction p generalizing s with
  | op o k ih => exact (ih _).trans (Function.update_of_ne hj ..)
  | _ => rfl

def freshHost : Host := ⟨⟨PageTracker.new twoPages, 1, 0⟩, []⟩

theorem freshHost_fresh : freshHost.Fresh :=
  ⟨⟨2, 1, fun _ => 0, twoPages, rfl, rfl⟩, rfl, by decide, rfl⟩

def freshFleet (n : ℕ) : Fleet (Fin n) := ⟨Client.new 1, fun _ => freshHost, fun _ => ∅⟩

theorem freshFleet_started (n : ℕ) : (freshFleet n).Started 1 :=
  ⟨rfl, fun _ => freshHost_fresh, fun _ => rfl⟩

/-- Two blocks, between which the memoryd of peer 0 restarts. -/
def twiceGranted : Fin 4 → Call
  | 0 => .allocate 2
  | 1 => .allocate 2
  | 2 => .write 2 0 [9]
  | 3 => .read 1 0 1

/-- The second block is granted the handle of the first, and what is written to the second is
read from the first. -/
theorem restart_aliases_blocks : ∃ s₀ s : Fleet (Fin 4), ∃ T, s₀.Started 1 ∧
    FleetRuns (fun _ _ _ => True) twiceGranted s₀ T s ∧
    s.client.held.map Stripe.ref = [(0, 1), (0, 1)] ∧ T 3 = .pure (.bytes [9]) := by
  have h₀ : FleetRuns (fun _ _ _ => True) twiceGranted (freshFleet 4) _ _ := .start
  have h₁ := promptly_runs h₀ 0 (.ok (.handle 1)) rfl (by decide +kernel) (by decide +kernel)
  have h₂ := h₁.move (.restart 0 freshHost trivial freshHost_fresh)
  have h₃ := promptly_runs h₂ 1 (.ok (.handle 2)) rfl (by decide +kernel) (by decide +kernel)
  have h₄ := promptly_runs h₃ 2 (.ok .done) rfl (by decide +kernel) (by decide +kernel)
  have h₅ := promptly_runs h₄ 3 (.ok (.bytes [9])) rfl (by decide +kernel) (by decide +kernel)
  exact ⟨_, _, _, freshFleet_started 4, h₅, by decide +kernel, rfl⟩

def freedBetween : Fin 5 → Call
  | 0 => .allocate 2
  | 1 => .write 1 0 [7]
  | 2 => .read 1 0 1
  | 3 => .free 1
  | 4 => .allocate 2

/-- The handle that is granted once more is not in use any longer. -/
theorem no_alias_across_restarts_freed : ∃ s₀ s : Fleet (Fin 5), ∃ T, s₀.Started 1 ∧
    FleetRuns Unnamed freedBetween s₀ T s ∧ T 2 = .pure (.bytes [7]) ∧
    (s.client.held.map Stripe.ref).Nodup ∧ ∀ b ∈ ([7] : List Byte), b = 0 ∨
      ∃ j offset written, freedBetween j = .write 1 offset written ∧ b ∈ written := by
  have h₀ : FleetRuns Unnamed freedBetween (freshFleet 5) _ _ := .start
  have h₁ := promptly_runs h₀ 0 (.ok (.handle 1)) rfl (by decide +kernel) (by decide +kernel)
  have h₂ := promptly_runs h₁ 1 (.ok .done) rfl (by decide +kernel) (by decide +kernel)
  have h₃ := promptly_runs h₂ 2 (.ok (.bytes [7])) rfl (by decide +kernel) (by decide +kernel)
  have h₄ := promptly_runs h₃ 3 (.ok .done) rfl (by decide +kernel) (by decide +kernel)
  have hmay := h₄.move (.restart 0 freshHost ⟨by decide +kernel, fun
    | 0, hi | 1, hi | 2, hi | 3, hi => False.elim hi
    | 4, _ => by simp [promptly_told, freshFleet]⟩ freshHost_fresh)
  have h₅ := promptly_runs hmay 4 (.ok (.handle 2)) rfl (by decide +kernel) (by decide +kernel)
  have hsize : ∀ i n, freedBetween i = .allocate n → n ≠ 0
    | 0, _, rfl => by decide
    | 4, _, rfl => by decide
  obtain ⟨hnodup, hread⟩ := no_alias_across_restarts (freshFleet_started 5) hsize h₅
  exact ⟨_, _, _, freshFleet_started 5, h₅, rfl, hnodup, hread 2 1 0 1 [7] rfl rfl⟩

end Scenes

end MemInfo
