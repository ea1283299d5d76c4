import MemInfo.Memclient.HeapRaces
import MemInfo.Platform.PageFaultLinux

/-! # The remote heap on Linux

The heap leaves a fault unresolved if it cannot fetch the page, and does not notice if the page
cannot be installed. The backend then fills the OS page with zeros, and the access goes on. That
does no harm to a page that holds nothing but zeros. As long as no page-in of any other page fails,
the heap is the flat memory that it is on Windows.
-/

namespace MemInfo

open Lib
open Lib.Prog (wp_iff Reaches)

/-- The sizes of a heap whose pages are made of whole OS pages. -/
structure OsLayout extends HeapLayout where
  osPage : ℕ
  osPage_pos : 0 < osPage
  osPage_dvd : osPage ∣ pageBytes
  osPage_word : osPage ∣ 2 ^ 64

theorem RemoteHeapConfig.osPage_dvd {config : RemoteHeapConfig} {osPage maxLocalBytes : ℕ}
    {l : HeapLayout} (h : config.layout osPage maxLocalBytes = .ok l) : osPage ∣ l.pageBytes := by
  unfold layout at h
  split at h
  · exact absurd h nofun
  · dsimp only at h
    split at h
    · split at h
      · exact absurd h nofun
      · obtain rfl := Except.ok.inj h
        exact Nat.dvd_mul_left ..
    · exact absurd h nofun

namespace OsLayout

variable (L : OsLayout) {page : ℕ}

def osPages : ℕ := L.pageBytes / L.osPage

theorem pageBytes_eq : L.pageBytes = L.osPages * L.osPage :=
  (Nat.div_mul_cancel L.osPage_dvd).symm

theorem offset_eq : L.offset page = page * (L.osPages * L.osPage) := by
  rw [HeapLayout.offset, pageBytes_eq]

theorem osPages_pos : 0 < L.osPages := by
  have hpos := L.pageBytes_pos
  rw [pageBytes_eq] at hpos
  exact Nat.pos_of_mul_pos_right hpos

theorem roundUp_page (h : L.offset page < L.capacity) :
    roundUp (L.osPages * L.osPage) L.osPage = L.osPages * L.osPage := by
  have hend := HeapLayout.end_le_capacity h
  have hcap := L.capacity_lt
  have hlt : L.osPages * L.osPage < 2 ^ 64 := by
    rw [← pageBytes_eq]
    omega
  obtain ⟨n, hn⟩ := L.osPage_word
  refine roundUp_of_dvd (Nat.dvd_mul_left ..) ?_ L.osPage_pos
  rw [hn, Nat.mul_comm L.osPage n] at hlt ⊢
  rw [← Nat.succ_mul]
  exact Nat.mul_le_mul_right _ (Nat.lt_of_mul_lt_mul_right hlt)

theorem roundUp_zero : roundUp 0 L.osPage = 0 :=
  roundUp_of_dvd (Nat.dvd_zero _)
    (by rw [Nat.zero_add]; exact Nat.le_of_dvd (by decide) L.osPage_word) L.osPage_pos

theorem length_of_outside (h : ¬ L.offset page < L.capacity) : L.length page = 0 := by
  rw [HeapLayout.length, Nat.sub_eq_zero_of_le (Nat.le_of_not_lt h), Nat.min_zero]

end OsLayout

def linuxEnv (L : OsLayout) :
    (o : HeapOp) → HeapWorld LinuxRegion → o.Res → HeapWorld LinuxRegion → Prop
  | .load page off, w, r, w' => r = w.backend.readByte L.osPage (L.offset page + off) ∧ w' = w
  | .store page off v, w, r, w' =>
    r = w.backend.present ((L.offset page + off) / L.osPage) ∧
      w' = { w with
        backend := if r then w.backend.writeByte (L.offset page + off) v else w.backend }
  | .read offset length, w, r, w' =>
    w' = w ∧ ∀ bytes, r = .ok bytes → bytes.length = length → bytes = slice w.block offset length
  | .write offset data, w, r, w' =>
    ∃ bytes, bytes.length = data.length ∧ (r = none → bytes = data) ∧
      w' = { w with block := splice w.block offset bytes }
  | .resolveFault page data _, w, r, w' =>
    ∃ n b, w.backend.CanCopy L.osPage (L.offset page) data n ∧
      w.backend.resolveFault L.osPage (L.offset page) data n = (r, b) ∧ w' = { w with backend := b }
  | .isDirty page, w, r, w' =>
    r = w.backend.isDirty L.osPage (L.offset page) (L.length page) ∧ w' = w
  -- an OS page that is missing faults under the lock; if the fetch fails too, the copy goes on
  | .copy page, w, r, w' =>
    let b := w.backend.zeroMissing L.osPage (L.offset page) (L.length page / L.osPage)
    r = window b.mem (L.offset page) (L.length page) ∧ w' = { w with backend := b }
  | .clearDirty _, w, _, w' => w' = w
  | .evictPages page, w, r, w' =>
    w' = { w with
      backend := if r then w.backend.evictPages L.osPage (L.offset page) (L.length page)
        else w.backend }
  -- outside of the region nobody resolves the fault
  | .unresolved addr, w, r, w' =>
    r = decide (addr < L.capacity) ∧
      w' = { w with backend := if r then w.backend.zeroPage L.osPage addr else w.backend }
  | .lock, w, _, w' => w.isLocked = false ∧ w' = { w with isLocked := true }
  | .unlock, w, _, w' => w' = { w with isLocked := false }
  | .heap, w, r, w' => r = w.heap ∧ w' = w
  | .setHeap heap, w, _, w' => w' = { w with heap := heap }

variable {ι : Type} {L : OsLayout}

def linuxScene [DecidableEq ι] (L : OsLayout) (i : ι) (o : HeapOp) (S : Scene ι LinuxRegion)
    (r : o.Res) (S' : Scene ι LinuxRegion) : Prop :=
  linuxEnv L o S.world r S'.world ∧ S'.flat = stored L.toHeapLayout S.flat o r ∧
    S'.marks = Function.update S.marks i ((S.marks i).next L.toHeapLayout o r)

def SendsLatest {β : Type} (T : ι → HeapM Unit) (S : Scene ι β) : Prop :=
  ∀ i offset data k, T i = .op (.write offset data) k → data = slice S.flat offset data.length

/-! ## The condition -/

/-- The page holds nothing but zeros, and so does the peer. -/
def Scene.Blank (l : HeapLayout) {β : Type} (S : Scene ι β) (page : ℕ) : Prop :=
  (∀ x ∈ l.pageOf S.flat page, x = 0) ∧ ∀ x ∈ l.pageOf S.world.block page, x = 0

/-- A page-in fails only for a page of zeros, and only zeros are stored to a page of which some OS
pages are mapped or flagged and others are not. -/
def Scene.Harmless (L : OsLayout) (S : Scene ι LinuxRegion) : (o : HeapOp) → o.Res → Prop
  | .store page _ v, r => r = true → v = 0 ∨ S.world.backend.WholeAt L.osPages page
  | .resolveFault page _ _, r => r = false → S.Blank L.toHeapLayout page
  | .unresolved addr, _ => addr < L.capacity → S.Blank L.toHeapLayout (addr / L.pageBytes)
  | _, _ => True

/-- No other thread handles or flushes a page on which an access faults or to which it stores. None
handles a page that is copied, and none flushes a page whose fault is left unresolved. -/
def Scene.Apart (L : OsLayout) (S : Scene ι LinuxRegion) (i : ι) : HeapOp → Prop
  | .load page off =>
    S.world.backend.present ((L.offset page + off) / L.osPage) = false →
      ∀ j, j ≠ i → ¬ (S.marks j).Handles page ∧ ¬ (S.marks j).Flushes page
  | .store page _ _ => ∀ j, j ≠ i → ¬ (S.marks j).Handles page ∧ ¬ (S.marks j).Flushes page
  | .copy page => ∀ j, j ≠ i → ¬ (S.marks j).Handles page
  | .unresolved addr => ∀ j, j ≠ i → ¬ (S.marks j).Flushes (addr / L.pageBytes)
  | _ => True

theorem Scene.apart [Subsingleton ι] (S : Scene ι LinuxRegion) (i : ι) (o : HeapOp) :
    S.Apart L i o := by
  have hother : ∀ j, j ≠ i → False := fun j hj => hj (Subsingleton.elim j i)
  cases o with
  | load page off => exact fun _ j hj => (hother j hj).elim
  | store page off v => exact fun j hj => (hother j hj).elim
  | copy page => exact fun j hj => (hother j hj).elim
  | unresolved addr => exact fun j hj => (hother j hj).elim
  | _ => trivial

/-! ## One page -/

namespace LinuxRegion

/-- What the region has of a page that holds `here`, and of which the peer has `there`. The OS pages
that are mapped hold the current bytes. -/
structure Fits (osPage k page : ℕ) (b : LinuxRegion) (here there : List Byte) : Prop where
  present : ∀ off < k * osPage, b.present ((page * (k * osPage) + off) / osPage) = true →
    here[off]? = some (b.mem (page * (k * osPage) + off))
  torn : (∀ x ∈ here, x = 0) ∨ b.WholeAt k page
  remote : there = here ∨ b.Full k page ∧ b.Flagged k page

namespace Fits

variable {osPage k page off : ℕ} {b b' : LinuxRegion} {here there : List Byte}
  (h : Fits osPage k page b here there) (hos : 0 < osPage) (hk : 0 < k)

include h

theorem agrees (hk : 0 < k) (hagrees : AgreesOn osPage k page b b') :
    Fits osPage k page b' here there where
  present off hoff hp := by
    have hpage : (page * (k * osPage) + off) / osPage / k = page := osPage_of_byte hoff
    rw [hagrees.present _ hpage] at hp
    rw [hagrees.mem _ hpage]
    exact h.present off hoff hp
  torn := h.torn.imp_right (hagrees.wholeAt hk)
  remote := h.remote.imp_right fun ⟨hfull, hflag⟩ => ⟨hagrees.full hfull, hagrees.flagged hflag⟩

theorem remote_of_missing {i : ℕ} (hi : i / k = page) (hp : b.present i = false) :
    there = here := by
  refine h.remote.resolve_right fun ⟨hfull, _⟩ => ?_
  rw [hfull i hi] at hp
  cases hp

theorem window_of_full (hlen : here.length = k * osPage) (hfull : b.Full k page) :
    window b.mem (page * (k * osPage)) (k * osPage) = here := by
  apply List.ext_getElem?
  intro off
  by_cases hoff : off < k * osPage
  · rw [h.present off hoff (hfull _ (osPage_of_byte hoff))]
    simp [window, hoff]
  · rw [List.getElem?_eq_none (by simpa using hoff), List.getElem?_eq_none (by omega)]

include hos

theorem zeroPage (hlen : here.length = k * osPage) (hhere : ∀ x ∈ here, x = 0)
    (hsame : there = here) (addr : ℕ) :
    Fits osPage k page (b.zeroPage osPage addr) here there where
  present off hoff hp := by
    rw [present_zeroPage hos] at hp
    rw [mem_zeroPage hos]
    split_ifs with hzero
    · rw [List.getElem?_eq_getElem (by omega)]
      exact congrArg some (hhere _ (List.getElem_mem _))
    · refine h.present off hoff ?_
      split_ifs at hp with heq
      · exact heq ▸ Bool.eq_true_of_not_eq_false fun hmissing => hzero ⟨heq, hmissing⟩
      · exact hp
  torn := Or.inl hhere
  remote := Or.inl hsame

include hk

theorem zeroMissing (hlen : here.length = k * osPage) (hflag : b.Flagged k page) :
    Fits osPage k page (b.zeroMissing osPage (page * (k * osPage)) k) here there ∧
      (b.zeroMissing osPage (page * (k * osPage)) k).Full k page ∧
      (b.zeroMissing osPage (page * (k * osPage)) k).Flagged k page := by
  obtain ⟨hfilled, hfull⟩ := zeroFilled_zeroMissing b page hos hk
  obtain ⟨i, hi, hr⟩ := hflag
  have hflag' := (⟨i, hi, hfilled.resident i hr⟩ :
    (b.zeroMissing osPage (page * (k * osPage)) k).Flagged k page)
  refine ⟨⟨fun off hoff hp => ?_, ?_, Or.inr ⟨hfull, hflag'⟩⟩, hfull, hflag'⟩
  · rw [hfilled.mem _ hp]
    split_ifs with hb
    · exact h.present off hoff hb
    · -- a page that is flagged and not all there is not mapped as a whole
      rcases h.torn with hzero | hwhole
      · rw [List.getElem?_eq_getElem (by omega)]
        exact congrArg some (hzero _ (List.getElem_mem _))
      · exact absurd ((hwhole.full hk hi (Or.inr hr)).1 _ (osPage_of_byte hoff)) hb
  · refine h.torn.imp_right fun hwhole => (wholeAt_iff hk).2 ?_
    obtain ⟨v, hv⟩ := (wholeAt_iff hk).1 hwhole
    obtain rfl : v = true := (hv i hi).2.symm.trans hr
    exact ⟨true, fun j hj => ⟨hfull j hj, hfilled.resident j (hv j hj).2⟩⟩

omit hos in
theorem writeByte {v : Byte} (hlen : here.length = k * osPage) (hoff : off < k * osPage)
    (hpresent : b.present ((page * (k * osPage) + off) / osPage) = true)
    (hv : v = 0 ∨ b.WholeAt k page) :
    Fits osPage k page (b.writeByte (page * (k * osPage) + off) v) (splice here off [v])
      there := by
  have hle : off + [v].length ≤ here.length := by
    rw [List.length_singleton]
    omega
  refine ⟨fun off' hoff' hp => ?_, ?_, ?_⟩
  · rw [getElem?_splice hle]
    dsimp only [LinuxRegion.writeByte]
    by_cases heq : off' = off
    · simp [heq]
    · rw [if_neg (by simp; omega), Function.update_of_ne (by omega)]
      exact h.present off' hoff' hp
  · rcases hv with rfl | hwhole
    · refine h.torn.imp_left fun hzero x hx => ?_
      rcases mem_of_mem_splice hx with hx | hx
      · exact hzero x hx
      · exact List.mem_singleton.1 hx
    · exact Or.inr hwhole
  · -- a store to a page that is not whole changes nothing
    rcases h.torn with hzero | hwhole
    · rcases hv with rfl | hwhole
      · have hsame : here[off]? = some 0 := by
          rw [List.getElem?_eq_getElem (by omega)]
          exact congrArg some (hzero _ (List.getElem_mem _))
        rw [splice_eq_self hsame]
        exact h.remote
      · exact Or.inr (hwhole.full hk (osPage_of_byte hoff) (Or.inl hpresent))
    · exact Or.inr (hwhole.full hk (osPage_of_byte hoff) (Or.inl hpresent))

variable (hround : roundUp (k * osPage) osPage = k * osPage)

include hround

theorem resolveFault {n : ℕ} {r : Bool} (hlen : here.length = k * osPage)
    (hn : n * osPage ≤ k * osPage)
    (hb : b.resolveFault osPage (page * (k * osPage)) here n = (r, b'))
    (hfailed : r = false → ∀ x ∈ here, x = 0) (hsame : there = here) :
    Fits osPage k page b' here there where
  present off hoff hp := by
    obtain hdata | ⟨hb', hmem⟩ := byte_resolveFault hos hk hround hlen hn hb hoff hp
    · exact hdata
    · rw [hmem]
      exact h.present off hoff hb'
  torn := by
    cases r with
    | false => exact Or.inl (hfailed rfl)
    | true =>
      obtain ⟨hall, hresident, hpresent, -⟩ := resolveFault_spec hos hk hround hlen hn hb
      refine Or.inr ((wholeAt_iff hk).2 ⟨true, fun i hi => ?_⟩)
      rw [hpresent, hall rfl, if_pos ((covers_page_iff hos hk).2 hi), hresident, if_pos hi]
      exact ⟨rfl, rfl⟩
  remote := Or.inl hsame

omit h in
theorem evictPages (hsame : there = here) :
    Fits osPage k page (b.evictPages osPage (page * (k * osPage)) (k * osPage)) here there := by
  obtain ⟨-, hgone⟩ := evictPages_spec hos hk hround b page
  refine ⟨fun off hoff hp => ?_, Or.inr ((wholeAt_iff hk).2 ⟨false, hgone⟩), Or.inl hsame⟩
  rw [(hgone _ (osPage_of_byte hoff)).1] at hp
  cases hp

end Fits

end LinuxRegion

/-! ## All pages and all threads -/

/-- What a thread at this place relies on. -/
def OsClaim (L : OsLayout) (w : HeapWorld LinuxRegion) (flat : List Byte) : Mark → Prop
  | .free | .holding => True
  | .faulted page => L.offset page < L.capacity ∧
    L.pageOf w.block page = L.pageOf flat page
  | .fetched page bytes | .installing page bytes => (L.offset page < L.capacity ∧
    L.pageOf w.block page = L.pageOf flat page) ∧ bytes = L.pageOf flat page
  | .checked page => L.offset page < L.capacity ∧ w.backend.Flagged L.osPages page
  | .copied page bytes => (L.offset page < L.capacity ∧ w.backend.Full L.osPages page ∧
    w.backend.Flagged L.osPages page) ∧ bytes = L.pageOf flat page
  | .clean page => L.pageOf w.block page = L.pageOf flat page

structure Intact (L : OsLayout) (S : Scene ι LinuxRegion) : Prop where
  block_length : S.world.block.length = L.capacity
  flat_length : S.flat.length = L.capacity
  fits : ∀ page, S.world.backend.Fits L.osPage L.osPages page (L.pageOf S.flat page)
    (L.pageOf S.world.block page)
  claim : ∀ i, OsClaim L S.world S.flat (S.marks i)
  orderly : Orderly S.world S.marks
  copied : ∀ i j page bytes, S.marks i = .copied page bytes → ¬ (S.marks j).Handles page

section Steps

variable {S : Scene ι LinuxRegion} {i : ι} {w w' : HeapWorld LinuxRegion} {flat flat' : List Byte}
  {m : Mark} {page off : ℕ}

theorem OsClaim.elsewhere (h : OsClaim L w flat m)
    (hregion : ∀ q, m.Flushes q → w.backend.AgreesOn L.osPage L.osPages q w'.backend)
    (hbytes : ∀ q, m.Handles q ∨ m.Flushes q → L.pageOf w'.block q = L.pageOf w.block q ∧
      L.pageOf flat' q = L.pageOf flat q) : OsClaim L w' flat' m := by
  cases m with
  | free => trivial
  | holding => trivial
  | faulted q =>
    obtain ⟨hblock, hflat⟩ := hbytes q (Or.inl rfl)
    exact ⟨h.1, by rw [hblock, hflat, h.2]⟩
  | fetched q bytes =>
    obtain ⟨hblock, hflat⟩ := hbytes q (Or.inl rfl)
    exact ⟨⟨h.1.1, by rw [hblock, hflat, h.1.2]⟩, h.2.trans hflat.symm⟩
  | installing q bytes =>
    obtain ⟨hblock, hflat⟩ := hbytes q (Or.inl rfl)
    exact ⟨⟨h.1.1, by rw [hblock, hflat, h.1.2]⟩, h.2.trans hflat.symm⟩
  | checked q => exact ⟨h.1, (hregion q rfl).flagged h.2⟩
  | copied q bytes =>
    obtain ⟨-, hflat⟩ := hbytes q (Or.inr rfl)
    obtain ⟨⟨hin, hfull, hflag⟩, heq⟩ := h
    exact ⟨⟨hin, (hregion q rfl).full hfull, (hregion q rfl).flagged hflag⟩, heq.trans hflat.symm⟩
  | clean q =>
    obtain ⟨hblock, hflat⟩ := hbytes q (Or.inr rfl)
    exact hblock.trans (Eq.trans h hflat.symm)

theorem Mark.Flushes.holds (h : m.Flushes page) : m.Holds := by
  cases m with
  | checked q => trivial
  | copied q bytes => trivial
  | clean q => trivial
  | _ => cases h

variable (h : Intact L S)

include h

theorem Intact.others_unflushed (hholds : (S.marks i).Holds) (page : ℕ) (j : ι) (hj : j ≠ i) :
    ¬ (S.marks j).Flushes page := fun hflush =>
  h.orderly.others_free hholds j hj hflush.holds

theorem Intact.claim_of {m : Mark} (hm : S.marks i = m) : OsClaim L S.world S.flat m :=
  hm ▸ h.claim i

theorem Intact.length_pageOf (hin : L.offset page < L.capacity) :
    (L.pageOf S.flat page).length = L.osPages * L.osPage := by
  rw [← L.pageBytes_eq]
  exact HeapLayout.length_pageOf h.flat_length hin

/-- A page with an OS page that is mapped is in the region. -/
theorem Intact.inside_of_present (hoff : off < L.pageBytes)
    (hp : S.world.backend.present ((L.offset page + off) / L.osPage) = true) :
    L.offset page < L.capacity := by
  rw [L.offset_eq] at hp
  have hbyte := (h.fits page).present off (L.pageBytes_eq ▸ hoff) hp
  by_contra hout
  rw [HeapLayout.pageOf, L.length_of_outside hout] at hbyte
  simp [slice] at hbyte

variable [DecidableEq ι]

theorem Intact.moved (hblock : w.block.length = L.capacity) (hflat : flat.length = L.capacity)
    (hfits : ∀ page, w.backend.Fits L.osPage L.osPages page (L.pageOf flat page)
      (L.pageOf w.block page))
    (hmine : OsClaim L w flat m) (hothers : ∀ j, j ≠ i → OsClaim L w flat (S.marks j))
    (horderly : Orderly w (Function.update S.marks i m))
    (hhandles : ∀ page, m.Handles page → (S.marks i).Handles page ∨
      ∀ j, j ≠ i → ¬ (S.marks j).Flushes page)
    (hcopied : ∀ page bytes, m = .copied page bytes → ∀ j, j ≠ i → ¬ (S.marks j).Handles page) :
    Intact L ⟨w, flat, Function.update S.marks i m⟩ where
  block_length := hblock
  flat_length := hflat
  fits := hfits
  claim := (Function.forall_update_iff S.marks fun _ m => OsClaim L w flat m).2 ⟨hmine, hothers⟩
  orderly := horderly
  copied := by
    intro a c page bytes ha hc
    dsimp only at ha hc
    by_cases hai : a = i <;> by_cases hci : c = i
    · rw [hci, Function.update_self] at hc
      rw [hai, Function.update_self] at ha
      rw [ha] at hc
      exact hc
    · rw [hai, Function.update_self] at ha
      rw [Function.update_of_ne hci] at hc
      exact hcopied page bytes ha c hci hc
    · rw [Function.update_of_ne hai] at ha
      rw [hci, Function.update_self] at hc
      rcases hhandles page hc with hi | hothers
      · exact h.copied a i page bytes ha hi
      · exact hothers a hai (by rw [ha]; rfl)
    · rw [Function.update_of_ne hai] at ha
      rw [Function.update_of_ne hci] at hc
      exact h.copied a c page bytes ha hc

theorem Intact.stay {heap : RemoteHeap} {isLocked : Bool} (hmine : OsClaim L S.world S.flat m)
    (horderly : Orderly { S.world with heap := heap, isLocked := isLocked }
      (Function.update S.marks i m))
    (hhandles : ∀ page, m.Handles page → (S.marks i).Handles page ∨
      ∀ j, j ≠ i → ¬ (S.marks j).Flushes page)
    (hcopied : ∀ page bytes, m = .copied page bytes → S.marks i = .copied page bytes) :
    Intact L ⟨{ S.world with heap := heap, isLocked := isLocked }, S.flat,
      Function.update S.marks i m⟩ := by
  have hsame {m : Mark} (hm : OsClaim L S.world S.flat m) :
      OsClaim L { S.world with heap := heap, isLocked := isLocked } S.flat m := by
    cases m <;> exact hm
  refine h.moved h.block_length h.flat_length h.fits (hsame hmine) (fun j _ => hsame (h.claim j))
    horderly hhandles fun page bytes hm j _ => ?_
  exact h.copied i j page bytes (hcopied page bytes hm)

theorem Intact.freed : Intact L ⟨S.world, S.flat, Function.update S.marks i .free⟩ :=
  h.stay trivial (h.orderly.keep rfl False.elim fun _ => False.elim) (fun _ => False.elim) (by simp)

theorem Intact.kept (hholds : (S.marks i).Holds) (hmine : OsClaim L S.world S.flat m)
    (hhandles : ∀ page, ¬ m.Handles page) (hcopied : ∀ page bytes, m ≠ .copied page bytes) :
    Intact L ⟨S.world, S.flat, Function.update S.marks i m⟩ :=
  h.stay hmine (h.orderly.keep rfl (fun _ => hholds) fun q hq => absurd hq (hhandles q))
    (fun q hq => absurd hq (hhandles q)) fun q bytes hq => absurd hq (hcopied q bytes)

theorem Intact.onPage {b : LinuxRegion}
    (helse : LinuxRegion.Elsewhere L.osPage L.osPages page S.world.backend b)
    (hfits : b.Fits L.osPage L.osPages page (L.pageOf S.flat page) (L.pageOf S.world.block page))
    (hflush : ∀ j, j ≠ i → ¬ (S.marks j).Flushes page)
    (hmine : OsClaim L { S.world with backend := b } S.flat m)
    (hholds : m.Holds → (S.marks i).Holds) (hhandles : ∀ page, ¬ m.Handles page)
    (hcopied : ∀ page bytes, m = .copied page bytes → ∀ j, j ≠ i → ¬ (S.marks j).Handles page) :
    Intact L ⟨{ S.world with backend := b }, S.flat, Function.update S.marks i m⟩ := by
  refine h.moved h.block_length h.flat_length (fun q => ?_) hmine (fun j hj => ?_)
    (h.orderly.keep rfl hholds fun q hq => absurd hq (hhandles q))
    (fun q hq => absurd hq (hhandles q)) hcopied
  · by_cases hq : q = page
    · exact hq ▸ hfits
    · exact (h.fits q).agrees L.osPages_pos (helse q hq)
  · refine (h.claim j).elsewhere (fun q hq => helse q ?_) fun _ _ => ⟨rfl, rfl⟩
    rintro rfl
    exact hflush j hj hq

theorem Intact.fault (hoff : off < L.pageBytes)
    (hp : S.world.backend.present ((L.offset page + off) / L.osPage) = false)
    (hu : ∀ j, j ≠ i → ¬ (S.marks j).Handles page ∧ ¬ (S.marks j).Flushes page) :
    Intact L ⟨S.world, S.flat, Function.update S.marks i
      (if L.offset page < L.capacity then .faulted page else .free)⟩ := by
  rw [L.offset_eq] at hp
  rw [L.pageBytes_eq] at hoff
  split_ifs with hin
  · refine h.stay ⟨hin, (h.fits page).remote_of_missing (LinuxRegion.osPage_of_byte hoff) hp⟩
      (h.orderly.keep rfl False.elim ?_) ?_ (by simp)
    · rintro _ rfl
      exact Or.inr fun j hj => (hu j hj).1
    · rintro _ rfl
      exact Or.inr fun j hj => (hu j hj).2
  · exact h.freed

theorem Intact.load {r : Option Byte} (hoff : off < L.pageBytes)
    (hu : S.Apart L i (.load page off)) (henv : linuxEnv L (.load page off) S.world r w) :
    Intact L (S.after L.toHeapLayout i (.load page off) r w) := by
  obtain ⟨hr, rfl⟩ := henv
  rw [LinuxRegion.readByte] at hr
  simp only [Scene.after, Mark.next, stored]
  cases hp : S.world.backend.present ((L.offset page + off) / L.osPage) with
  | false =>
    obtain rfl : r = none := by simpa [hp] using hr
    simpa using h.fault hoff hp (hu hp)
  | true =>
    obtain rfl : r = some (S.world.backend.mem (L.offset page + off)) := by simpa [hp] using hr
    simp only [reduceCtorEq, false_and, if_false]
    exact h.freed

theorem Intact.store {v : Byte} {r : Bool} (hoff : off < L.pageBytes)
    (hu : S.Apart L i (.store page off v)) (hv : S.Harmless L (.store page off v) r)
    (henv : linuxEnv L (.store page off v) S.world r w) :
    Intact L (S.after L.toHeapLayout i (.store page off v) r w) := by
  obtain ⟨rfl, rfl⟩ := henv
  simp only [Scene.after, Mark.next, stored]
  cases hp : S.world.backend.present ((L.offset page + off) / L.osPage) with
  | false => simpa using h.fault hoff hp hu
  | true =>
    simp only [if_true, reduceCtorEq, false_and, if_false]
    have hin := h.inside_of_present hoff hp
    have hend := HeapLayout.end_le_capacity hin
    have hf := h.flat_length
    have hother (q : ℕ) (hq : q ≠ page) :
        L.pageOf (splice S.flat (L.offset page + off) [v]) q = L.pageOf S.flat q :=
      HeapLayout.pageOf_splice_other hf hin (by simp; omega) hq
    have helse : LinuxRegion.Elsewhere L.osPage L.osPages page S.world.backend
        (S.world.backend.writeByte (L.offset page + off) v) := by
      rw [L.offset_eq]
      exact LinuxRegion.elsewhere_writeByte (L.pageBytes_eq ▸ hoff)
    refine h.moved h.block_length ((length_splice (by simp; omega)).trans hf) (fun q => ?_) trivial
      (fun j hj => ?_) (h.orderly.keep rfl False.elim fun _ => False.elim) (fun _ => False.elim)
      (by simp)
    · by_cases hq : q = page
      · subst hq
        rw [HeapLayout.pageOf_store hf hin hoff, L.offset_eq]
        rw [L.offset_eq] at hp
        exact (h.fits q).writeByte L.osPages_pos (h.length_pageOf hin) (L.pageBytes_eq ▸ hoff) hp
          (hv (by rw [L.offset_eq]; exact hp))
      · rw [hother q hq]
        exact (h.fits q).agrees L.osPages_pos (helse q hq)
    · obtain ⟨hhandles, hflushes⟩ := hu j hj
      refine (h.claim j).elsewhere (fun q hq => helse q ?_) fun q hq => ⟨rfl, hother q ?_⟩
      · rintro rfl
        exact hflushes hq
      · rintro rfl
        exact hq.elim hhandles hflushes

theorem Intact.read {r : Except Err (List Byte)} (hm : S.marks i = .faulted page)
    (henv : linuxEnv L (.read (L.offset page) (L.length page)) S.world r w) :
    Intact L (S.after L.toHeapLayout i (.read (L.offset page) (L.length page)) r w) := by
  obtain ⟨rfl, hr⟩ := henv
  have hclaim := h.claim_of hm
  simp only [Scene.after, Mark.next, stored, hm]
  cases r with
  | error e => exact h.freed
  | ok bytes =>
    simp only
    split_ifs with hlen
    · have hbytes : bytes = L.pageOf S.flat page := (hr bytes rfl hlen).trans hclaim.2
      have hhandles {q : ℕ} (hq : (Mark.fetched page bytes).Handles q) : (S.marks i).Handles q := by
        rw [hm]
        exact hq
      exact h.stay ⟨hclaim, hbytes⟩
        (h.orderly.keep rfl False.elim fun q hq => Or.inl (hhandles hq))
        (fun q hq => Or.inl (hhandles hq)) (by simp)
    · exact h.freed

theorem Intact.sent {data bytes : List Byte} (hm : S.marks i = .copied page data)
    (hlen : bytes.length = data.length)
    (hmine : OsClaim L { S.world with block := splice S.world.block (L.offset page) bytes }
      S.flat m) (hhandles : ∀ page, ¬ m.Handles page)
    (hcopied : ∀ page bytes, m ≠ .copied page bytes) :
    Intact L ⟨{ S.world with block := splice S.world.block (L.offset page) bytes }, S.flat,
      Function.update S.marks i m⟩ := by
  obtain ⟨⟨hin, hfull, hflag⟩, hdata⟩ := h.claim_of hm
  have hholds : (S.marks i).Holds := by rw [hm]; trivial
  have hb := h.block_length
  have hend := HeapLayout.end_le_capacity hin
  have hbytes : bytes.length = L.pageBytes := by
    rw [hlen, hdata]
    exact HeapLayout.length_pageOf h.flat_length hin
  have hother (q : ℕ) (hq : q ≠ page) :
      L.pageOf (splice S.world.block (L.offset page) bytes) q = L.pageOf S.world.block q := by
    rw [← Nat.add_zero (L.offset page)]
    exact HeapLayout.pageOf_splice_other hb hin (by omega) hq
  refine h.moved ((length_splice (by omega)).trans hb) h.flat_length (fun q => ?_) hmine
    (fun j hj => ?_) (h.orderly.keep rfl (fun _ => hholds) fun q hq => absurd hq (hhandles q))
    (fun q hq => absurd hq (hhandles q)) fun q bytes hq => absurd hq (hcopied q bytes)
  · by_cases hq : q = page
    · rw [hq]
      exact ⟨(h.fits page).present, (h.fits page).torn, Or.inr ⟨hfull, hflag⟩⟩
    · rw [hother q hq]
      exact h.fits q
  · refine (h.claim j).elsewhere (fun q hq => ?_) fun q hq => ⟨hother q ?_, rfl⟩
    · exact absurd hq (h.others_unflushed hholds q j hj)
    · rintro rfl
      rcases hq with hq | hq
      · exact h.copied i j q data hm hq
      · exact h.others_unflushed hholds q j hj hq

theorem Intact.write {data : List Byte} {r : Option Err} (hm : S.marks i = .copied page data)
    (henv : linuxEnv L (.write (L.offset page) data) S.world r w) :
    Intact L (S.after L.toHeapLayout i (.write (L.offset page) data) r w) := by
  obtain ⟨bytes, hlen, hr, rfl⟩ := henv
  simp only [Scene.after, Mark.next, stored, hm]
  cases r with
  | some e => exact h.sent hm hlen trivial (fun _ => id) (by simp)
  | none =>
    obtain rfl := hr rfl
    refine h.sent hm hlen ?_ (fun _ => id) (by simp)
    obtain ⟨⟨hin, -⟩, hdata⟩ := h.claim_of hm
    have hbytes := hdata ▸ HeapLayout.length_pageOf h.flat_length hin
    exact (HeapLayout.pageOf_splice_same h.block_length hin hbytes).trans hdata

theorem Intact.resolveFault {data : List Byte} {isWrite r : Bool}
    (hm : S.marks i = .installing page data) (hv : S.Harmless L (.resolveFault page data isWrite) r)
    (henv : linuxEnv L (.resolveFault page data isWrite) S.world r w) :
    Intact L (S.after L.toHeapLayout i (.resolveFault page data isWrite) r w) := by
  obtain ⟨n, b, hcan, hb, rfl⟩ := henv
  obtain ⟨⟨hin, hsame⟩, rfl⟩ := h.claim_of hm
  have hholds : (S.marks i).Holds := by rw [hm]; trivial
  have hlen := h.length_pageOf hin
  have hn : n * L.osPage ≤ L.osPages * L.osPage := hlen ▸ hcan.1
  rw [L.offset_eq] at hb
  refine h.onPage (LinuxRegion.elsewhere_resolveFault L.osPage_pos L.osPages_pos
    (L.roundUp_page hin) hlen hn hb) ?_ (h.others_unflushed hholds page) trivial (fun _ => hholds)
    (fun _ => id) (by simp [Mark.next])
  exact (h.fits page).resolveFault L.osPage_pos L.osPages_pos (L.roundUp_page hin) hlen hn hb
    (fun hr => (hv hr).1) hsame

theorem Intact.isDirty {r : Bool} (hm : (S.marks i).Ready)
    (henv : linuxEnv L (.isDirty page) S.world r w) :
    Intact L (S.after L.toHeapLayout i (.isDirty page) r w) := by
  obtain ⟨rfl, rfl⟩ := henv
  simp only [Scene.after, Mark.next, stored]
  by_cases hin : L.offset page < L.capacity
  · have hdirty := LinuxRegion.isDirty_iff L.osPage_pos L.osPages_pos (L.roundUp_page hin)
      S.world.backend page
    rw [HeapLayout.length_eq hin, L.pageBytes_eq, L.offset_eq]
    split_ifs with hr
    · exact h.kept hm.holds ⟨hin, hdirty.1 hr⟩ (fun _ => id) (by simp)
    · refine h.kept hm.holds ?_ (fun _ => id) (by simp)
      exact (h.fits page).remote.resolve_right fun hd => hr (hdirty.2 hd.2)
  · have hlen := L.length_of_outside hin
    rw [hlen, L.offset_eq, LinuxRegion.isDirty_empty L.roundUp_zero, if_neg (by simp)]
    refine h.kept hm.holds ?_ (fun _ => id) (by simp)
    simp [OsClaim, HeapLayout.pageOf, hlen, slice]

theorem Intact.copy {r : List Byte} (hm : S.marks i = .checked page)
    (hu : S.Apart L i (.copy page)) (henv : linuxEnv L (.copy page) S.world r w) :
    Intact L (S.after L.toHeapLayout i (.copy page) r w) := by
  obtain ⟨rfl, rfl⟩ := henv
  obtain ⟨hin, hflag⟩ := h.claim_of hm
  have hholds : (S.marks i).Holds := by rw [hm]; trivial
  have hlen := h.length_pageOf hin
  simp only [Scene.after, Mark.next, stored]
  rw [HeapLayout.length_eq hin, L.offset_eq, ← OsLayout.osPages]
  obtain ⟨hfits, hfull, hflag'⟩ :=
    (h.fits page).zeroMissing L.osPage_pos L.osPages_pos hlen hflag
  refine h.onPage (LinuxRegion.zeroFilled_zeroMissing _ _ L.osPage_pos L.osPages_pos).1.elsewhere
    hfits (h.others_unflushed hholds page) ⟨⟨hin, hfull, hflag'⟩, ?_⟩ (fun _ => hholds)
    (fun _ => id) ?_
  · rw [L.pageBytes_eq]
    exact hfits.window_of_full hlen hfull
  · rintro _ _ ⟨⟩
    exact hu

theorem Intact.evictPages {r : Bool} (hm : S.marks i = .clean page)
    (henv : linuxEnv L (.evictPages page) S.world r w) :
    Intact L (S.after L.toHeapLayout i (.evictPages page) r w) := by
  obtain rfl := henv
  have hclaim := h.claim_of hm
  have hholds : (S.marks i).Holds := by rw [hm]; trivial
  simp only [Scene.after, Mark.next, stored]
  have hstay : Intact L ⟨S.world, S.flat, Function.update S.marks i .holding⟩ :=
    h.kept hholds trivial (fun _ => id) (by simp)
  cases r with
  | false => exact hstay
  | true =>
    rw [if_pos rfl]
    by_cases hin : L.offset page < L.capacity
    · rw [HeapLayout.length_eq hin, L.pageBytes_eq, L.offset_eq]
      have hround := L.roundUp_page hin
      refine h.onPage (LinuxRegion.evictPages_spec L.osPage_pos L.osPages_pos hround _ _).1 ?_
        (h.others_unflushed hholds page) trivial (fun _ => hholds) (fun _ => id) (by simp)
      exact .evictPages L.osPage_pos L.osPages_pos hround hclaim
    · rw [L.length_of_outside hin, L.offset_eq, LinuxRegion.evictPages_empty L.roundUp_zero]
      exact hstay

theorem Intact.unresolved {addr : ℕ} {r : Bool} (hu : S.Apart L i (.unresolved addr))
    (hv : S.Harmless L (.unresolved addr) r)
    (henv : linuxEnv L (.unresolved addr) S.world r w) :
    Intact L (S.after L.toHeapLayout i (.unresolved addr) r w) := by
  obtain ⟨rfl, rfl⟩ := henv
  simp only [Scene.after, Mark.next, stored]
  by_cases hin : addr < L.capacity
  · obtain ⟨hhere, hthere⟩ := hv hin
    have hpage : addr / L.osPage / L.osPages = addr / L.pageBytes := by
      rw [Nat.div_div_eq_div_mul, L.pageBytes_eq, Nat.mul_comm]
    have hoffset : L.offset (addr / L.pageBytes) < L.capacity :=
      Nat.lt_of_le_of_lt (Nat.div_mul_le_self ..) hin
    have hsame : L.pageOf S.world.block (addr / L.pageBytes) =
        L.pageOf S.flat (addr / L.pageBytes) := by
      have hlen := HeapLayout.length_pageOf h.block_length hoffset
      have hlen' := HeapLayout.length_pageOf h.flat_length hoffset
      rw [List.eq_replicate_iff.2 ⟨hlen, hthere⟩, List.eq_replicate_iff.2 ⟨hlen', hhere⟩]
    simp only [hin, decide_true, if_true]
    refine h.onPage (hpage ▸ LinuxRegion.elsewhere_zeroPage L.osPage_pos) ?_ hu trivial False.elim
      (fun _ => id) (by simp)
    exact (h.fits _).zeroPage L.osPage_pos (h.length_pageOf hoffset) hhere hsame addr
  · simp only [hin, decide_false, Bool.false_eq_true, if_false]
    exact h.freed

theorem Intact.lock {r : Unit} (hm : (S.marks i).InOrder L.toHeapLayout .lock)
    (henv : linuxEnv L .lock S.world r w) : Intact L (S.after L.toHeapLayout i .lock r w) := by
  obtain ⟨hunlocked, rfl⟩ := henv
  have hnone (j : ι) (hj : (S.marks j).Holds) : False := by
    simp [h.orderly.locked j hj] at hunlocked
  have hmoved (m : Mark) (hmine : OsClaim L S.world S.flat m)
      (hhandles : ∀ page, m.Handles page → (S.marks i).Handles page)
      (hcopied : ∀ page bytes, m ≠ .copied page bytes) :
      Intact L ⟨{ S.world with isLocked := true }, S.flat, Function.update S.marks i m⟩ := by
    refine h.stay hmine (h.orderly.update (fun _ _ _ => rfl) (fun _ => ⟨rfl, fun j _ => hnone j⟩)
      fun q hq j hj hk => ?_) (fun q hq => Or.inl (hhandles q hq))
      fun q bytes hq => absurd hq (hcopied q bytes)
    exact hj (h.orderly.handlers j i q hk (hhandles q hq))
  rcases hm with hm | ⟨page, bytes, hm⟩
  · simp only [Scene.after, Mark.next, hm]
    exact hmoved _ trivial (fun _ => False.elim) (by simp)
  · have hclaim := h.claim_of hm
    simp only [Scene.after, Mark.next, hm]
    exact hmoved _ hclaim (fun _ hq => hm ▸ hq) (by simp)

theorem Intact.unlock {r : Unit} (hm : (S.marks i).Ready)
    (henv : linuxEnv L .unlock S.world r w) :
    Intact L (S.after L.toHeapLayout i .unlock r w) := by
  obtain rfl := henv
  refine h.stay trivial (h.orderly.update (fun j hj hk => ?_) False.elim fun _ => False.elim)
    (fun _ => False.elim) (by simp [Mark.next])
  exact absurd hk (h.orderly.others_free hm.holds j hj)

theorem Intact.unmoved {heap : RemoteHeap} :
    Intact L ⟨{ S.world with heap := heap }, S.flat, Function.update S.marks i (S.marks i)⟩ :=
  h.stay (h.claim i) (h.orderly.keep rfl id fun _ => Or.inl) (fun _ => Or.inl) fun _ _ => id

omit h

/-- An effect that is in order, harmless and apart from those of the other threads. -/
theorem Intact.step (h : Intact L S) {o : HeapOp} {r : o.Res} {S' : Scene ι LinuxRegion}
    (ho : (S.marks i).InOrder L.toHeapLayout o) (hu : S.Apart L i o) (hv : S.Harmless L o r)
    (hs : linuxScene L i o S r S') : Intact L S' := by
  obtain ⟨w, flat, marks⟩ := S'
  obtain ⟨henv, rfl, rfl⟩ : linuxEnv L o S.world r w ∧ flat = stored L.toHeapLayout S.flat o r ∧
    marks = Function.update S.marks i ((S.marks i).next L.toHeapLayout o r) := hs
  cases o with
  | load page off => exact h.load ho.2 hu henv
  | store page off v => exact h.store ho.2 hu hv henv
  | read offset length =>
    obtain ⟨page, hm, rfl, rfl⟩ := ho
    exact h.read hm henv
  | write offset data =>
    obtain ⟨page, hm, rfl⟩ := ho
    exact h.write hm henv
  | resolveFault page data isWrite => exact h.resolveFault ho hv henv
  | isDirty page => exact h.isDirty ho henv
  | copy page => exact h.copy ho hu henv
  | clearDirty page =>
    obtain rfl := henv
    exact h.unmoved
  | evictPages page => exact h.evictPages ho henv
  | unresolved addr => exact h.unresolved hu hv henv
  | lock => exact h.lock ho henv
  | unlock => exact h.unlock ho henv
  | heap =>
    obtain ⟨-, rfl⟩ := henv
    exact h.unmoved
  | setHeap heap =>
    obtain rfl := henv
    exact h.unmoved

end Steps

def linuxHandler (L : OsLayout) (fails : HeapWorld LinuxRegion → Bool) :
    (o : HeapOp) → HeapWorld LinuxRegion → o.Res × HeapWorld LinuxRegion
  | .load page off, w => (w.backend.readByte L.osPage (L.offset page + off), w)
  | .store page off v, w =>
    let present := w.backend.present ((L.offset page + off) / L.osPage)
    (present, { w with
      backend := if present then w.backend.writeByte (L.offset page + off) v else w.backend })
  | .read offset length, w =>
    (if fails w then .error (.runtimeError "Peer not connected")
      else .ok (slice w.block offset length), w)
  | .write offset data, w => (none, { w with block := splice w.block offset data })
  | .resolveFault page data _, w =>
    let n := w.backend.copies L.osPage (L.offset page) data
    let answer := w.backend.resolveFault L.osPage (L.offset page) data n
    (answer.1, { w with backend := answer.2 })
  | .isDirty page, w => (w.backend.isDirty L.osPage (L.offset page) (L.length page), w)
  | .copy page, w =>
    let b := w.backend.zeroMissing L.osPage (L.offset page) (L.length page / L.osPage)
    (window b.mem (L.offset page) (L.length page), { w with backend := b })
  | .clearDirty _, w => ((), w)
  | .evictPages page, w =>
    (true, { w with backend := w.backend.evictPages L.osPage (L.offset page) (L.length page) })
  | .unresolved addr, w =>
    let inside := decide (addr < L.capacity)
    (inside, { w with backend := if inside then w.backend.zeroPage L.osPage addr else w.backend })
  | .lock, w => ((), { w with isLocked := true })
  | .unlock, w => ((), { w with isLocked := false })
  | .heap, w => (w.heap, w)
  | .setHeap heap, w => ((), { w with heap := heap })

def linuxGood : HeapOp → HeapWorld LinuxRegion → Bool
  | .lock, w => !w.isLocked
  | _, _ => true

theorem linuxHandler_allowed (fails : HeapWorld LinuxRegion → Bool) (o : HeapOp)
    (w : HeapWorld LinuxRegion) (hgood : linuxGood o w) :
    linuxEnv L o w (linuxHandler L fails o w).1 (linuxHandler L fails o w).2 := by
  cases o with
  | read offset length =>
    refine ⟨rfl, fun bytes hbytes _ => ?_⟩
    simp only [linuxHandler] at hbytes
    split at hbytes
    · exact absurd hbytes (by simp)
    · exact (Except.ok.inj hbytes).symm
  | write offset data => exact ⟨data, rfl, fun _ => rfl, rfl⟩
  | resolveFault page data isWrite => exact ⟨_, _, LinuxRegion.canCopy_copies, rfl, rfl⟩
  | lock => exact ⟨by simpa [linuxGood] using hgood, rfl⟩
  | load page off => exact ⟨rfl, rfl⟩
  | store page off v => exact ⟨rfl, rfl⟩
  | isDirty page => exact ⟨rfl, rfl⟩
  | copy page => exact ⟨rfl, rfl⟩
  | unresolved addr => exact ⟨rfl, rfl⟩
  | heap => exact ⟨rfl, rfl⟩
  | _ => exact rfl

variable [DecidableEq ι]

def linuxPlay (L : OsLayout) (fails : HeapWorld LinuxRegion → Bool) (i : ι) (o : HeapOp)
    (S : Scene ι LinuxRegion) : o.Res × Scene ι LinuxRegion :=
  let answer := linuxHandler L fails o S.world
  (answer.1, S.after L.toHeapLayout i o answer.1 answer.2)

theorem linuxPlay_allowed (fails : HeapWorld LinuxRegion → Bool) (i : ι) (o : HeapOp)
    (S : Scene ι LinuxRegion) (hgood : linuxGood o S.world) :
    linuxScene L i o S (linuxPlay L fails i o S).1 (linuxPlay L fails i o S).2 :=
  ⟨linuxHandler_allowed fails o S.world hgood, rfl, rfl⟩

def smallOs : OsLayout :=
  { smallLayout with
    osPage := 1
    osPage_pos := by decide
    osPage_dvd := by decide
    osPage_word := by decide }

/-- The effects of the threads on Linux, as long as what fails is harmless and they keep apart. -/
def harmlessEnv (L : OsLayout) (i : ι) (o : HeapOp) (S : Scene ι LinuxRegion) (r : o.Res)
    (S' : Scene ι LinuxRegion) : Prop :=
  S.Harmless L o r ∧ S.Apart L i o ∧ linuxScene L i o S r S'

theorem Intact.loadsLatest {T : ι → HeapM Unit} {S : Scene ι LinuxRegion} (h : Intact L S)
    (hstep : InStep L.toHeapLayout T S) : LoadsLatest (linuxScene L) L.toHeapLayout T S := by
  intro i page off k b S' hop hs
  have ho := hstep i
  rw [hop] at ho
  have hoff := ho.1.2
  obtain ⟨hp, hb⟩ := Option.ite_none_right_eq_some.1 hs.1.1.symm
  rw [← HeapLayout.getElem?_pageOf (h.inside_of_present hoff hp) hoff, ← hb]
  rw [L.offset_eq] at hp ⊢
  exact (h.fits page).present off (L.pageBytes_eq ▸ hoff) hp

omit [DecidableEq ι] in
theorem Intact.sendsLatest {T : ι → HeapM Unit} {S : Scene ι LinuxRegion} (h : Intact L S)
    (hstep : InStep L.toHeapLayout T S) : SendsLatest T S := by
  intro i offset data k hop
  have ho := hstep i
  rw [hop] at ho
  obtain ⟨page, hm, rfl⟩ := ho.1
  obtain ⟨⟨hin, -⟩, hdata⟩ := h.claim_of hm
  have hlen : data.length = L.length page := by
    rw [hdata, HeapLayout.length_pageOf h.flat_length hin, HeapLayout.length_eq hin]
  rw [hlen]
  exact hdata

omit [DecidableEq ι] in
theorem intact_start (L : OsLayout) :
    Intact L (.start L.toHeapLayout LinuxRegion.reserveRegion : Scene ι LinuxRegion) where
  block_length := List.length_replicate
  flat_length := List.length_replicate
  fits _ := ⟨fun _ _ hp => absurd hp Bool.false_ne_true, Or.inr fun _ _ => ⟨rfl, rfl⟩, Or.inl rfl⟩
  claim _ := trivial
  orderly := ⟨fun _ => False.elim, fun _ _ => False.elim, fun _ _ _ => False.elim⟩
  copied := by simp [Scene.start]

instance {β : Type} (S : Scene ι β) (l : HeapLayout) (page : ℕ) : Decidable (S.Blank l page) :=
  inferInstanceAs (Decidable (_ ∧ _))

instance (S : Scene ι LinuxRegion) : (o : HeapOp) → (r : o.Res) → Decidable (S.Harmless L o r)
  | .store page _ v, r =>
    inferInstanceAs (Decidable (r = true → v = 0 ∨ LinuxRegion.WholeAt L.osPages page _))
  | .resolveFault page _ _, r =>
    inferInstanceAs (Decidable (r = false → S.Blank L.toHeapLayout page))
  | .unresolved addr, _ =>
    inferInstanceAs (Decidable (addr < L.capacity → S.Blank L.toHeapLayout (addr / L.pageBytes)))
  | .load .., _ | .read .., _ | .write .., _ | .isDirty _, _ | .copy _, _ | .clearDirty _, _
  | .evictPages _, _ | .lock, _ | .unlock, _ | .heap, _ | .setHeap _, _ => .isTrue trivial

theorem linuxPlay_harmless [Subsingleton ι] (fails : HeapWorld LinuxRegion → Bool) (i : ι)
    (o : HeapOp) (S : Scene ι LinuxRegion)
    (hgood : (linuxGood o S.world && decide (S.Harmless L o (linuxPlay L fails i o S).1)) = true) :
    harmlessEnv L i o S (linuxPlay L fails i o S).1 (linuxPlay L fails i o S).2 := by
  obtain ⟨hgood, hharmless⟩ := Bool.and_eq_true_iff.1 hgood
  exact ⟨of_decide_eq_true hharmless, S.apart i o, linuxPlay_allowed fails i o S hgood⟩

/-- Page-ins may fail. As long as they fail for pages of zeros, only zeros are stored to pages that
are mapped in part, and the threads keep apart, a load gives the latest store and the peer is sent
the latest stores, in every state of every run. -/
theorem harmless_failures_faithful (L : OsLayout) (rounds : ℕ) (calls : ι → List HeapCall)
    {T : ι → HeapM Unit} {S : Scene ι LinuxRegion}
    (h : Reaches (harmlessEnv L) (fun i => session L.toHeapLayout rounds (calls i))
      (.start L.toHeapLayout LinuxRegion.reserveRegion) T S) :
    LoadsLatest (linuxScene L) L.toHeapLayout T S ∧ SendsLatest T S := by
  obtain ⟨hintact, hstep⟩ : Intact L S ∧ InStep L.toHeapLayout T S := by
    refine h.invariant (I := fun T S => Intact L S ∧ InStep L.toHeapLayout T S) ?_
      ⟨intact_start L, fun i => (wp_iff.mp (paced_session rounds (calls i))).1⟩
    rintro T S i o k r S' ⟨hintact, hstep⟩ hop ⟨hharmless, hapart, hs⟩
    have ho := hstep i
    rw [hop] at ho
    exact ⟨hintact.step ho.1 hapart hharmless hs, hstep.next hop hs.2.2⟩
  exact ⟨hintact.loadsLatest hstep, hintact.sendsLatest hstep⟩

def loadAndStore : List HeapCall := [.load 0, .load 1, .store 2 7, .flush]

def failsFirst (w : HeapWorld LinuxRegion) : Bool :=
  w.heap.stats.fetches == 0 && !w.backend.present 0

/-- The first fetch fails, and the page is not installed by the second, since an OS page of it is
mapped by then. A load is about to complete, and then a store is about to be written back. -/
theorem harmless_failures_faithful_blank :
    (∃ T S, Reaches (harmlessEnv smallOs)
      (fun _ : Unit => session smallOs.toHeapLayout 5 loadAndStore)
      (.start smallOs.toHeapLayout LinuxRegion.reserveRegion) T S ∧
      (∃ k, T () = .op (.load 0 0) k) ∧ ¬ S.world.backend.WholeAt 2 0 ∧
      LoadsLatest (linuxScene smallOs) smallOs.toHeapLayout T S) ∧
    ∃ T S, Reaches (harmlessEnv smallOs)
      (fun _ : Unit => session smallOs.toHeapLayout 5 loadAndStore)
      (.start smallOs.toHeapLayout LinuxRegion.reserveRegion) T S ∧
      (∃ k, T () = .op (.write 2 [7, 0]) k) ∧ SendsLatest T S := by
  have hreach : ∀ n, _ := fun n => Prog.reaches_play
    (linuxPlay_harmless (L := smallOs) failsFirst) (List.replicate n ())
    (Reaches.start (T := fun _ => session smallOs.toHeapLayout 5 loadAndStore)
      (s := Scene.start smallOs.toHeapLayout LinuxRegion.reserveRegion))
  have hfirst := hreach 3 (by decide +kernel)
  have hsecond := hreach 38 (by decide +kernel)
  exact ⟨⟨_, _, hfirst, ⟨_, rfl⟩, by decide +kernel,
      (harmless_failures_faithful smallOs 5 _ hfirst).1⟩,
    _, _, hsecond, ⟨_, rfl⟩, (harmless_failures_faithful smallOs 5 _ hsecond).2⟩

def evictAndLoad : List HeapCall :=
  [.store 0 7, .store 1 8, .flushAndEvictAll, .load 0, .load 1, .flush]

def failsOnce (w : HeapWorld LinuxRegion) : Bool :=
  w.heap.stats.fetches == 1 && !w.backend.present 0

/-- The load gives zero. After the next load, for which the page cannot be installed, the zeros
are sent to the peer. -/
theorem failed_page_in_corrupts :
    (∃ T S, Reaches (linuxScene smallOs)
      (fun _ : Unit => session smallOs.toHeapLayout 5 evictAndLoad)
      (.start smallOs.toHeapLayout LinuxRegion.reserveRegion) T S ∧
      ¬ LoadsLatest (linuxScene smallOs) smallOs.toHeapLayout T S) ∧
    ∃ T S, Reaches (linuxScene smallOs)
      (fun _ : Unit => session smallOs.toHeapLayout 5 evictAndLoad)
      (.start smallOs.toHeapLayout LinuxRegion.reserveRegion) T S ∧ ¬ SendsLatest T S := by
  have hreach : ∀ n, _ := fun n => Prog.reaches_play
    (linuxPlay_allowed (L := smallOs) failsOnce) (List.replicate n ())
    (Reaches.start (T := fun _ => session smallOs.toHeapLayout 5 evictAndLoad)
      (s := Scene.start smallOs.toHeapLayout LinuxRegion.reserveRegion))
  constructor
  · refine ⟨_, _, hreach 28 (by decide +kernel), fun h => ?_⟩
    have hload := h () 0 0 _ 0 _ rfl (linuxPlay_allowed failsOnce () (.load 0 0) _ rfl)
    exact absurd hload (by decide +kernel)
  · refine ⟨_, _, hreach 43 (by decide +kernel), fun h => ?_⟩
    exact absurd (h () 0 [0, 0] _ rfl) (by decide +kernel)

end MemInfo
