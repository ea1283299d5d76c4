import MemInfo.Memclient.Placement

/-! # Ranges of a striped block

A range of a block in consecutive stripes has at most one piece in each stripe. The passes of
`write_remote` and `read_remote` make one request for each piece, in order, and the first pass
is the last one.
-/

namespace MemInfo

open Lib Prog MemoryClient

structure Piece where
  stripe : Stripe
  /-- Counted from the start of the stripe. -/
  start : ℕ
  length : ℕ
  deriving DecidableEq, Repr

def Stripe.piece (offset size : ℕ) (x : Stripe) : Option Piece :=
  if max offset x.offset < min (offset + size) (x.offset + x.length) then
    some ⟨x, max offset x.offset - x.offset,
      min (offset + size) (x.offset + x.length) - max offset x.offset⟩
  else none

def pieces (offset size : ℕ) (xs : List Stripe) : List Piece :=
  xs.filterMap (Stripe.piece offset size)

/-- How many bytes of the range lie before `lo`. -/
def bytesBefore (offset size lo : ℕ) : ℕ := min lo (offset + size) - offset

/-- The pieces follow each other from `lo` to `hi`, each of them inside its stripe, and none is
empty. -/
def Adjacent : ℕ → List Piece → ℕ → Prop
  | lo, [], hi => lo = hi
  | lo, y :: ys, hi => y.stripe.offset + y.start = lo ∧ y.start + y.length ≤ y.stripe.length ∧
      0 < y.length ∧ Adjacent (lo + y.length) ys hi

section Pieces

variable {offset size lo hi : ℕ} {x : Stripe} {xs : List Stripe} {y : Piece} {ys : List Piece}

theorem Stripe.piece_eq_some (h : x.piece offset size = some y) :
    y.stripe = x ∧ y.start + y.length ≤ x.length ∧ 0 < y.length := by
  unfold piece at h
  split_ifs at h with hlt
  obtain rfl := Option.some.inj h
  refine ⟨rfl, ?_, ?_⟩
  · dsimp only
    omega
  · dsimp only
    omega

theorem mem_pieces (hy : y ∈ pieces offset size xs) :
    y.stripe ∈ xs ∧ y.start + y.length ≤ y.stripe.length ∧ 0 < y.length := by
  obtain ⟨x, hx, hp⟩ := List.mem_filterMap.mp hy
  obtain ⟨rfl, hle, hpos⟩ := x.piece_eq_some hp
  exact ⟨hx, hle, hpos⟩

theorem nodup_pieces (h : (xs.map Stripe.ref).Nodup) :
    ((pieces offset size xs).map fun y => y.stripe.ref).Nodup := by
  have hsub : ((pieces offset size xs).map Piece.stripe).Sublist xs := by
    induction xs with
    | nil => exact List.Sublist.refl _
    | cons x xs ih =>
      rw [pieces, List.filterMap_cons]
      have ih := ih (List.nodup_cons.mp h).2
      cases hp : x.piece offset size with
      | none => exact ih.cons x
      | some y =>
        obtain ⟨rfl, -⟩ := Stripe.piece_eq_some hp
        exact ih.cons_cons y.stripe
  have hmap := (hsub.map Stripe.ref).nodup h
  rwa [List.map_map] at hmap

theorem pieces_empty (offset : ℕ) (xs : List Stripe) : pieces offset 0 xs = [] := by
  refine List.filterMap_eq_nil_iff.mpr fun x _ => if_neg ?_
  omega

theorem Stripe.piece_eq_none (h : x.piece offset size = none) :
    bytesBefore offset size (x.offset + x.length) = bytesBefore offset size x.offset := by
  unfold piece at h
  split_ifs at h
  unfold bytesBefore
  omega

theorem Stripe.piece_next (h : x.piece offset size = some y) :
    x.offset + y.start = offset + bytesBefore offset size x.offset ∧
      bytesBefore offset size (x.offset + x.length) =
        bytesBefore offset size x.offset + y.length := by
  unfold piece at h
  split_ifs at h
  obtain rfl := Option.some.inj h
  unfold bytesBefore
  dsimp only
  omega

theorem bytesBefore_end (h : offset + size ≤ hi) : bytesBefore offset size hi = size := by
  unfold bytesBefore
  omega

theorem adjacent_pieces (hx : Consecutive lo xs hi) (hle : offset + size ≤ hi) :
    Adjacent (offset + bytesBefore offset size lo) (pieces offset size xs) (offset + size) := by
  induction xs generalizing lo with
  | nil =>
    obtain rfl : lo = hi := hx
    rw [bytesBefore_end hle]
    rfl
  | cons x xs ih =>
    obtain ⟨rfl, -, hx⟩ := hx
    have ih := ih hx
    rw [pieces, List.filterMap_cons]
    cases hp : x.piece offset size with
    | none =>
      rw [Stripe.piece_eq_none hp] at ih
      exact ih
    | some y =>
      obtain ⟨hstart, hnext⟩ := Stripe.piece_next hp
      obtain ⟨rfl, hin, hlen⟩ := Stripe.piece_eq_some hp
      rw [hnext, ← Nat.add_assoc] at ih
      exact ⟨hstart, hin, hlen, ih⟩

theorem adjacent_range (hx : Consecutive 0 xs hi) (hle : offset + size ≤ hi) :
    Adjacent offset (pieces offset size xs) (offset + size) := by
  simpa [bytesBefore] using adjacent_pieces hx hle

theorem Adjacent.le (h : Adjacent lo ys hi) : lo ≤ hi := by
  induction ys generalizing lo with
  | nil => exact Nat.le_of_eq h
  | cons y ys ih => exact Nat.le_trans (Nat.le_add_right _ _) (ih h.2.2.2)

theorem Consecutive.length_pos (h : Consecutive lo xs hi) (hx : x ∈ xs) : 0 < x.length := by
  induction xs generalizing lo with
  | nil => cases hx
  | cons y xs ih =>
    rcases List.mem_cons.mp hx with rfl | hx
    · exact h.2.1
    · exact ih h.2.2 hx

theorem pieces_whole (hx : Consecutive 0 xs hi) :
    pieces 0 hi xs = xs.map fun x => ⟨x, 0, x.length⟩ := by
  rw [← List.filterMap_eq_map]
  apply List.filterMap_congr
  intro x hm
  have hb := (hx.bounds hm).2
  have hpos := hx.length_pos hm
  rw [Stripe.piece, if_pos (by omega)]
  congr 2 <;> omega

end Pieces

namespace MemoryClient

variable {offset size lo hi : ℕ} {x : Stripe} {xs : List Stripe} {a : RemoteAllocation}

def readPieces (rel : Bool) : List Piece → List Byte → ℕ → ClientM (List Byte)
  | [], result, _ => Pure.pure result
  | y :: ys, result, done => do
    let result ← tryCatch (readStripe y.stripe y.start y.length rel result done)
      fun e => MonadExcept.throw (.runtimeError ("Failed to read stripe: " ++ e.what))
    readPieces rel ys result (done + y.length)

def writePieces (data : List Byte) : List Piece → ℕ → ClientM Unit
  | [], _ => Pure.pure ()
  | y :: ys, done => do
    tryCatch (store y.stripe.peer y.stripe.remoteHandle y.start (slice data done y.length))
      fun e => MonadExcept.throw (.runtimeError ("Failed to write stripe: " ++ e.what))
    writePieces data ys (done + y.length)

theorem piece_of_covers (hx : x.offset + x.length < 2 ^ 64) (hr : offset + size < 2 ^ 64)
    (hdone : ¬ bytesBefore offset size x.offset ≥ size) :
    x.piece offset size =
      if Covers x (wrap (offset + bytesBefore offset size x.offset)) then
        some ⟨x, wrap (offset + bytesBefore offset size x.offset) - x.offset,
          min (size - bytesBefore offset size x.offset)
            (x.length - (wrap (offset + bytesBefore offset size x.offset) - x.offset))⟩
      else none := by
  have hpos : offset + bytesBefore offset size x.offset = max offset x.offset := by
    unfold bytesBefore at hdone ⊢
    omega
  have hd : bytesBefore offset size x.offset = max offset x.offset - offset := by omega
  rw [wrap_of_lt (by omega), hpos, hd, Stripe.piece]
  have hiff : Covers x (max offset x.offset) ↔
      max offset x.offset < min (offset + size) (x.offset + x.length) := by
    rw [Covers, wrap_of_lt hx]
    omega
  rw [if_congr hiff rfl rfl]
  congr 3
  omega

theorem piece_of_done (hdone : bytesBefore offset size x.offset ≥ size) :
    x.piece offset size = none := by
  unfold bytesBefore at hdone
  exact if_neg (by omega)

/-- How both passes go through the stripes from the one at `lo` on, with the pieces that are left
and the number of bytes that are done. -/
theorem pass_induction {motive : List Stripe → List Piece → ℕ → Prop} (hx : Consecutive lo xs hi)
    (hle : offset + size ≤ hi) (hlt : hi < 2 ^ 64) (nil : motive [] [] size)
    (full : ∀ x xs ys done, done ≥ size → motive xs ys done → motive (x :: xs) ys done)
    (skip : ∀ x xs ys done, ¬ done ≥ size → ¬ Covers x (wrap (offset + done)) →
      motive xs ys done → motive (x :: xs) ys done)
    (take : ∀ x xs ys done start length, ¬ done ≥ size → Covers x (wrap (offset + done)) →
      start = wrap (offset + done) - x.offset → length = min (size - done) (x.length - start) →
      motive xs ys (done + length) → motive (x :: xs) (⟨x, start, length⟩ :: ys) done) :
    motive xs (pieces offset size xs) (bytesBefore offset size lo) := by
  induction xs generalizing lo with
  | nil =>
    obtain rfl : lo = hi := hx
    rw [bytesBefore_end hle]
    exact nil
  | cons x xs ih =>
    obtain ⟨rfl, -, hx⟩ := hx
    have hxe := hx.le
    have ih := ih hx
    rw [pieces, List.filterMap_cons]
    by_cases hdone : bytesBefore offset size x.offset ≥ size
    · have hnone := piece_of_done hdone
      rw [Stripe.piece_eq_none hnone] at ih
      rw [hnone]
      exact full x xs _ _ hdone ih
    · have hpiece := piece_of_covers (by omega) (by omega) hdone
      split_ifs at hpiece with hcov
      · obtain ⟨-, hnext⟩ := Stripe.piece_next hpiece
        rw [hnext] at ih
        rw [hpiece]
        exact take x xs _ _ _ _ hdone hcov rfl rfl ih
      · rw [Stripe.piece_eq_none hpiece] at ih
        rw [hpiece]
        exact skip x xs _ _ hdone hcov ih

theorem readPass_full {rel : Bool} {result : List Byte} {done : ℕ} (h : size ≤ done) :
    readPass offset size rel xs result done = Pure.pure (result, done) := by
  cases xs with
  | nil => rfl
  | cons x xs => rw [readPass, if_pos h]

theorem readPass_eq (rel : Bool) (hx : Consecutive lo xs hi) (hle : offset + size ≤ hi)
    (hlt : hi < 2 ^ 64) (result : List Byte) :
    readPass offset size rel xs result (bytesBefore offset size lo) =
      readPieces rel (pieces offset size xs) result (bytesBefore offset size lo) >>=
        fun result => Pure.pure (result, size) := by
  apply pass_induction (motive := fun xs ys done => ∀ result,
    readPass offset size rel xs result done =
      readPieces rel ys result done >>= fun result => Pure.pure (result, size)) hx hle hlt
  · intro result
    rfl
  · intro x xs ys done hdone ih result
    rw [readPass, if_pos hdone]
    exact (readPass_full hdone).symm.trans (ih result)
  · intro x xs ys done hdone hcov ih result
    rw [readPass, if_neg hdone, if_neg hcov]
    exact ih result
  · rintro x xs ys done _ _ hdone hcov rfl rfl ih result
    rw [readPass, if_neg hdone, if_pos hcov, readPieces, bind_assoc]
    exact bind_congr ih

/-- A striped read is the read of its pieces. -/
theorem readRemote_striped {rel : Bool} (hs : a.isStriped = true) (hx : Consecutive 0 a.stripes hi)
    (hle : offset + size ≤ hi) (hlt : hi < 2 ^ 64) :
    readRemote a offset size rel =
      readPieces rel (pieces offset size a.stripes) (List.replicate size 0) 0 := by
  rw [readRemote, if_pos hs, readPasses]
  by_cases hpos : 0 < size
  · have hpass := readPass_eq rel hx hle hlt (List.replicate size 0)
    simp only [bytesBefore, Nat.zero_min, Nat.zero_sub] at hpass
    rw [if_pos hpos, hpass, bind_assoc]
    simp only [pure_bind, readPasses_done offset size rel a.stripes _ hpos, bind_pure]
  · obtain rfl : size = 0 := by omega
    rw [if_neg hpos, pieces_empty]
    rfl

theorem writePass_full {data : List Byte} {done : ℕ} (h : data.length ≤ done) :
    writePass offset data xs done = Pure.pure done := by
  cases xs with
  | nil => rfl
  | cons x xs => rw [writePass, if_pos h]

theorem writePass_eq (data : List Byte) (hx : Consecutive lo xs hi)
    (hle : offset + data.length ≤ hi) (hlt : hi < 2 ^ 64) :
    writePass offset data xs (bytesBefore offset data.length lo) =
      writePieces data (pieces offset data.length xs) (bytesBefore offset data.length lo) >>=
        fun _ => Pure.pure data.length := by
  apply pass_induction (motive := fun xs ys done => writePass offset data xs done =
    writePieces data ys done >>= fun _ => Pure.pure data.length) hx hle hlt
  · rfl
  · intro x xs ys done hdone ih
    rw [writePass, if_pos hdone]
    exact (writePass_full hdone).symm.trans ih
  · intro x xs ys done hdone hcov ih
    rw [writePass, if_neg hdone, if_neg hcov]
    exact ih
  · rintro x xs ys done _ _ hdone hcov rfl rfl ih
    rw [writePass, if_neg hdone, if_pos hcov, writePieces, bind_assoc]
    exact bind_congr fun _ => ih

theorem writeRemote_striped {data : List Byte} (hs : a.isStriped = true)
    (hx : Consecutive 0 a.stripes hi) (hle : offset + data.length ≤ hi) (hlt : hi < 2 ^ 64) :
    writeRemote a offset data = writePieces data (pieces offset data.length a.stripes) 0 := by
  rw [writeRemote, if_pos hs, writePasses]
  by_cases hpos : 0 < data.length
  · have hpass := writePass_eq data hx hle hlt
    simp only [bytesBefore, Nat.zero_min, Nat.zero_sub] at hpass
    rw [if_pos hpos, hpass, bind_assoc]
    simp only [pure_bind, writePasses_done offset data a.stripes hpos]
    exact bind_pure _
  · have hempty : data.length = 0 := by omega
    rw [if_neg hpos, hempty, pieces_empty]
    rfl

end MemoryClient

end MemInfo
