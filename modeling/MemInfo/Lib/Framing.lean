import Mathlib.Data.List.Basic
import Mathlib.Data.Nat.Init
import Mathlib.Tactic.Common

/-! # Cutting a stream into frames

A frame starts with a header of fixed length that says how long the rest of the frame is.
A stream is cut from the front: frame after frame, until what is left is only a part of a
frame, or announces a frame that is longer than the limit.
-/

namespace Lib

structure Framing (α : Type*) where
  header : ℕ
  limit : ℕ
  /-- The length that the header announces for the rest of the frame. -/
  size : List α → ℕ
  header_pos : 0 < header
  size_append : ∀ l m, header ≤ l.length → size (l ++ m) = size l

inductive Next (α : Type*) where
  | more
  | refused
  | frame (f rest : List α)
  deriving DecidableEq, Repr

namespace Framing

variable {α : Type*} (F : Framing α)

def next (s : List α) : Next α :=
  if s.length < F.header then .more
  else if F.limit < F.size s then .refused
  else if F.header + F.size s ≤ s.length then
    .frame (s.take (F.header + F.size s)) (s.drop (F.header + F.size s))
  else .more

structure IsFrame (f : List α) : Prop where
  header : F.header ≤ f.length
  limit : F.size f ≤ F.limit
  length : f.length = F.header + F.size f

/-- The frames of a stream. A frame has a header, so the length of the stream bounds their
number. -/
def cut : ℕ → List α → List (List α) × List α
  | 0, s => ([], s)
  | n + 1, s =>
    match F.next s with
    | .frame f r => (f :: (cut n r).1, (cut n r).2)
    | _ => ([], s)

def frames (s : List α) : List (List α) := (F.cut s.length s).1

def rest (s : List α) : List α := (F.cut s.length s).2

variable {F} {s t f r : List α}

theorem next_eq_frame_iff : F.next s = .frame f r ↔ s = f ++ r ∧ F.IsFrame f := by
  constructor
  · intro h
    unfold next at h
    split_ifs at h with hh hl hs
    obtain ⟨rfl, rfl⟩ := Next.frame.inj h
    have hlen : (s.take (F.header + F.size s)).length = F.header + F.size s := by
      rw [List.length_take, Nat.min_eq_left hs]
    have hsize : F.size s = F.size (s.take (F.header + F.size s)) := by
      conv_lhs => rw [← List.take_append_drop (F.header + F.size s) s]
      exact F.size_append _ _ (by omega)
    exact ⟨(List.take_append_drop _ _).symm, by omega, by omega, by omega⟩
  · rintro ⟨rfl, hf⟩
    have hsize := F.size_append f r hf.header
    have hlen := hf.length
    have hlimit := hf.limit
    unfold next
    rw [hsize, if_neg (by rw [List.length_append]; omega), if_neg (Nat.not_lt.mpr hlimit),
      if_pos (by rw [List.length_append]; omega), ← hlen, List.take_left, List.drop_left]

theorem IsFrame.next (hf : F.IsFrame f) (r : List α) : F.next (f ++ r) = .frame f r :=
  next_eq_frame_iff.mpr ⟨rfl, hf⟩

theorem IsFrame.pos (hf : F.IsFrame f) : 0 < f.length :=
  Nat.lt_of_lt_of_le F.header_pos hf.header

theorem next_eq_refused_iff : F.next s = .refused ↔ F.header ≤ s.length ∧ F.limit < F.size s := by
  unfold next
  split_ifs <;> simp <;> omega

theorem next_eq_more_iff : F.next s = .more ↔
    s.length < F.header ∨
      F.header ≤ s.length ∧ F.size s ≤ F.limit ∧ s.length < F.header + F.size s := by
  unfold next
  split_ifs <;> simp <;> omega

theorem next_append_refused (h : F.next s = .refused) (t : List α) :
    F.next (s ++ t) = .refused := by
  obtain ⟨hh, hl⟩ := next_eq_refused_iff.mp h
  rw [next_eq_refused_iff, F.size_append s t hh, List.length_append]
  exact ⟨Nat.le_add_right_of_le hh, hl⟩

theorem next_nil : F.next ([] : List α) = .more := if_pos F.header_pos

theorem prefix_of_next_append (hs : F.next s = .more) (h : F.next (s ++ t) = .frame f r) :
    s <+: f ∧ s ≠ f := by
  obtain ⟨he, hf⟩ := next_eq_frame_iff.mp h
  have hnot : ¬ f <+: s := by
    rintro ⟨r', rfl⟩
    rw [hf.next] at hs
    cases hs
  constructor
  · rcases List.prefix_or_prefix_of_prefix ⟨t, he⟩ (List.prefix_append f r) with h | h
    · exact h
    · exact absurd h hnot
  · rintro rfl
    exact hnot (List.prefix_refl _)

theorem cut_succ (n : ℕ) (hs : s.length ≤ n) : F.cut (n + 1) s = F.cut n s := by
  induction n generalizing s with
  | zero =>
    obtain rfl := List.length_eq_zero_iff.mp (Nat.le_zero.mp hs)
    simp [cut, next_nil]
  | succ n ih =>
    rw [cut, cut]
    cases hn : F.next s with
    | more => rfl
    | refused => rfl
    | frame f r =>
      obtain ⟨rfl, hf⟩ := next_eq_frame_iff.mp hn
      have := hf.pos
      rw [List.length_append] at hs
      simp only [ih (s := r) (by omega)]

theorem cut_of_le {n : ℕ} (hs : s.length ≤ n) : F.cut n s = F.cut s.length s := by
  induction n, hs using Nat.le_induction with
  | base => rfl
  | succ n hn ih => rw [cut_succ n hn, ih]

theorem cut_frame (h : F.next s = .frame f r) :
    F.frames s = f :: F.frames r ∧ F.rest s = F.rest r := by
  obtain ⟨rfl, hf⟩ := next_eq_frame_iff.mp h
  obtain ⟨n, hn⟩ := Nat.exists_eq_succ_of_ne_zero (Nat.ne_of_gt hf.pos)
  have hlen : (f ++ r).length = (n + r.length) + 1 := by rw [List.length_append, hn]; omega
  rw [frames, rest, hlen, cut, h]
  simp only [cut_of_le (Nat.le_add_left r.length n)]
  exact ⟨rfl, rfl⟩

theorem cut_stop (h : ∀ f r, F.next s ≠ .frame f r) : F.frames s = [] ∧ F.rest s = s := by
  unfold frames rest
  cases s.length with
  | zero => exact ⟨rfl, rfl⟩
  | succ n =>
    rw [cut]
    cases hn : F.next s with
    | frame f r => exact absurd hn (h f r)
    | _ => exact ⟨rfl, rfl⟩

theorem cut_refused (h : F.next s = .refused) : F.frames s = [] ∧ F.rest s = s :=
  cut_stop fun f r hf => by simp [h] at hf

theorem cut_more (h : F.next s = .more) : F.frames s = [] ∧ F.rest s = s :=
  cut_stop fun f r hf => by simp [h] at hf

theorem cut_induction {P : List α → Prop} (stop : ∀ s, (∀ f r, F.next s ≠ .frame f r) → P s)
    (frame : ∀ f r, F.IsFrame f → P r → P (f ++ r)) (s : List α) : P s := by
  induction hn : s.length using Nat.strong_induction_on generalizing s with
  | _ n ih =>
    by_cases h : ∃ f r, F.next s = .frame f r
    · obtain ⟨f, r, hfr⟩ := h
      obtain ⟨rfl, hf⟩ := next_eq_frame_iff.mp hfr
      refine frame f r hf (ih r.length ?_ r rfl)
      have := hf.pos
      rw [List.length_append] at hn
      omega
    · push Not at h
      exact stop s h

theorem IsFrame.frames_append (hf : F.IsFrame f) (r : List α) :
    F.frames (f ++ r) = f :: F.frames r := (cut_frame (hf.next r)).1

theorem IsFrame.rest_append (hf : F.IsFrame f) (r : List α) : F.rest (f ++ r) = F.rest r :=
  (cut_frame (hf.next r)).2

/-- The frames and the rest are all of the stream. -/
theorem flatten_frames_append_rest (s : List α) : (F.frames s).flatten ++ F.rest s = s := by
  induction s using cut_induction (F := F) with
  | stop s h => rw [(cut_stop h).1, (cut_stop h).2, List.flatten_nil, List.nil_append]
  | frame f r hf ih =>
    rw [hf.frames_append, hf.rest_append, List.flatten_cons, List.append_assoc, ih]

theorem isFrame_of_mem_frames (h : f ∈ F.frames s) : F.IsFrame f := by
  induction s using cut_induction (F := F) with
  | stop s hs => simp [(cut_stop hs).1] at h
  | frame g r hg ih =>
    rw [hg.frames_append] at h
    rcases List.mem_cons.mp h with rfl | h
    · exact hg
    · exact ih h

theorem next_rest (s : List α) : F.next (F.rest s) = .more ∨ F.next (F.rest s) = .refused := by
  induction s using cut_induction (F := F) with
  | stop s h =>
    rw [(cut_stop h).2]
    cases hn : F.next s with
    | more => exact .inl rfl
    | refused => exact .inr rfl
    | frame f r => exact absurd hn (h f r)
  | frame f r hf ih => rwa [hf.rest_append]

theorem next_eq_more_iff_frames :
    F.next s = .more ↔ F.frames s = [] ∧ F.next (F.rest s) = .more := by
  constructor
  · intro h
    rw [(cut_more h).1, (cut_more h).2]
    exact ⟨rfl, h⟩
  · rintro ⟨hf, hr⟩
    cases hn : F.next s with
    | more => rfl
    | refused => rw [(cut_refused hn).2, hn] at hr; cases hr
    | frame f r => rw [(cut_frame hn).1] at hf; cases hf

/-- A stream is cut piece by piece: what is left of the first piece goes in front of the
second. -/
theorem frames_append (s t : List α) :
    F.frames (s ++ t) = F.frames s ++ F.frames (F.rest s ++ t) ∧
      F.rest (s ++ t) = F.rest (F.rest s ++ t) := by
  induction s using cut_induction (F := F) with
  | stop s h => rw [(cut_stop h).1, (cut_stop h).2]; exact ⟨rfl, rfl⟩
  | frame f r hf ih =>
    rw [List.append_assoc, hf.frames_append, hf.frames_append, hf.rest_append, hf.rest_append,
      ih.1, ih.2]
    exact ⟨rfl, rfl⟩

theorem frames_flatten_append {fs : List (List α)} (hfs : ∀ f ∈ fs, F.IsFrame f) (r : List α) :
    F.frames (fs.flatten ++ r) = fs ++ F.frames r ∧ F.rest (fs.flatten ++ r) = F.rest r := by
  induction fs with
  | nil => exact ⟨rfl, rfl⟩
  | cons f fs ih =>
    obtain ⟨ih₁, ih₂⟩ := ih fun g hg => hfs g (List.mem_cons_of_mem _ hg)
    have hf := hfs f List.mem_cons_self
    rw [List.flatten_cons, List.append_assoc, hf.frames_append, hf.rest_append, ih₁, ih₂]
    exact ⟨rfl, rfl⟩

end Framing

end Lib
