import Mathlib.Data.List.Basic
import Mathlib.Tactic.Common

/-! # Command lines

The rules by which the C runtime of Windows divides a command line into arguments. Arguments end
at a blank outside quotation marks. Before a quotation mark backslashes come in pairs, each pair
one backslash, and an odd one makes the mark a character of the argument; elsewhere they stand for
themselves. Two marks in a row inside quotation marks are a mark of the argument, too. The
program's name comes first and follows simpler rules.
-/

namespace Lib.CommandLine

def isBlank (c : Char) : Bool := c == ' ' || c == '\t'

/-- The program's name and what follows it. Quotation marks are dropped wherever they stand, and
a backslash is a character like any other. -/
def programName : Bool → List Char → List Char × List Char
  | _, [] => ([], [])
  | quoted, c :: s =>
    if c = '"' then programName (!quoted) s
    else if isBlank c && !quoted then ([], s)
    else (c :: (programName quoted s).1, (programName quoted s).2)

structure Scan where
  /-- An argument has begun. -/
  started : Bool := false
  quoted : Bool := false
  /-- The last character closed the quotation: one more mark makes the two a character. -/
  closed : Bool := false
  /-- The backslashes read last, as long as nothing has come after them. -/
  slashes : ℕ := 0
  text : List Char := []

namespace Scan

variable (st : Scan)

def seen : List Char := st.text ++ List.replicate st.slashes '\\'

/-- Of the backslashes `kept` go to the argument, and then the characters `s`. -/
def put (kept : ℕ) (s : List Char) : Scan where
  started := true
  quoted := st.quoted
  text := st.text ++ List.replicate kept '\\' ++ s

/-- A character that is neither a quotation mark nor the end of the argument. -/
def read (c : Char) : Scan :=
  if c = '\\' then { st with started := true, closed := false, slashes := st.slashes + 1 }
  else st.put st.slashes [c]

def mark : Scan :=
  if st.slashes % 2 = 1 then st.put (st.slashes / 2) ['"']
  else if st.closed then { st.put (st.slashes / 2) ['"'] with quoted := true }
  else { st.put (st.slashes / 2) [] with quoted := !st.quoted, closed := st.quoted }

def finish : List (List Char) := if st.started then [st.seen] else []

end Scan

def arguments : Scan → List Char → List (List Char)
  | st, [] => st.finish
  | st, c :: s =>
    if c = '"' then arguments st.mark s
    else if isBlank c && !st.quoted then st.finish ++ arguments {} s
    else arguments (st.read c) s

def argv (line : List Char) : List (List Char) :=
  (programName false line).1 :: arguments {} (programName false line).2

section ProgramName

theorem not_mem_programName (quoted : Bool) (s : List Char) : '"' ∉ (programName quoted s).1 := by
  fun_induction programName quoted s with
  | case1 => simp
  | case2 _ _ ih => exact ih
  | case3 => simp
  | case4 quoted c s hc _ ih =>
    intro h
    rcases List.mem_cons.1 h with h | h
    · exact hc h.symm
    · exact ih h

theorem programName_quoted {name : List Char} (h : '"' ∉ name) (s : List Char) :
    programName true (name ++ '"' :: s) = (name ++ (programName false s).1, (programName false s).2)
    := by
  induction name with
  | nil => simp [programName]
  | cons c name ih =>
    obtain ⟨hc, hname⟩ := not_or.1 (mt List.mem_cons.2 h)
    have hc' : c ≠ '"' := fun he => hc he.symm
    simp [programName, hc', ih hname]

end ProgramName

/-! ## Lines in which no backslash stands before a mark -/

/-- Whether a backslash stands immediately before a quotation mark; `b` says that the character
before the text is a backslash. -/
def hasEscape : Bool → List Char → Bool
  | _, [] => false
  | b, c :: s => b && c == '"' || hasEscape (c == '\\') s

section HasEscape

variable {a s : List Char}

theorem hasEscape_cons_mark (b : Bool) : hasEscape b ('"' :: s) = (b || hasEscape false s) := by
  simp [hasEscape]

theorem hasEscape_cons {c : Char} (hc : c ≠ '"') (b : Bool) :
    hasEscape b (c :: s) = hasEscape (c == '\\') s := by
  simp [hasEscape, beq_false_of_ne hc]

theorem hasEscape_false {b : Bool} (h : hasEscape b s = false) : hasEscape false s = false := by
  cases s with
  | nil => rfl
  | cons c s => simp_all [hasEscape]

theorem hasEscape_tail {c : Char} {b : Bool} (h : hasEscape b (c :: s) = false) :
    hasEscape false s = false :=
  hasEscape_false (Bool.or_eq_false_iff.1 h).2

theorem hasEscape_of_not_mem (h : '"' ∉ a) (b : Bool) : hasEscape b a = false := by
  induction a generalizing b with
  | nil => rfl
  | cons c a ih =>
    obtain ⟨hc, ha⟩ := not_or.1 (mt List.mem_cons.2 h)
    rw [hasEscape_cons fun he => hc he.symm]
    exact ih ha _

theorem hasEscape_append (b : Bool) (a s : List Char) :
    hasEscape b (a ++ s) = (hasEscape b a || hasEscape (a.getLast?.elim b (· == '\\')) s) := by
  induction a generalizing b with
  | nil => rfl
  | cons c a ih =>
    rw [List.cons_append, hasEscape, hasEscape, ih, Bool.or_assoc]
    cases a with
    | nil => rfl
    | cons d a => rw [List.getLast?_cons_cons]; rfl

theorem hasEscape_quoted : hasEscape false (a ++ '"' :: s) = false ↔
    hasEscape false a = false ∧ a.getLast? ≠ some '\\' ∧ hasEscape false s = false := by
  rw [hasEscape_append, hasEscape_cons_mark]
  cases a.getLast? <;> simp

@[simp] theorem slashes_mark (st : Scan) : st.mark.slashes = 0 := by
  unfold Scan.mark
  split_ifs <;> rfl

theorem count_text_mark (st : Scan) :
    st.mark.text.count '\\' = st.text.count '\\' + st.slashes / 2 := by
  unfold Scan.mark
  split_ifs <;> simp [Scan.put]

theorem count_read (st : Scan) (c : Char) :
    (st.read c).text.count '\\' + (st.read c).slashes =
      st.text.count '\\' + st.slashes + [c].count '\\' := by
  by_cases hc : c = '\\'
  · simp [Scan.read, hc, Nat.add_assoc]
  · simp [Scan.read, Scan.put, hc]

theorem slashes_read (st : Scan) (c : Char) : decide (0 < (st.read c).slashes) = (c == '\\') := by
  by_cases hc : c = '\\' <;> simp [Scan.read, Scan.put, hc]

theorem count_finish_le (st : Scan) :
    st.finish.flatten.count '\\' ≤ st.text.count '\\' + st.slashes := by
  cases h : st.started <;> simp [Scan.finish, Scan.seen, h]

theorem count_arguments_le (st : Scan) (s : List Char) :
    (arguments st s).flatten.count '\\' + (hasEscape (0 < st.slashes) s).toNat ≤
      st.text.count '\\' + st.slashes + s.count '\\' := by
  fun_induction arguments st s with
  | case1 st => simpa [hasEscape] using count_finish_le st
  | case2 st s ih =>
    -- of the backslashes before the mark at most half are kept
    rw [slashes_mark, count_text_mark] at ih
    have hle := Bool.toNat_le (hasEscape false s)
    rw [hasEscape_cons_mark, List.count_cons_of_ne (by decide)]
    by_cases h0 : 0 < st.slashes
    · rw [decide_eq_true h0, Bool.true_or, Bool.toNat_true]
      omega
    · rw [decide_eq_false h0, Bool.false_or]
      simp at ih
      omega
  | case3 st c s hc hb ih =>
    have hfin := count_finish_le st
    have hc' : c ≠ '\\' := by
      rintro rfl
      simp [isBlank] at hb
    rw [hasEscape_cons hc, beq_false_of_ne hc', List.count_cons_of_ne hc', List.flatten_append,
      List.count_append]
    simp at ih
    omega
  | case4 st c s hc hb ih =>
    have hread := count_read st c
    rw [slashes_read] at ih
    rw [hasEscape_cons hc, ← List.singleton_append, List.count_append]
    omega

end HasEscape

namespace Scan

def flush (st : Scan) : Scan := { st with slashes := 0, text := st.seen }

def inside (t : List Char) : Scan := { started := true, quoted := true, text := t }

def outside (t : List Char) : Scan := { started := true, text := t }

def after (t : List Char) : Scan := { started := true, closed := true, text := t }

end Scan

open Scan

section Steps

variable {st : Scan} {c : Char} {s t : List Char}

theorem seen_read : (st.read c).seen = st.seen ++ [c] := by
  by_cases hc : c = '\\'
  · simp [Scan.read, Scan.seen, hc, List.replicate_succ']
  · simp [Scan.read, Scan.seen, Scan.put, hc]

theorem flush_read : (st.flush.read c).flush = (st.read c).flush := by
  by_cases hc : c = '\\'
  · simp [Scan.read, Scan.flush, Scan.seen, hc, List.replicate_succ']
  · simp [Scan.read, Scan.flush, Scan.seen, Scan.put, hc]

theorem flush_of_slashes (h : st.slashes = 0) : st.flush = st := by
  cases st
  simp_all [Scan.flush, Scan.seen]

theorem slashes_eq_zero (h : hasEscape (0 < st.slashes) ('"' :: s) = false) : st.slashes = 0 := by
  rw [hasEscape_cons_mark, Bool.or_eq_false_iff, decide_eq_false_iff_not] at h
  exact Nat.eq_zero_of_not_pos h.1

theorem arguments_flush (h : hasEscape (0 < st.slashes) s = false) :
    arguments st s = arguments st.flush s := by
  induction s generalizing st with
  | nil => simp [arguments, Scan.finish, Scan.flush, Scan.seen]
  | cons c s ih =>
    by_cases hc : c = '"'
    · subst hc
      rw [flush_of_slashes (slashes_eq_zero h)]
    · rw [hasEscape_cons hc] at h
      have hread : arguments (st.read c) s = arguments (st.flush.read c) s := by
        have hst := @ih (st.read c) (by rwa [slashes_read])
        have hflush := @ih (st.flush.read c) (by rwa [slashes_read])
        rw [hst, hflush, flush_read]
      have hfin : st.flush.finish = st.finish := by simp [Scan.finish, Scan.flush, Scan.seen]
      have hq : st.flush.quoted = st.quoted := rfl
      simp only [arguments, if_neg hc, hfin, hq, hread]

theorem arguments_inside_cons (hc : c ≠ '"') (h : hasEscape false (c :: s) = false) :
    arguments (inside t) (c :: s) = arguments (inside (t ++ [c])) s := by
  rw [hasEscape_cons hc] at h
  have hflush : ((inside t).read c).flush = inside (t ++ [c]) := by
    by_cases hs : c = '\\' <;> simp [Scan.read, Scan.flush, Scan.seen, Scan.put, inside, hs]
  rw [← hflush, ← arguments_flush (by rwa [slashes_read])]
  simp [arguments, hc, inside]

theorem arguments_after_cons (hc : c ≠ '"') (hb : isBlank c = false)
    (h : hasEscape false (c :: s) = false) :
    arguments (after t) (c :: s) = arguments (outside (t ++ [c])) s := by
  rw [hasEscape_cons hc] at h
  have hflush : ((after t).read c).flush = outside (t ++ [c]) := by
    by_cases hs : c = '\\' <;>
      simp [Scan.read, Scan.flush, Scan.seen, Scan.put, after, outside, hs]
  rw [← hflush, ← arguments_flush (by rwa [slashes_read])]
  simp [arguments, hc, hb]

@[simp] theorem arguments_nil_mark : arguments {} ('"' :: s) = arguments (inside []) s := rfl

@[simp] theorem arguments_nil_blank : arguments {} (' ' :: s) = arguments {} s := rfl

@[simp] theorem arguments_inside_mark :
    arguments (inside t) ('"' :: s) = arguments (after t) s := by
  simp [arguments, Scan.mark, Scan.put, inside, after]

@[simp] theorem arguments_after_mark :
    arguments (after t) ('"' :: s) = arguments (inside (t ++ ['"'])) s := by
  simp [arguments, Scan.mark, Scan.put, inside, after]

@[simp] theorem arguments_inside_nil : arguments (inside t) [] = [t] := by
  simp [arguments, Scan.finish, Scan.seen, inside]

@[simp] theorem arguments_after_nil : arguments (after t) [] = [t] := by
  simp [arguments, Scan.finish, Scan.seen, after]

theorem arguments_after_blank (hb : isBlank c = true) :
    arguments (after t) (c :: s) = t :: arguments {} s := by
  have hc : c ≠ '"' := by
    rintro rfl
    revert hb
    decide
  simp [arguments, Scan.finish, Scan.seen, after, hb, hc]

theorem arguments_inside_plain {a : List Char} (ha : '"' ∉ a)
    (h : hasEscape false (a ++ '"' :: s) = false) :
    arguments (inside t) (a ++ '"' :: s) = arguments (after (t ++ a)) s := by
  induction a generalizing t with
  | nil => simp
  | cons c a ih =>
    obtain ⟨hc, ha'⟩ := not_or.1 (mt List.mem_cons.2 ha)
    have hc' : c ≠ '"' := fun he => hc he.symm
    rw [List.cons_append] at h ⊢
    rw [arguments_inside_cons hc' h, ih ha' (hasEscape_tail h), List.append_assoc,
      List.singleton_append]

theorem arguments_eq_cons (hst : st.started = true) (h : hasEscape (0 < st.slashes) s = false) :
    ∃ x rest, arguments st s = (st.seen ++ x) :: rest := by
  induction s generalizing st with
  | nil => exact ⟨[], [], by simp [arguments, Scan.finish, hst]⟩
  | cons c s ih =>
    by_cases hc : c = '"'
    · subst hc
      have h0 := slashes_eq_zero h
      obtain ⟨x, rest, heq⟩ := @ih st.mark (by unfold Scan.mark; split_ifs <;> rfl)
        (by simpa using hasEscape_tail h)
      have hseen : ∃ y, st.mark.seen = st.seen ++ y := by
        unfold Scan.mark
        split_ifs <;> simp [Scan.put, Scan.seen, h0]
      obtain ⟨y, hy⟩ := hseen
      exact ⟨y ++ x, rest, by rw [arguments, if_pos rfl, heq, hy, List.append_assoc]⟩
    · rw [hasEscape_cons hc] at h
      rw [arguments, if_neg hc]
      split_ifs with hb
      · exact ⟨[], arguments {} s, by simp [Scan.finish, hst]⟩
      · obtain ⟨x, rest, heq⟩ := @ih (st.read c)
          (by unfold Scan.read; split_ifs <;> rfl) (by rwa [slashes_read])
        exact ⟨c :: x, rest, by rw [heq, seen_read, List.append_assoc, List.singleton_append]⟩

theorem head_arguments_ne {d : Char} {y : List Char} (hst : st.started = true)
    (h0 : st.slashes = 0) (h : hasEscape false s = false) (ht : st.text = t ++ [c]) (hd : c ≠ d) :
    (arguments st s).head? ≠ some (t ++ d :: y) := by
  obtain ⟨x, rest, heq⟩ := arguments_eq_cons (s := s) hst (by simpa [h0] using h)
  rw [heq, Scan.seen, h0, ht, List.head?_cons]
  simp [hd]

end Steps

def Ends (s : List Char) : Prop := s = [] ∨ ∃ s', s = ' ' :: s'

section Quoted

variable {s t : List Char}

theorem head_after_ne {d : Char} {y : List Char} (hd : d ≠ '"')
    (h : hasEscape false (d :: s) = false) :
    (arguments (after t) (d :: s)).head? ≠ some (t ++ '"' :: y) := by
  cases hb : isBlank d with
  | true => simp [arguments_after_blank hb]
  | false =>
    rw [arguments_after_cons hd hb h]
    exact head_arguments_ne rfl rfl (hasEscape_tail h) rfl hd

theorem head_inside_ne {c d : Char} {y : List Char} (hc : c ≠ '"') (hd : c ≠ d)
    (h : hasEscape false (c :: s) = false) :
    (arguments (inside t) (c :: s)).head? ≠ some (t ++ d :: y) := by
  rw [arguments_inside_cons hc h]
  exact head_arguments_ne rfl rfl (hasEscape_tail h) rfl hd

/-- Of the marks in a row inside the quotation one in two is lost: a reading that is behind by a
mark and `j` more does not catch up. -/
theorem head_ne_of_marks (hs : Ends s) : ∀ (a t : List Char) (j : ℕ),
    hasEscape false (a ++ '"' :: s) = false →
    (arguments (inside t) (a ++ '"' :: s)).head? ≠ some (t ++ '"' :: (List.replicate j '"' ++ a))
  | [], t, j, _ => by
    rcases hs with rfl | ⟨s', rfl⟩
    · simp
    · simp [arguments_after_blank (c := ' ') rfl]
  | [c], t, j, h => by
    by_cases hc : c = '"'
    · subst hc
      rcases hs with rfl | ⟨s', rfl⟩
      · simp
      · have hne := head_inside_ne (t := t ++ ['"']) (d := '"')
          (y := List.replicate j '"') (by decide) (by decide) (hasEscape_tail (hasEscape_tail h))
        simpa [← List.replicate_succ, List.replicate_succ'] using hne
    · exact head_inside_ne hc hc h
  | c :: d :: a, t, j, h => by
    by_cases hc : c = '"'
    · subst hc
      rw [List.cons_append, arguments_inside_mark, List.cons_append]
      by_cases hd : d = '"'
      · subst hd
        have hne := head_ne_of_marks hs a (t ++ ['"']) (j + 1) (hasEscape_tail (hasEscape_tail h))
        have hrow (l : List Char) :
            List.replicate j '"' ++ '"' :: l = List.replicate (j + 1) '"' ++ l := by
          rw [List.append_cons, List.replicate_succ']
        rw [arguments_after_mark, hrow, List.replicate_succ, List.cons_append, hrow]
        simpa using hne
      · exact head_after_ne hd (hasEscape_tail h)
    · exact head_inside_ne hc hc h

/-- An argument between marks is read as it stands only if no mark stands in it, but for one at the
very end of the line. -/
theorem marks_of_head (hs : Ends s) : ∀ (a t : List Char),
    hasEscape false (a ++ '"' :: s) = false →
    (arguments (inside t) (a ++ '"' :: s)).head? = some (t ++ a) →
    '"' ∉ a ∨ s = [] ∧ ∃ u, '"' ∉ u ∧ a = u ++ ['"']
  | [], _, _, _ => Or.inl List.not_mem_nil
  | [c], t, h, hhead => by
    by_cases hc : c = '"'
    · subst hc
      rcases hs with rfl | ⟨s', rfl⟩
      · exact Or.inr ⟨rfl, [], List.not_mem_nil, rfl⟩
      · -- the quotation goes on, and the blank is read with it
        have hblank : hasEscape false (' ' :: s') = false := hasEscape_tail (hasEscape_tail h)
        rw [List.singleton_append, arguments_inside_mark, arguments_after_mark,
          arguments_inside_cons (by decide) hblank] at hhead
        obtain ⟨x, rest, heq⟩ :=
          @arguments_eq_cons (inside (t ++ ['"'] ++ [' '])) s' rfl (hasEscape_tail hblank)
        rw [heq] at hhead
        simp [inside, Scan.seen] at hhead
    · exact Or.inl (by simpa using Ne.symm hc)
  | c :: d :: a, t, h, hhead => by
    by_cases hc : c = '"'
    · subst hc
      rw [List.cons_append, arguments_inside_mark, List.cons_append] at hhead
      by_cases hd : d = '"'
      · subst hd
        rw [arguments_after_mark] at hhead
        exact absurd (by simpa using hhead)
          (head_ne_of_marks hs a (t ++ ['"']) 0 (hasEscape_tail (hasEscape_tail h)))
      · exact absurd hhead (head_after_ne hd (hasEscape_tail h))
    · rw [List.cons_append] at h hhead
      rw [arguments_inside_cons hc h] at hhead
      have hor := marks_of_head hs (d :: a) (t ++ [c]) (hasEscape_tail h) (by simpa using hhead)
      rcases hor with ha | ⟨hend, u, hu, hdu⟩
      · exact Or.inl (List.not_mem_cons_of_ne_of_not_mem (Ne.symm hc) ha)
      · exact Or.inr ⟨hend, c :: u, List.not_mem_cons_of_ne_of_not_mem (Ne.symm hc) hu,
          by rw [hdu, List.cons_append]⟩

end Quoted

end Lib.CommandLine
