import Mathlib.Algebra.BigOperators.Group.List.Basic
import Mathlib.Algebra.GroupWithZero.Nat
import Mathlib.Data.List.Nodup
import Mathlib.Data.List.Pairwise
import Mathlib.Order.Lattice

/-! # Ordered maps

Finite maps listed by increasing keys, with the operations of an ordered container:
insertion that keeps an entry already there, and the last entry before a key.
-/

namespace Lib

variable {κ β : Type*} [LinearOrder κ]

/-- A finite map as the list of its entries, by increasing keys. -/
@[ext] structure OrdMap (κ β : Type*) [LinearOrder κ] where
  entries : List (κ × β)
  sorted : entries.Pairwise fun a b => a.1 < b.1

namespace OrdMap

def empty : OrdMap κ β := ⟨[], .nil⟩

def find (m : OrdMap κ β) (k : κ) : Option β := (m.entries.find? fun e => e.1 = k).map Prod.snd

def erase (m : OrdMap κ β) (k : κ) : OrdMap κ β :=
  ⟨m.entries.filter fun e => e.1 ≠ k, m.sorted.filter _⟩

/-- The last entry with a smaller key: the predecessor of `lower_bound`. -/
def before (m : OrdMap κ β) (k : κ) : Option (κ × β) :=
  (m.entries.filter fun e => e.1 < k).getLast?

theorem sorted_insert (m : OrdMap κ β) (k : κ) (v : β) :
    ((m.entries.filter fun e => e.1 < k) ++ (k, v) :: m.entries.filter fun e => k < e.1).Pairwise
      fun a b => a.1 < b.1 := by
  rw [List.pairwise_append, List.pairwise_cons]
  refine ⟨m.sorted.filter _, ⟨?_, m.sorted.filter _⟩, ?_⟩
  · intro b hb
    simpa using (List.mem_filter.mp hb).2
  · intro a ha b hb
    have ha' : a.1 < k := by simpa using (List.mem_filter.mp ha).2
    rcases List.mem_cons.mp hb with rfl | hb
    · exact ha'
    · exact ha'.trans (by simpa using (List.mem_filter.mp hb).2)

def modify (m : OrdMap κ β) (k : κ) (f : β → β) : OrdMap κ β :=
  ⟨m.entries.map fun e => (e.1, if e.1 = k then f e.2 else e.2), List.pairwise_map.mpr m.sorted⟩

def emplace (m : OrdMap κ β) (k : κ) (v : β) : OrdMap κ β :=
  if (m.find k).isSome then m else ⟨_, m.sorted_insert k v⟩

variable {m : OrdMap κ β} {k : κ} {v : β} {e : κ × β}

theorem keys_nodup : (m.entries.map Prod.fst).Nodup :=
  List.pairwise_map.mpr (m.sorted.imp fun h => h.ne)

theorem mem_unique {v' : β} (h : (k, v) ∈ m.entries) (h' : (k, v') ∈ m.entries) : v = v' :=
  (Prod.mk.inj (List.inj_on_of_nodup_map m.keys_nodup h h' rfl)).2

theorem eq_of_mem_iff {m' : OrdMap κ β} (h : ∀ e, e ∈ m.entries ↔ e ∈ m'.entries) : m = m' := by
  have hperm : m.entries.Perm m'.entries :=
    (List.perm_ext_iff_of_nodup m.keys_nodup.of_map m'.keys_nodup.of_map).mpr h
  exact OrdMap.ext (hperm.eq_of_pairwise (fun a b _ _ hab hba => absurd hba hab.not_gt)
    m.sorted m'.sorted)

theorem find_eq_some_iff : m.find k = some v ↔ (k, v) ∈ m.entries := by
  constructor
  · intro h
    obtain ⟨⟨k', v'⟩, hf, rfl⟩ := Option.map_eq_some_iff.mp h
    obtain rfl : k' = k := by simpa using List.find?_some hf
    exact List.mem_of_find?_eq_some hf
  · intro h
    have hs : (m.entries.find? fun e => e.1 = k).isSome := by
      rw [List.find?_isSome]
      exact ⟨(k, v), h, by simp⟩
    obtain ⟨⟨k', v'⟩, hf⟩ := Option.isSome_iff_exists.mp hs
    obtain rfl : k' = k := by simpa using List.find?_some hf
    rw [find, hf, Option.map_some, mem_unique h (List.mem_of_find?_eq_some hf)]

theorem find_eq_none_iff : m.find k = none ↔ ∀ v, (k, v) ∉ m.entries := by
  rw [Option.eq_none_iff_forall_ne_some]
  simp only [ne_eq, find_eq_some_iff]

@[simp] theorem mem_erase : e ∈ (m.erase k).entries ↔ e ∈ m.entries ∧ e.1 ≠ k := by
  simp [erase]

theorem find_erase_self : (m.erase k).find k = none :=
  find_eq_none_iff.mpr fun _ hv => (mem_erase.mp hv).2 rfl

theorem mem_modify {f : β → β} {k' : κ} {v : β} : (k', v) ∈ (m.modify k f).entries ↔
    ∃ v', (k', v') ∈ m.entries ∧ (if k' = k then f v' else v') = v := by
  constructor
  · intro h
    obtain ⟨⟨k'', v'⟩, hmem, heq⟩ := List.mem_map.mp h
    cases heq
    exact ⟨v', hmem, rfl⟩
  · rintro ⟨v', hmem, rfl⟩
    exact List.mem_map.mpr ⟨(k', v'), hmem, rfl⟩

theorem entries_emplace (h : m.find k = none) : (m.emplace k v).entries =
    (m.entries.filter fun e => e.1 < k) ++ (k, v) :: m.entries.filter fun e => k < e.1 := by
  simp [emplace, h]

theorem filter_lt_perm (h : m.find k = none) :
    ((m.entries.filter fun e => e.1 < k) ++ m.entries.filter fun e => k < e.1).Perm m.entries := by
  have hf : (m.entries.filter fun e => k < e.1) =
      m.entries.filter fun e => !decide (e.1 < k) := by
    apply List.filter_congr
    rintro ⟨k', v'⟩ he
    have hne : k' ≠ k := fun hk => find_eq_none_iff.mp h v' (hk ▸ he)
    rcases lt_or_gt_of_ne hne with hlt | hlt
    · simp [hlt, hlt.not_gt]
    · simp [hlt, hlt.not_gt]
  rw [hf]
  exact List.filter_append_perm _ _

theorem emplace_perm (h : m.find k = none) (v : β) :
    (m.emplace k v).entries.Perm ((k, v) :: m.entries) := by
  rw [entries_emplace h]
  exact List.perm_middle.trans ((filter_lt_perm h).cons _)

theorem mem_emplace (h : m.find k = none) :
    e ∈ (m.emplace k v).entries ↔ e = (k, v) ∨ e ∈ m.entries := by
  rw [(emplace_perm h v).mem_iff, List.mem_cons]

theorem mem_of_before (h : m.before k = some e) : e ∈ m.entries ∧ e.1 < k := by
  have := List.mem_of_getLast? h
  simpa using this

theorem le_of_before {e' : κ × β} (h : m.before k = some e) (he : e' ∈ m.entries)
    (hlt : e'.1 < k) : e'.1 ≤ e.1 := by
  obtain ⟨l, hl⟩ := List.getLast?_eq_some_iff.mp h
  have hm : e' ∈ l ++ [e] := hl ▸ List.mem_filter.mpr ⟨he, by simpa using hlt⟩
  have hs : (l ++ [e]).Pairwise fun a b => a.1 < b.1 := hl ▸ m.sorted.filter _
  rcases List.mem_append.mp hm with hm | hm
  · exact ((List.pairwise_append.mp hs).2.2 e' hm e (by simp)).le
  · rw [List.mem_singleton.mp hm]

theorem before_eq_none (h : m.before k = none) (he : e ∈ m.entries) : k ≤ e.1 := by
  by_contra hlt
  have : e ∈ m.entries.filter fun e => e.1 < k :=
    List.mem_filter.mpr ⟨he, by simpa using lt_of_not_ge hlt⟩
  rw [List.getLast?_eq_none_iff.mp h] at this
  exact List.not_mem_nil this

theorem perm_erase (h : (k, v) ∈ m.entries) : m.entries.Perm ((k, v) :: (m.erase k).entries) := by
  have hnodup : ((k, v) :: (m.erase k).entries).Nodup := by
    apply List.nodup_cons.mpr
    exact ⟨fun hmem => (mem_erase.mp hmem).2 rfl, (m.erase k).keys_nodup.of_map⟩
  apply (List.perm_ext_iff_of_nodup m.keys_nodup.of_map hnodup).mpr
  rintro ⟨k', v'⟩
  rw [List.mem_cons, mem_erase]
  constructor
  · intro hmem
    by_cases hk : k' = k
    · subst hk
      exact Or.inl (by rw [mem_unique hmem h])
    · exact Or.inr ⟨hmem, hk⟩
  · rintro (heq | ⟨hmem, -⟩)
    · exact heq ▸ h
    · exact hmem

theorem modify_perm {f : β → β} (h : (k, v) ∈ m.entries) :
    (m.modify k f).entries.Perm ((k, f v) :: (m.erase k).entries) := by
  have hothers : (m.erase k).entries.map (fun e => (e.1, if e.1 = k then f e.2 else e.2)) =
      (m.erase k).entries := by
    apply (List.map_congr_left fun e he => ?_).trans (List.map_id _)
    rw [if_neg (mem_erase.mp he).2]
    rfl
  have hperm := (perm_erase h).map fun e => (e.1, if e.1 = k then f e.2 else e.2)
  rwa [List.map_cons, if_pos rfl, hothers] at hperm

section Weight

def weight (w : β → ℕ) (m : OrdMap κ β) : ℕ := (m.entries.map fun e => w e.2).sum

variable {w : β → ℕ}

theorem weight_emplace (h : m.find k = none) : (m.emplace k v).weight w = w v + m.weight w := by
  rw [weight, ((emplace_perm h v).map _).sum_eq]
  rfl

theorem weight_erase (h : (k, v) ∈ m.entries) : (m.erase k).weight w + w v = m.weight w := by
  have hsum : m.weight w = w v + (m.erase k).weight w := ((perm_erase h).map _).sum_eq
  rw [hsum, Nat.add_comm]

theorem weight_modify {f : β → β} (h : (k, v) ∈ m.entries) :
    (m.modify k f).weight w + w v = m.weight w + w (f v) := by
  have hsum : (m.modify k f).weight w = w (f v) + (m.erase k).weight w :=
    ((modify_perm h).map _).sum_eq
  have herase := weight_erase (w := w) h
  omega

theorem le_weight (h : (k, v) ∈ m.entries) : w v ≤ m.weight w :=
  (weight_erase h) ▸ Nat.le_add_left ..

theorem weight_le_of_apart {m : OrdMap ℕ β} {bound : ℕ}
    (hapart : ∀ e e', e ∈ m.entries → e' ∈ m.entries → e.1 < e'.1 → e.1 + w e.2 ≤ e'.1)
    (hbound : ∀ e ∈ m.entries, e.1 + w e.2 ≤ bound) : m.weight w ≤ bound := by
  have hsum (l : List (ℕ × β)) : ∀ low ≤ bound, (∀ e ∈ l, low ≤ e.1) →
      (l.Pairwise fun e e' => e.1 + w e.2 ≤ e'.1) → (∀ e ∈ l, e.1 + w e.2 ≤ bound) →
      low + (l.map fun e => w e.2).sum ≤ bound := by
    induction l with
    | nil => exact fun low hlow _ _ _ => hlow
    | cons e l ih =>
      intro low _ hstart hsorted hend
      obtain ⟨hnext, hsorted⟩ := List.pairwise_cons.mp hsorted
      have hfirst := hstart e List.mem_cons_self
      have hrest := ih (e.1 + w e.2) (hend e List.mem_cons_self) hnext hsorted
        fun e' he' => hend e' (List.mem_cons_of_mem _ he')
      rw [List.map_cons, List.sum_cons]
      omega
  have hsorted : m.entries.Pairwise fun e e' => e.1 + w e.2 ≤ e'.1 :=
    m.sorted.imp_of_mem fun he he' hlt => hapart _ _ he he' hlt
  have hle := hsum m.entries 0 (Nat.zero_le _) (fun _ _ => Nat.zero_le _) hsorted hbound
  rwa [Nat.zero_add] at hle

end Weight

section Total

variable {m : OrdMap κ ℕ} {v : ℕ}

def total (m : OrdMap κ ℕ) : ℕ := (m.entries.map Prod.snd).sum

theorem total_emplace (h : m.find k = none) : (m.emplace k v).total = v + m.total :=
  weight_emplace (w := id) h

theorem total_erase (h : (k, v) ∈ m.entries) : (m.erase k).total + v = m.total :=
  weight_erase (w := id) h

end Total

end OrdMap

end Lib
