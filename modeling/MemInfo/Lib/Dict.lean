import Mathlib.Data.List.AList
import Mathlib.Data.List.Perm.Basic

/-! # Finite maps and their iteration

A hash table visits its keys in an order the program does not control. An
iteration order is a function that permutes every list of keys.
-/

namespace Lib

structure IterOrder (α : Type*) where
  order : List α → List α
  perm : ∀ l, (order l).Perm l

def IterOrder.id (α : Type*) : IterOrder α := ⟨fun l => l, fun l => List.Perm.refl l⟩

theorem IterOrder.mem_iff {α : Type*} (ord : IterOrder α) {l : List α} {a : α} :
    a ∈ ord.order l ↔ a ∈ l := (ord.perm l).mem_iff

variable {α β : Type*} [DecidableEq α]

abbrev Dict (α β : Type*) := AList fun _ : α => β

namespace Dict

variable {d : Dict α β} {k k' : α} {v v' : β}

theorem lookup_insert_iff :
    (AList.insert k' v' d).lookup k = if k = k' then some v' else d.lookup k := by
  split_ifs with h
  · subst h; exact AList.lookup_insert _
  · exact AList.lookup_insert_ne h

theorem lookup_erase_iff : (d.erase k').lookup k = if k = k' then none else d.lookup k := by
  split_ifs with h
  · subst h; exact AList.lookup_erase _ _
  · exact AList.lookup_erase_ne h

theorem mem_entries_iff : (⟨k, v⟩ : Sigma fun _ : α => β) ∈ d.entries ↔ d.lookup k = some v :=
  (AList.mem_lookup_iff (s := d) (a := k) (b := v)).symm

theorem entries_perm_erase (h : d.lookup k = some v) :
    d.entries.Perm (⟨k, v⟩ :: (d.erase k).entries) := by
  have hk : k ∈ d.entries.keys := AList.mem_keys.mp (AList.lookup_isSome.mp (by simp [h]))
  obtain ⟨b, l₁, l₂, -, he, hr⟩ := List.exists_of_kerase hk
  have hb : b = v := by
    have hm : (⟨k, b⟩ : Sigma fun _ : α => β) ∈ d.entries := by simp [he]
    rw [mem_entries_iff, h] at hm
    exact (Option.some.inj hm).symm
  subst hb
  change d.entries.Perm (⟨k, b⟩ :: d.entries.kerase k)
  rw [hr, he]
  exact List.perm_middle

end Dict

end Lib
