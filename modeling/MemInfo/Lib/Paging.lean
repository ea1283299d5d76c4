import Mathlib.Data.List.GetD
import Mathlib.Data.List.Nodup
import MemInfo.Lib.Window

/-! # Paged address translation

A logical array lies on scattered pages of a flat memory. Distinct pages give
distinct physical addresses, so two page lists without a common page never meet.
-/

namespace Lib

variable {α : Type*}

/-- The physical address of logical position `i` on the given pages. -/
def pageAddr (ps : ℕ) (pages : List ℕ) (i : ℕ) : ℕ := pages.getD (i / ps) 0 * ps + i % ps

/-- The first `n` cells of the logical array that lies on `pages`. -/
def gather (m : ℕ → α) (ps : ℕ) (pages : List ℕ) (n : ℕ) : List α :=
  (List.range n).map fun i => m (pageAddr ps pages i)

variable {ps : ℕ} {pages pages' : List ℕ} {i j n : ℕ} {m m' : ℕ → α}

theorem pageAddr_add (hj : i % ps + j < ps) :
    pageAddr ps pages (i + j) = pageAddr ps pages i + j := by
  have hd : (i + j) / ps = i / ps := by
    conv_lhs => rw [← Nat.div_add_mod i ps, Nat.add_assoc]
    rw [Nat.mul_add_div (by omega), Nat.div_eq_of_lt hj, Nat.add_zero]
  have hm : (i + j) % ps = i % ps + j := by
    conv_lhs => rw [← Nat.div_add_mod i ps, Nat.add_assoc]
    rw [Nat.mul_add_mod, Nat.mod_eq_of_lt hj]
  simp only [pageAddr, hd, hm, Nat.add_assoc]

theorem page_index_lt (hps : 0 < ps) (hi : i < pages.length * ps) : i / ps < pages.length :=
  (Nat.div_lt_iff_lt_mul hps).mpr hi

theorem pageAddr_div (hps : 0 < ps) : pageAddr ps pages i / ps = pages.getD (i / ps) 0 := by
  rw [pageAddr, Nat.mul_comm, Nat.mul_add_div hps, Nat.div_eq_of_lt (Nat.mod_lt i hps),
    Nat.add_zero]

theorem pageAddr_mod : pageAddr ps pages i % ps = i % ps := by
  rw [pageAddr, Nat.mul_comm, Nat.mul_add_mod, Nat.mod_mod]

theorem pageAddr_page_mem (hps : 0 < ps) (hi : i < pages.length * ps) :
    pageAddr ps pages i / ps ∈ pages := by
  have h := page_index_lt hps hi
  rw [pageAddr_div hps, List.getD_eq_getElem _ _ h]
  exact List.getElem_mem h

theorem pageAddr_injective (hps : 0 < ps) (hnd : pages.Nodup) (hi : i < pages.length * ps)
    (hj : j < pages.length * ps) (h : pageAddr ps pages i = pageAddr ps pages j) : i = j := by
  have hdi := page_index_lt hps hi
  have hdj := page_index_lt hps hj
  have hd : i / ps = j / ps := by
    have he := congrArg (· / ps) h
    simp only [pageAddr_div hps, List.getD_eq_getElem _ _ hdi, List.getD_eq_getElem _ _ hdj] at he
    exact (List.Nodup.getElem_inj_iff hnd).mp he
  have hm : i % ps = j % ps := by
    have he := congrArg (· % ps) h
    simpa only [pageAddr_mod] using he
  rw [← Nat.div_add_mod i ps, ← Nat.div_add_mod j ps, hd, hm]

theorem pageAddr_ne_of_disjoint (hps : 0 < ps) (hd : pages.Disjoint pages')
    (hi : i < pages.length * ps) (hj : j < pages'.length * ps) :
    pageAddr ps pages i ≠ pageAddr ps pages' j := by
  intro h
  exact hd (pageAddr_page_mem hps hi) (h ▸ pageAddr_page_mem hps hj)

@[simp] theorem length_gather : (gather m ps pages n).length = n := by simp [gather]

theorem getElem?_gather :
    (gather m ps pages n)[i]? = if i < n then some (m (pageAddr ps pages i)) else none := by
  unfold gather
  split_ifs with h
  · simp [h]
  · exact List.getElem?_eq_none (by simpa using h)

/-- `m'` is `m` with `data` written to the logical positions from `off` on. -/
structure Scattered (ps : ℕ) (pages : List ℕ) (off : ℕ) (data : List α) (m m' : ℕ → α) : Prop where
  inside : ∀ j (hj : j < data.length), m' (pageAddr ps pages (off + j)) = data[j]
  outside : ∀ a, (∀ j < data.length, a ≠ pageAddr ps pages (off + j)) → m' a = m a

theorem gather_congr (h : ∀ i < n, m (pageAddr ps pages i) = m' (pageAddr ps pages i)) :
    gather m ps pages n = gather m' ps pages n :=
  List.map_congr_left fun i hi => h i (List.mem_range.mp hi)

theorem Scattered.nil (off : ℕ) : Scattered ps pages off [] m m :=
  ⟨fun j hj => absurd hj (Nat.not_lt_zero j), fun _ _ => rfl⟩

theorem Scattered.of_blit {off : ℕ} {data : List α} (h : off % ps + data.length ≤ ps) :
    Scattered ps pages off data m (blit m (pageAddr ps pages off) data) := by
  constructor
  · intro j hj
    rw [pageAddr_add (by omega), blit_inside hj]
  · intro a ha
    apply blit_outside
    by_contra hc
    rw [not_or, Nat.not_lt, Nat.not_le] at hc
    obtain ⟨j, rfl⟩ := Nat.exists_eq_add_of_le hc.1
    exact ha j (by omega) (pageAddr_add (by omega)).symm

theorem Scattered.append {off : ℕ} {xs ys : List α} {m₁ m₂ : ℕ → α} (hps : 0 < ps)
    (hnd : pages.Nodup) (hle : off + (xs.length + ys.length) ≤ pages.length * ps)
    (h₁ : Scattered ps pages off xs m m₁)
    (h₂ : Scattered ps pages (off + xs.length) ys m₁ m₂) :
    Scattered ps pages off (xs ++ ys) m m₂ := by
  constructor
  · intro j hj
    rw [List.length_append] at hj
    rcases Nat.lt_or_ge j xs.length with hlt | hge
    · have hne : ∀ k < ys.length,
          pageAddr ps pages (off + j) ≠ pageAddr ps pages (off + xs.length + k) := by
        intro k hk he
        have := pageAddr_injective hps hnd (by omega) (by omega) he
        omega
      rw [h₂.outside _ hne, h₁.inside j hlt, List.getElem_append_left hlt]
    · obtain ⟨k, rfl⟩ := Nat.exists_eq_add_of_le hge
      rw [← Nat.add_assoc, h₂.inside k (by omega), List.getElem_append_right (by omega)]
      simp
  · intro a ha
    simp only [List.length_append] at ha
    rw [h₂.outside a fun k hk => Nat.add_assoc .. ▸ ha (xs.length + k) (by omega),
      h₁.outside a fun k hk => ha k (by omega)]

/-- Writing through the pages splices the logical array. -/
theorem Scattered.gather_splice {off : ℕ} {data : List α} (hps : 0 < ps) (hnd : pages.Nodup)
    (hn : n ≤ pages.length * ps) (hle : off + data.length ≤ n)
    (h : Scattered ps pages off data m m') :
    gather m' ps pages n = splice (gather m ps pages n) off data := by
  apply List.ext_getElem?
  intro i
  rw [getElem?_splice (by simpa using hle), getElem?_gather, getElem?_gather]
  split_ifs with h₁ h₂ h₂
  · obtain ⟨j, rfl⟩ := Nat.exists_eq_add_of_le h₂.1
    rw [h.inside j (by omega), Nat.add_sub_cancel_left, List.getElem?_eq_getElem (by omega)]
  · congr 1
    refine h.outside _ fun j hj he => ?_
    have := pageAddr_injective hps hnd (by omega) (by omega) he
    omega
  · omega
  · rfl

theorem Scattered.gather_disjoint {off k : ℕ} {data : List α} (hps : 0 < ps)
    (hd : pages.Disjoint pages') (hle : off + data.length ≤ pages.length * ps)
    (hk : k ≤ pages'.length * ps) (h : Scattered ps pages off data m m') :
    gather m' ps pages' k = gather m ps pages' k := by
  refine gather_congr fun i hi => h.outside _ fun j hj => ?_
  exact (pageAddr_ne_of_disjoint hps hd (by omega) (by omega)).symm

theorem window_eq_slice {i k : ℕ} (hp : i % ps + k ≤ ps) (hn : i + k ≤ n) :
    window m (pageAddr ps pages i) k = slice (gather m ps pages n) i k := by
  apply List.ext_getElem?
  intro j
  rw [getElem?_slice, getElem?_gather]
  split_ifs with h₁ h₂
  · rw [List.getElem?_eq_getElem (by simpa using h₁), getElem_window, pageAddr_add (by omega)]
  · omega
  · exact List.getElem?_eq_none (by simpa using h₁)

end Lib
