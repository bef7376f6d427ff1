import Arcturus.ExchangeSort
import Mathlib.Data.List.Sort

/-!
Order statistics: what stands at an index of a list once it is sorted. It depends neither on
the way of sorting nor on the order of the list.
-/

namespace Arcturus.OrderStatistics

open ExchangeSort

variable {α : Type*} [LinearOrder α] {l l' : List α} {i j : ℕ} {x y : α}

def OrderStatistic (l : List α) (i : ℕ) (x : α) : Prop :=
  ∃ sorted : List α, sorted.Perm l ∧ sorted.Pairwise (· ≤ ·) ∧ sorted[i]? = some x

theorem pairwise_sort (l : List α) : (sort id l).Pairwise (· ≤ ·) := sort_sorted id l

theorem sort_eq_of_perm (h : l.Perm l') : sort id l = sort id l' := by
  have hperm : (sort id l).Perm (sort id l') :=
    ((sort_perm id l).trans h).trans (sort_perm id l').symm
  exact hperm.eq_of_pairwise' (pairwise_sort l) (pairwise_sort l')

/-- All ways of sorting agree. -/
theorem orderStatistic_iff : OrderStatistic l i x ↔ (sort id l)[i]? = some x := by
  constructor
  · rintro ⟨sorted, hperm, hsorted, hx⟩
    have heq : sorted = sort id l :=
      (hperm.trans (sort_perm id l).symm).eq_of_pairwise' hsorted (pairwise_sort l)
    rwa [heq] at hx
  · intro hx
    exact ⟨sort id l, sort_perm id l, pairwise_sort l, hx⟩

theorem exists_orderStatistic (hi : i < l.length) : ∃ x, OrderStatistic l i x := by
  have hi' : i < (sort id l).length := by
    rw [(sort_perm id l).length_eq]
    exact hi
  exact ⟨_, orderStatistic_iff.mpr (List.getElem?_eq_getElem hi')⟩

theorem OrderStatistic.mem (h : OrderStatistic l i x) : x ∈ l := by
  obtain ⟨sorted, hperm, -, hx⟩ := h
  exact hperm.mem_iff.mp (List.mem_of_getElem? hx)

theorem OrderStatistic.mono (hx : OrderStatistic l i x) (hy : OrderStatistic l j y)
    (hij : i ≤ j) : x ≤ y := by
  rw [orderStatistic_iff, List.getElem?_eq_some_iff] at hx hy
  obtain ⟨hi, rfl⟩ := hx
  obtain ⟨hj, rfl⟩ := hy
  exact (pairwise_sort l).sortedLE.getElem_le_getElem_of_le hij

theorem OrderStatistic.unique (hx : OrderStatistic l i x) (hy : OrderStatistic l i y) : x = y :=
  le_antisymm (hx.mono hy le_rfl) (hy.mono hx le_rfl)

theorem OrderStatistic.lt_length (h : OrderStatistic l i x) : i < l.length := by
  obtain ⟨sorted, hperm, -, hx⟩ := h
  rw [← hperm.length_eq]
  exact (List.getElem?_eq_some_iff.mp hx).1

theorem exists_orderStatistic_of_mem (hx : x ∈ l) : ∃ i < l.length, OrderStatistic l i x := by
  obtain ⟨i, hi, heq⟩ := List.getElem_of_mem ((sort_perm id l).mem_iff.mpr hx)
  refine ⟨i, (sort_perm id l).length_eq ▸ hi, ?_⟩
  rw [orderStatistic_iff, List.getElem?_eq_getElem hi, heq]

/-- The first and the last order statistic bound the list. -/
theorem OrderStatistic.bounds {lo hi : α} (hlo : OrderStatistic l 0 lo)
    (hhi : OrderStatistic l (l.length - 1) hi) : ∀ x ∈ l, lo ≤ x ∧ x ≤ hi := by
  intro x hx
  obtain ⟨i, hi, hstat⟩ := exists_orderStatistic_of_mem hx
  exact ⟨hlo.mono hstat (Nat.zero_le i), hstat.mono hhi (by omega)⟩

theorem exists_bounds (hne : l ≠ []) : ∃ lo ∈ l, ∃ hi ∈ l, ∀ x ∈ l, lo ≤ x ∧ x ≤ hi := by
  have hpos := List.length_pos_of_ne_nil hne
  obtain ⟨lo, hlo⟩ := exists_orderStatistic hpos
  obtain ⟨hi, hhi⟩ := exists_orderStatistic (show l.length - 1 < l.length by omega)
  exact ⟨lo, hlo.mem, hi, hhi.mem, hlo.bounds hhi⟩

/-- An order statistic is not smaller than the entries up to its index. -/
theorem OrderStatistic.lt_countP (h : OrderStatistic l i x) : i < l.countP (· ≤ x) := by
  obtain ⟨sorted, hperm, hsorted, hx⟩ := h
  obtain ⟨hi, rfl⟩ := List.getElem?_eq_some_iff.mp hx
  have hall : ∀ y ∈ sorted.take (i + 1), decide (y ≤ sorted[i]) = true := by
    intro y hy
    obtain ⟨j, hj, rfl⟩ := List.mem_take_iff_getElem.mp hy
    rw [decide_eq_true_eq]
    exact hsorted.sortedLE.getElem_le_getElem_of_le (by omega)
  have hcount := List.countP_eq_length.mpr hall
  rw [List.length_take, Nat.min_eq_left hi] at hcount
  rw [← hperm.countP_eq]
  have hle := (List.take_sublist (i + 1) sorted).countP_le (p := fun y => y ≤ sorted[i])
  omega

end Arcturus.OrderStatistics
