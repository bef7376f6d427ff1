import Mathlib.Algebra.BigOperators.Intervals
import Mathlib.Algebra.BigOperators.Ring.Finset
import Mathlib.Algebra.Order.Field.Basic
import Mathlib.Data.List.GetD
import Mathlib.Tactic.Linarith
import Mathlib.Tactic.Ring

/-!
Exponential averages of a series: the first value as it is, and each later one mixed with the
average so far. The average is a sum of all values with falling weights, and it stays between
the least and the largest of them.
-/

namespace Arcturus.MovingAverages

variable {K : Type*} [Field K]

/-- The weighted sum; the values are counted from one. -/
def expanded (alpha : K) (xs : List K) : K :=
  (1 - alpha) ^ (xs.length - 1) * xs.getD 0 0 +
    ∑ i ∈ Finset.Icc 2 xs.length, alpha * (1 - alpha) ^ (xs.length - i) * xs.getD (i - 1) 0

theorem expanded_singleton (alpha x : K) : expanded alpha [x] = x := by
  simp [expanded]

/-- One more value is mixed with the sum of the others. -/
theorem expanded_concat (alpha : K) {xs : List K} (hne : xs ≠ []) (x : K) :
    expanded alpha (xs ++ [x]) = alpha * x + (1 - alpha) * expanded alpha xs := by
  obtain ⟨n, hn⟩ : ∃ n, xs.length = n + 1 :=
    Nat.exists_eq_succ_of_ne_zero (List.length_eq_zero_iff.not.mpr hne)
  have hlast : (xs ++ [x]).getD (n + 1) 0 = x := by
    rw [← hn, List.getD_append_right _ _ _ _ le_rfl, Nat.sub_self]
    rfl
  have hfirst : ∀ i < n + 1, (xs ++ [x]).getD i 0 = xs.getD i 0 := by
    intro i hi
    exact List.getD_append _ _ _ _ (by omega)
  have hsum : ∑ i ∈ Finset.Icc 2 (n + 1),
        alpha * (1 - alpha) ^ (n + 2 - i) * (xs ++ [x]).getD (i - 1) 0 =
      (1 - alpha) * ∑ i ∈ Finset.Icc 2 (n + 1),
        alpha * (1 - alpha) ^ (n + 1 - i) * xs.getD (i - 1) 0 := by
    rw [Finset.mul_sum]
    refine Finset.sum_congr rfl ?_
    intro i hi
    rw [Finset.mem_Icc] at hi
    rw [hfirst (i - 1) (by omega), show n + 2 - i = n + 1 - i + 1 by omega, pow_succ]
    ring
  unfold expanded
  rw [List.length_append, List.length_singleton, hn, hfirst 0 (by omega),
    Finset.sum_Icc_succ_top (by omega), hsum, Nat.sub_self, pow_zero]
  simp only [Nat.add_sub_cancel]
  rw [hlast, pow_succ]
  ring

variable [LinearOrder K] [IsStrictOrderedRing K]

/-- A mixture lies between its parts. -/
theorem mixture_between {alpha x y lo hi : K} (h0 : 0 ≤ alpha) (h1 : alpha ≤ 1)
    (hx : lo ≤ x ∧ x ≤ hi) (hy : lo ≤ y ∧ y ≤ hi) :
    lo ≤ alpha * x + (1 - alpha) * y ∧ alpha * x + (1 - alpha) * y ≤ hi := by
  have hbeta : 0 ≤ 1 - alpha := sub_nonneg.mpr h1
  constructor
  · calc lo = alpha * lo + (1 - alpha) * lo := by ring
      _ ≤ alpha * x + (1 - alpha) * y :=
        add_le_add (mul_le_mul_of_nonneg_left hx.1 h0) (mul_le_mul_of_nonneg_left hy.1 hbeta)
  · calc alpha * x + (1 - alpha) * y ≤ alpha * hi + (1 - alpha) * hi :=
        add_le_add (mul_le_mul_of_nonneg_left hx.2 h0) (mul_le_mul_of_nonneg_left hy.2 hbeta)
      _ = hi := by ring

theorem expanded_between {alpha lo hi : K} (h0 : 0 ≤ alpha) (h1 : alpha ≤ 1) {xs : List K}
    (hne : xs ≠ []) (hall : ∀ x ∈ xs, lo ≤ x ∧ x ≤ hi) :
    lo ≤ expanded alpha xs ∧ expanded alpha xs ≤ hi := by
  induction xs using List.reverseRecOn with
  | nil => exact absurd rfl hne
  | append_singleton xs x ih =>
    have hx := hall x (List.mem_append_right xs (List.mem_singleton_self x))
    by_cases hxs : xs = []
    · subst hxs
      rw [List.nil_append, expanded_singleton]
      exact hx
    · rw [expanded_concat alpha hxs]
      have hold := ih hxs fun y hy => hall y (List.mem_append_left [x] hy)
      exact mixture_between h0 h1 hx hold

end Arcturus.MovingAverages
