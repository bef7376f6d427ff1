import Arcturus.OrderStatistics
import Mathlib.Algebra.Order.Field.Basic
import Mathlib.Data.Nat.Cast.Order.Ring
import Mathlib.Tactic.Linarith

/-!
Percentiles of a list by linear interpolation: the value at a fractional index lies on the
segment between the order statistics next to it.
-/

namespace Arcturus.Percentiles

open OrderStatistics

theorem le_of_neighbours {α : Type*} [LinearOrder α] {l : List α} {i : ℕ} {a b : α}
    (ha : OrderStatistic l i a) (hb : OrderStatistic l (min (i + 1) (l.length - 1)) b) : a ≤ b := by
  have hlt := ha.lt_length
  exact ha.mono hb (by omega)

variable {K : Type*} [Field K] [LinearOrder K] {l : List K} {x y v w : K}

/-- `v` is the value of the sorted list at index `x`. Behind the last entry the list is
continued with it. -/
def Interpolates (l : List K) (x v : K) : Prop :=
  ∃ (i : ℕ) (a b : K), OrderStatistic l i a ∧ OrderStatistic l (min (i + 1) (l.length - 1)) b ∧
    (i : K) ≤ x ∧ x < i + 1 ∧ v = a + (x - i) * (b - a)

variable [IsStrictOrderedRing K]

theorem segment_between {a b t : K} (hab : a ≤ b) (ht : 0 ≤ t) (ht' : t ≤ 1) :
    a ≤ a + t * (b - a) ∧ a + t * (b - a) ≤ b := by
  have hnonneg : 0 ≤ t * (b - a) := mul_nonneg ht (sub_nonneg.mpr hab)
  have hle : t * (b - a) ≤ b - a := mul_le_of_le_one_left (sub_nonneg.mpr hab) ht'
  constructor <;> linarith

/-- The value lies between the order statistics that it is interpolated from. -/
theorem Interpolates.neighbours (h : Interpolates l x v) :
    ∃ (i : ℕ) (a b : K), OrderStatistic l i a ∧ OrderStatistic l (min (i + 1) (l.length - 1)) b ∧
      a ≤ v ∧ v ≤ b := by
  obtain ⟨i, a, b, ha, hb, hlow, hhigh, rfl⟩ := h
  have hab := le_of_neighbours ha hb
  have hbetween := segment_between hab (t := x - i) (by linarith) (by linarith)
  exact ⟨i, a, b, ha, hb, hbetween⟩

theorem Interpolates.between (h : Interpolates l x v) :
    ∃ lo ∈ l, ∃ hi ∈ l, (∀ y ∈ l, lo ≤ y ∧ y ≤ hi) ∧ lo ≤ v ∧ v ≤ hi := by
  obtain ⟨i, a, b, ha, hb, hav, hvb⟩ := h.neighbours
  obtain ⟨lo, hlo, hi, hhi, hall⟩ := exists_bounds (List.ne_nil_of_mem ha.mem)
  exact ⟨lo, hlo, hi, hhi, hall, le_trans (hall a ha.mem).1 hav, le_trans hvb (hall b hb.mem).2⟩

/-- A larger index has no smaller value: the indices lie in the same segment or in segments
one after the other. -/
theorem Interpolates.mono (hv : Interpolates l x v) (hw : Interpolates l y w) (hxy : x ≤ y) :
    v ≤ w := by
  obtain ⟨i, a, b, ha, hb, hix, hxi, rfl⟩ := hv
  obtain ⟨j, a', b', ha', hb', hjy, hyj, rfl⟩ := hw
  have hij : i < j + 1 := by
    have hcast : (i : K) < (j + 1 : ℕ) := by
      push_cast
      linarith
    exact_mod_cast hcast
  have hab := le_of_neighbours ha hb
  have hab' := le_of_neighbours ha' hb'
  rcases Nat.lt_or_ge i j with hlt | hge
  · calc a + (x - i) * (b - a) ≤ b := (segment_between hab (by linarith) (by linarith)).2
      _ ≤ a' := hb.mono ha' (by omega)
      _ ≤ a' + (y - j) * (b' - a') := (segment_between hab' (by linarith) (by linarith)).1
  · obtain rfl : i = j := by omega
    obtain rfl := ha.unique ha'
    obtain rfl := hb.unique hb'
    have hle := mul_le_mul_of_nonneg_right (sub_le_sub_right hxy (i : K)) (sub_nonneg.mpr hab)
    linarith

end Arcturus.Percentiles
