import Mathlib.Data.Rat.Floor
import Mathlib.Tactic.Linarith
import Mathlib.Tactic.NormNum
import Mathlib.Tactic.Positivity
import Mathlib.Tactic.Ring

/-!
Numbers with a significand of fifty-three bits, and what is nearest to a rational number among
them. The exponent has no bound here. Integers up to the size of the significand are such
numbers, and next to them there is room in proportion to their size.
-/

namespace Arcturus.Doubles

def significand : ℤ := 9007199254740992

def IsDouble (q : ℚ) : Prop :=
  ∃ (m : ℤ) (k : ℕ), |m| < significand ∧ (q = m * 2 ^ k ∨ q * 2 ^ k = m)

/-- A result of rounding to nearest, whichever way a tie goes. -/
def Nearest (x y : ℚ) : Prop := IsDouble y ∧ ∀ z, IsDouble z → |y - x| ≤ |z - x|

variable {x y : ℚ}

theorem isDouble_intCast {m : ℤ} (h : |m| < significand) : IsDouble m :=
  ⟨m, 0, h, Or.inl (by simp)⟩

/-- What can be represented is not changed by rounding. -/
theorem Nearest.eq_of_isDouble (h : Nearest x y) (hx : IsDouble x) : y = x := by
  have hle := h.2 x hx
  rw [sub_self, abs_zero] at hle
  exact sub_eq_zero.mp (abs_nonpos_iff.mp hle)

/-- Rounding does not pass a number that can be represented. -/
theorem Nearest.le_of_le (h : Nearest x y) {z : ℚ} (hz : IsDouble z) (hle : z ≤ x) : z ≤ y := by
  by_contra hlt
  rw [not_le] at hlt
  have hnear := h.2 z hz
  rw [abs_of_nonpos (by linarith), abs_of_nonpos (by linarith)] at hnear
  linarith

theorem Nearest.le_of_ge (h : Nearest x y) {z : ℚ} (hz : IsDouble z) (hle : x ≤ z) : y ≤ z := by
  by_contra hlt
  rw [not_le] at hlt
  have hnear := h.2 z hz
  rw [abs_of_nonneg (by linarith), abs_of_nonneg (by linarith)] at hnear
  linarith

/-- Below an integer there is no other number for a stretch in proportion to its size. -/
theorem le_sub_of_lt {n : ℤ} (hn : 0 ≤ n) (hle : n ≤ significand) (hy : IsDouble y)
    (hlt : y < n) : (n : ℚ) / significand ≤ n - y := by
  have hsig : (0 : ℚ) < (significand : ℤ) := by norm_num [significand]
  rw [div_le_iff₀ hsig]
  obtain ⟨m, k, hm, heq | heq⟩ := hy
  · -- an integer is at least one below
    have hint : y = ((m * 2 ^ k : ℤ) : ℚ) := by rw [heq]; push_cast; rfl
    rw [hint] at hlt ⊢
    have hgap : m * 2 ^ k + 1 ≤ n := by exact_mod_cast hlt
    have hgap' : ((m * 2 ^ k : ℤ) : ℚ) + 1 ≤ n := by exact_mod_cast hgap
    have hle' : (n : ℚ) ≤ (significand : ℤ) := by exact_mod_cast hle
    nlinarith
  · -- both are multiples of the same power of a half
    have hpow : (1 : ℚ) ≤ 2 ^ k := one_le_pow₀ (by norm_num)
    have hlt' : m < n * 2 ^ k := by
      have hmul : y * 2 ^ k < n * 2 ^ k := by nlinarith
      rw [heq] at hmul
      exact_mod_cast hmul
    have hm' : m < significand := lt_of_abs_lt hm
    have hkey : n * 2 ^ k ≤ (n * 2 ^ k - m) * significand := by
      have hsig' : (1 : ℤ) ≤ significand := by norm_num [significand]
      rcases le_or_gt (n * 2 ^ k) significand with hsmall | hlarge
      · nlinarith
      · nlinarith
    have hkeyQ : (n : ℚ) * 2 ^ k ≤ (n * 2 ^ k - m) * (significand : ℤ) := by exact_mod_cast hkey
    rw [← heq] at hkeyQ
    have hfactor : (n : ℚ) * 2 ^ k ≤ (n - y) * (significand : ℤ) * 2 ^ k := by
      calc (n : ℚ) * 2 ^ k ≤ (n * 2 ^ k - y * 2 ^ k) * (significand : ℤ) := hkeyQ
        _ = (n - y) * (significand : ℤ) * 2 ^ k := by ring
    exact le_of_mul_le_mul_right hfactor (by linarith)

/-- A number next to an integer is rounded to it or to a little more. -/
theorem Nearest.floor_eq_of_near {n : ℤ} (h : Nearest x y) (hn : 0 < n) (hle : n < significand)
    (hx : 2 * |x - n| < n / significand) : ⌊y⌋ = n := by
  have hsig : (0 : ℚ) < (significand : ℤ) := by norm_num [significand]
  have hnQ : (n : ℚ) < (significand : ℤ) := by exact_mod_cast hle
  have hone : (n : ℚ) / significand ≤ 1 := (div_le_one hsig).mpr hnQ.le
  have hnear := h.2 n (isDouble_intCast (by rwa [abs_of_pos hn]))
  rw [abs_sub_comm (n : ℚ) x] at hnear
  have htotal := abs_sub_le y x n
  have hclose : |y - n| < n / significand := by linarith
  obtain ⟨hlow, hhigh⟩ := abs_lt.mp hclose
  refine Int.floor_eq_iff.mpr ⟨?_, by linarith⟩
  by_contra hlt
  have hgap := le_sub_of_lt hn.le hle.le h.1 (not_le.mp hlt)
  linarith

/-- A number well between two integers stays between them. -/
theorem Nearest.floor_eq_of_between {n : ℤ} (h : Nearest x y) (hn : 0 ≤ n)
    (hle : 32 * n + 31 < significand) (hlow : n ≤ x) (hhigh : x ≤ n + 31 / 32) : ⌊y⌋ = n := by
  have hdouble : IsDouble n := isDouble_intCast (by rw [abs_of_nonneg hn]; omega)
  have hupper : IsDouble (n + 31 / 32) := by
    refine ⟨32 * n + 31, 5, by rwa [abs_of_nonneg (by omega)], Or.inr ?_⟩
    push_cast
    ring
  have hlow' := h.le_of_le hdouble hlow
  have hhigh' := h.le_of_ge hupper hhigh
  exact Int.floor_eq_iff.mpr ⟨hlow', by linarith⟩

/-- Integers that are converted and added one after the other, with a rounding each time. -/
def RoundedSum : ℚ → List ℤ → ℚ → Prop
  | s, [], y => y = s
  | s, n :: ns, y => ∃ x t, Nearest n x ∧ Nearest (s + x) t ∧ RoundedSum t ns y

/-- As long as the sizes add up to less than the significand, nothing is lost. -/
theorem RoundedSum.eq_sum {ns : List ℤ} {s : ℤ} (h : RoundedSum s ns y)
    (hsize : |s| + (ns.map (|·|)).sum < significand) : y = (s + ns.sum : ℤ) := by
  induction ns generalizing s with
  | nil =>
    rw [List.sum_nil, add_zero]
    exact h
  | cons n ns ih =>
    obtain ⟨x, t, hx, ht, hrest⟩ := h
    rw [List.map_cons, List.sum_cons] at hsize
    have hnonneg : 0 ≤ (ns.map (|·|)).sum := by
      refine List.sum_nonneg ?_
      intro a ha
      obtain ⟨b, -, rfl⟩ := List.mem_map.mp ha
      exact abs_nonneg b
    have habs := abs_add_le s n
    have hs := abs_nonneg s
    have hxn : x = n := hx.eq_of_isDouble (isDouble_intCast (by omega))
    subst hxn
    have htn : t = ((s + n : ℤ) : ℚ) := by
      have hdouble : IsDouble ((s : ℚ) + n) := by
        have hsum := isDouble_intCast (m := s + n) (by omega)
        rwa [Int.cast_add] at hsum
      rw [ht.eq_of_isDouble hdouble, Int.cast_add]
    subst htn
    rw [List.sum_cons, ← add_assoc]
    exact ih hrest (by omega)

end Arcturus.Doubles
