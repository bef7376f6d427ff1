import Mathlib.Algebra.Order.Field.Basic
import Mathlib.Tactic.Linarith

/-!
Token buckets. A bucket holds tokens up to a bound and is filled at a constant rate; a call
takes a token if there is one. All that a later call can see of a bucket is its level at that
time. Times and numbers of tokens are in an ordered field.
-/

namespace Arcturus.TokenBucket

variable {K : Type*} [Field K] [LinearOrder K]

/-- The tokens at the time of the last call. -/
structure Bucket (K : Type*) where
  tokens : K
  last : K

def Bucket.full (burst t : K) : Bucket K := ⟨burst, t⟩

/-- The tokens at a time after the last call. -/
def Bucket.level (rate burst : K) (b : Bucket K) (t : K) : K :=
  min burst (b.tokens + (t - b.last) * rate)

/-- A call takes a token if there is a whole one. -/
def Bucket.allow (rate burst : K) (b : Bucket K) (t : K) : Bool × Bucket K :=
  let tokens := b.level rate burst t
  if 1 ≤ tokens then (true, ⟨tokens - 1, t⟩) else (false, ⟨tokens, t⟩)

/-- What a call leaves of a number of tokens. -/
def rest (tokens : K) : K := if 1 ≤ tokens then tokens - 1 else tokens

namespace Bucket

variable {rate burst t : K} {b : Bucket K}

theorem allow_eq : b.allow rate burst t =
    (decide (1 ≤ b.level rate burst t), ⟨rest (b.level rate burst t), t⟩) := by
  unfold allow rest
  by_cases h : 1 ≤ b.level rate burst t
  · simp [h]
  · simp [h]

theorem level_le : b.level rate burst t ≤ burst := min_le_left ..

/-- After a long wait a bucket is full. -/
theorem level_of_wait (h : burst ≤ b.tokens + (t - b.last) * rate) :
    b.level rate burst t = burst := min_eq_left h

variable [IsStrictOrderedRing K]

theorem level_full {t₀ : K} (hrate : 0 ≤ rate) (ht : t₀ ≤ t) :
    (full burst t₀).level rate burst t = burst := by
  refine level_of_wait ?_
  have hadd : 0 ≤ (t - t₀) * rate := mul_nonneg (sub_nonneg.mpr ht) hrate
  change burst ≤ burst + (t - t₀) * rate
  linarith

theorem level_nonneg (hburst : 0 ≤ burst) (hrate : 0 ≤ rate) (htokens : 0 ≤ b.tokens)
    (ht : b.last ≤ t) : 0 ≤ b.level rate burst t := by
  have hadd : 0 ≤ (t - b.last) * rate := mul_nonneg (sub_nonneg.mpr ht) hrate
  exact le_min hburst (by linarith)

end Bucket

section Rest
variable [IsStrictOrderedRing K] {x : K}

theorem rest_nonneg (h : 0 ≤ x) : 0 ≤ rest x := by
  unfold rest
  split
  · linarith
  · exact h

theorem rest_le : rest x ≤ x := by
  unfold rest
  split
  · linarith
  · exact le_rfl

/-- Right after a call the bucket has what the call left. -/
theorem level_rest {rate burst t : K} (h : x ≤ burst) :
    Bucket.level rate burst ⟨rest x, t⟩ t = rest x := by
  unfold Bucket.level
  rw [sub_self, zero_mul, add_zero]
  exact min_eq_right (rest_le.trans h)

/-- One call at a time is answered yes as long as there are tokens. -/
theorem le_rest_iff (n : ℕ) : (n + 1 : K) ≤ rest x ↔ (n + 1 + 1 : K) ≤ x := by
  have hn : (0 : K) ≤ n := n.cast_nonneg
  unfold rest
  split
  · constructor
    · intro h
      linarith
    · intro h
      linarith
  · rename_i hx
    constructor
    · intro h
      linarith
    · intro h
      linarith

theorem rest_iterate (n : ℕ) : rest^[n] (n : K) = 0 := by
  induction n with
  | zero => exact Nat.cast_zero
  | succ n ih =>
    have hrest : rest ((n + 1 : ℕ) : K) = n := by
      have hn : (0 : K) ≤ n := n.cast_nonneg
      unfold rest
      rw [if_pos (by push_cast; linarith)]
      push_cast
      exact add_sub_cancel_right _ _
    rw [Function.iterate_succ_apply, hrest, ih]

end Rest

end Arcturus.TokenBucket
