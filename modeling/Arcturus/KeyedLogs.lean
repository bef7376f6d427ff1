import Mathlib.Logic.Function.Basic
import Mathlib.Data.List.Induction

/-!
Logs of puts and deletions of keys, and two ways to follow one: to carry out every
operation, or to miss the deletions. What a key holds is decided by the last operation
on it, and the two ways agree on a key if there is none, if it is a put, or if there was
nothing to delete.
-/

namespace Arcturus.KeyedLogs

variable {K T : Type*} [DecidableEq K]

inductive Op (K T : Type*) where
  | put (k : K) (t : T)
  | delete (k : K)

def Op.key : Op K T → K
  | .put k _ => k
  | .delete k => k

/-- Carry out an operation. -/
def applied (f : K → Option T) : Op K T → K → Option T
  | .put k t => Function.update f k (some t)
  | .delete k => Function.update f k none

/-- Carry out an operation unless it is a deletion. -/
def entered (f : K → Option T) : Op K T → K → Option T
  | .put k t => Function.update f k (some t)
  | .delete _ => f

/-- The operations on one key. -/
def history (k : K) (ops : List (Op K T)) : List (Op K T) := ops.filter fun op => op.key = k

section Keys
variable {f g : K → Option T} {op : Op K T} {k : K}

theorem applied_of_ne (h : op.key ≠ k) : applied f op k = f k := by
  cases op with
  | put a t => exact Function.update_of_ne (Ne.symm h) _ _
  | delete a => exact Function.update_of_ne (Ne.symm h) _ _

theorem entered_of_ne (h : op.key ≠ k) : entered f op k = f k := by
  cases op with
  | put a t => exact Function.update_of_ne (Ne.symm h) _ _
  | delete a => rfl

theorem history_concat (ops : List (Op K T)) :
    history k (ops ++ [op]) = if op.key = k then history k ops ++ [op] else history k ops := by
  unfold history
  by_cases h : op.key = k
  · simp [h]
  · simp [h]

/-- Nothing is there as long as nothing has been put. -/
theorem foldl_entered_eq_none (ops : List (Op K T)) :
    ops.foldl entered f k = none ↔ (∀ t, Op.put k t ∉ ops) ∧ f k = none := by
  induction ops using List.reverseRecOn with
  | nil => simp
  | append_singleton ops op ih =>
    rw [List.foldl_append, List.foldl_cons, List.foldl_nil]
    cases op with
    | put a t =>
      by_cases ha : a = k
      · subst ha
        simp only [entered, Function.update_self, reduceCtorEq, false_iff, not_and]
        intro h
        exact absurd (List.mem_append_right _ (List.mem_singleton.mpr rfl)) (h t)
      · rw [entered_of_ne (show (Op.put a t).key ≠ k from ha), ih]
        simp [Ne.symm ha]
    | delete a =>
      have hskip : entered (ops.foldl entered f) (.delete a) k = ops.foldl entered f k := rfl
      rw [hskip, ih]
      simp

/-- A key is followed without its deletions if and only if nothing was missed: without an
operation on it the two start with the same value, and where the last operation is a
deletion there was nothing to delete. -/
theorem entered_eq_applied_iff (ops : List (Op K T)) :
    ops.foldl entered f k = ops.foldl applied g k ↔
      (history k ops = [] → f k = g k) ∧
        ((history k ops).getLast? = some (.delete k) →
          (∀ t, Op.put k t ∉ ops) ∧ f k = none) := by
  induction ops using List.reverseRecOn with
  | nil => simp [history]
  | append_singleton ops op ih =>
    simp only [List.foldl_append, List.foldl_cons, List.foldl_nil, history_concat]
    by_cases hop : op.key = k
    · rw [if_pos hop]
      cases op with
      | put a t =>
        obtain rfl : a = k := hop
        simp [applied, entered]
      | delete a =>
        obtain rfl : a = k := hop
        have hskip : entered (ops.foldl entered f) (.delete a) a = ops.foldl entered f a := rfl
        have hgone : applied (ops.foldl applied g) (.delete a) a = none := by simp [applied]
        rw [hskip, hgone, foldl_entered_eq_none]
        simp
    · rw [if_neg hop, applied_of_ne hop, entered_of_ne hop, ih]
      have hput : ∀ t, Op.put k t ∈ ops ++ [op] ↔ Op.put k t ∈ ops := by
        intro t
        rw [List.mem_append, List.mem_singleton]
        constructor
        · rintro (hmem | rfl)
          · exact hmem
          · exact absurd rfl hop
        · exact Or.inl
      simp only [hput]

end Keys

end Arcturus.KeyedLogs
