import Mathlib.Algebra.Order.Field.Basic
import Mathlib.Algebra.BigOperators.Group.List.Basic
import Mathlib.Algebra.Order.BigOperators.Group.List
import Mathlib.Algebra.BigOperators.Ring.List
import Mathlib.Tactic.Linarith

/-!
Dividing one among the entries of a list in proportion to positive weights.
-/

namespace Arcturus.Shares

variable {α K : Type*} [Field K]

def total (weight : α → K) (l : List α) : K := (l.map weight).sum

def share (weight : α → K) (l : List α) (a : α) : K := weight a / total weight l

theorem total_cons (weight : α → K) (a : α) (l : List α) :
    total weight (a :: l) = weight a + total weight l := List.sum_cons

theorem total_perm (weight : α → K) {l l' : List α} (h : l.Perm l') :
    total weight l = total weight l' := (h.map weight).sum_eq

theorem total_congr {weight weight' : α → K} {l : List α} (h : ∀ a ∈ l, weight a = weight' a) :
    total weight l = total weight' l := by
  unfold total
  rw [List.map_congr_left h]

variable [LinearOrder K] [IsStrictOrderedRing K]

section Positive
variable {weight : α → K} {l : List α} (hpos : ∀ a ∈ l, 0 < weight a)
include hpos

theorem total_nonneg : 0 ≤ total weight l := by
  refine List.sum_nonneg fun w hw => ?_
  obtain ⟨a, ha, rfl⟩ := List.mem_map.mp hw
  exact (hpos a ha).le

theorem total_pos (hne : l ≠ []) : 0 < total weight l := by
  obtain ⟨a, rest, rfl⟩ := List.exists_cons_of_ne_nil hne
  have hrest := total_nonneg fun b hb => hpos b (List.mem_cons_of_mem a hb)
  rw [total_cons]
  exact add_pos_of_pos_of_nonneg (hpos a (List.mem_cons_self ..)) hrest

theorem share_pos {a : α} (ha : a ∈ l) : 0 < share weight l a :=
  div_pos (hpos a ha) (total_pos hpos (List.ne_nil_of_mem ha))

theorem sum_share (hne : l ≠ []) : (l.map (share weight l)).sum = 1 := by
  have hdiv : share weight l = fun a => weight a * (total weight l)⁻¹ :=
    funext fun a => div_eq_mul_inv ..
  rw [hdiv, List.sum_map_mul_right]
  exact mul_inv_cancel₀ (total_pos hpos hne).ne'

theorem share_lt (hne : l ≠ []) {a b : α} (h : weight a < weight b) :
    share weight l a < share weight l b := div_lt_div_of_pos_right h (total_pos hpos hne)

theorem share_le (hne : l ≠ []) {a b : α} (h : weight a ≤ weight b) :
    share weight l a ≤ share weight l b := div_le_div_of_nonneg_right h (total_pos hpos hne).le

end Positive

/-- An entry whose weight is lowered while the others keep theirs gets no larger share. -/
theorem share_le_of_lowered {weight weight' : α → K} {l l' : List α} {a : α} (hperm : l'.Perm l)
    (hnodup : l.Nodup) (ha : a ∈ l) (hpos : ∀ b ∈ l, 0 < weight b) (hpos' : 0 < weight' a)
    (hle : weight' a ≤ weight a) (hsame : ∀ b ∈ l, b ≠ a → weight' b = weight b) :
    share weight' l' a ≤ share weight l a := by
  classical
  have hsplit : l.Perm (a :: l.erase a) := List.perm_cons_erase ha
  have hrest : total weight' (l.erase a) = total weight (l.erase a) :=
    total_congr fun b hb => hsame b (List.mem_of_mem_erase hb)
      (List.Nodup.mem_erase_iff hnodup |>.mp hb).1
  have hnonneg : 0 ≤ total weight (l.erase a) :=
    total_nonneg fun b hb => hpos b (List.mem_of_mem_erase hb)
  have ha' := hpos a ha
  unfold share
  rw [total_perm weight' (hperm.trans hsplit), total_perm weight hsplit, total_cons, total_cons,
    hrest, div_le_div_iff₀ (by linarith) (by linarith)]
  have hcross := mul_le_mul_of_nonneg_right hle hnonneg
  linarith [mul_comm (weight' a) (weight a)]

end Arcturus.Shares
