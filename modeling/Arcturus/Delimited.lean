import Mathlib.Data.List.Basic

/-!
Sequences cut at the first occurrence of a delimiter. A cut only looks at the part up to
the delimiter, so that it does not change when more follows.
-/

namespace Arcturus.Delimited

variable {α : Type*} [DecidableEq α] {sep : α} {l xs ys line rest : List α}

/-- What comes before the first delimiter and what comes after it. -/
def cut (sep : α) : List α → Option (List α × List α)
  | [] => none
  | x :: xs => if x = sep then some ([], xs) else (cut sep xs).map fun r => (x :: r.1, r.2)

theorem cut_eq_none_iff : cut sep l = none ↔ sep ∉ l := by
  induction l with
  | nil => simp [cut]
  | cons x xs ih =>
    by_cases hx : x = sep
    · simp [cut, hx]
    · simp [cut, hx, ih, Ne.symm hx]

theorem cut_eq_some_iff : cut sep l = some (line, rest) ↔ l = line ++ sep :: rest ∧ sep ∉ line := by
  induction l generalizing line with
  | nil => simp [cut]
  | cons x xs ih =>
    by_cases hx : x = sep
    · subst hx
      cases line with
      | nil => simp [cut]
      | cons y line =>
        simp only [cut, if_true, Option.some.injEq, Prod.mk.injEq, List.cons_append,
          List.cons.injEq, List.mem_cons]
        constructor
        · rintro ⟨h, -⟩
          cases h
        · rintro ⟨⟨rfl, -⟩, hnot⟩
          exact absurd (Or.inl rfl) hnot
    · cases line with
      | nil => simp [cut, hx]
      | cons y line =>
        simp only [cut, if_neg hx, Option.map_eq_some_iff, Prod.exists, Prod.mk.injEq,
          List.cons_append, List.cons.injEq, List.mem_cons, not_or]
        constructor
        · rintro ⟨line', rest', hcut, ⟨rfl, rfl⟩, rfl⟩
          obtain ⟨hxs, hnot⟩ := ih.mp hcut
          exact ⟨⟨rfl, hxs⟩, Ne.symm hx, hnot⟩
        · rintro ⟨⟨rfl, hxs⟩, -, hnot⟩
          exact ⟨line, rest, ih.mpr ⟨hxs, hnot⟩, ⟨rfl, rfl⟩, rfl⟩

theorem cut_append_of_some (h : cut sep xs = some (line, rest)) :
    cut sep (xs ++ ys) = some (line, rest ++ ys) := by
  obtain ⟨rfl, hnot⟩ := cut_eq_some_iff.mp h
  refine cut_eq_some_iff.mpr ⟨?_, hnot⟩
  rw [List.append_assoc, List.cons_append]

theorem cut_append_of_none (h : cut sep xs = none) :
    cut sep (xs ++ ys) = (cut sep ys).map fun r => (xs ++ r.1, r.2) := by
  induction xs with
  | nil => simp
  | cons x xs ih =>
    rw [cut_eq_none_iff, List.mem_cons, not_or] at h
    rw [List.cons_append, cut, if_neg (Ne.symm h.1), ih (cut_eq_none_iff.mpr h.2),
      Option.map_map]
    rfl

/-- The sequence is empty or ends with a delimiter, and these are the parts before its
delimiters. -/
def Complete (sep : α) (l : List α) (parts : List (List α)) : Prop :=
  l = [] ∧ parts = [] ∨ ∃ front, l = front ++ [sep] ∧ parts = front.splitOn sep

theorem complete_concat (sep : α) (front : List α) :
    Complete sep (front ++ [sep]) (front.splitOn sep) := Or.inr ⟨front, rfl, rfl⟩

section Complete
variable {parts : List (List α)} (h : Complete sep l parts)
include h

/-- What follows is split on its own. -/
theorem Complete.splitOn_append (rest : List α) :
    (l ++ rest).splitOn sep = parts ++ rest.splitOn sep := by
  rcases h with ⟨rfl, rfl⟩ | ⟨front, rfl, rfl⟩
  · rfl
  · rw [List.append_assoc, List.singleton_append, List.splitOn_append_cons_self]

theorem Complete.append (hline : sep ∉ line) :
    Complete sep (l ++ (line ++ [sep])) (parts ++ [line]) := by
  rw [← List.append_assoc]
  have hsplit := Complete.splitOn_append h line
  rw [List.splitOn_eq_singleton hline] at hsplit
  rw [← hsplit]
  exact complete_concat sep (l ++ line)

/-- Up to a later delimiter there are at least the same parts. -/
theorem Complete.sublist {front : List α} (hpre : l <+: front ++ [sep]) :
    parts.Sublist (front.splitOn sep) := by
  obtain ⟨t, ht⟩ := hpre
  rcases List.eq_nil_or_concat t with rfl | ⟨t, x, rfl⟩
  · rcases h with ⟨rfl, rfl⟩ | ⟨front', rfl, rfl⟩
    · exact List.nil_sublist _
    · rw [List.append_nil] at ht
      rw [List.append_cancel_right ht]
  · rw [List.concat_eq_append, ← List.append_assoc] at ht
    rw [← (List.append_inj' ht rfl).1, Complete.splitOn_append h]
    exact List.sublist_append_left ..

end Complete

end Arcturus.Delimited
