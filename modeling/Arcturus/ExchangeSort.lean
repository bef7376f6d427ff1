import Mathlib.Order.Lattice
import Mathlib.Data.List.Perm.Basic

/-!
The exchange sort of two nested index loops. While the outer index rests on one
position, the inner scan exchanges its entry with every strictly smaller entry
it meets, so that position ends with a least entry of the remaining slice.
-/

namespace Arcturus.ExchangeSort

variable {α κ : Type*} [LinearOrder κ]

/-- The inner loop: `x` is the entry at the outer index, the list is what the
inner index still visits. Returns the final entry and the visited rest. -/
def scan (key : α → κ) : α → List α → α × List α
  | x, [] => (x, [])
  | x, y :: ys =>
    if key y < key x then ((scan key y ys).1, x :: (scan key y ys).2)
    else ((scan key x ys).1, y :: (scan key x ys).2)

def sortLoop (key : α → κ) : ℕ → List α → List α
  | fuel + 1, x :: xs => (scan key x xs).1 :: sortLoop key fuel (scan key x xs).2
  | _, l => l

/-- The outer loop makes one scan for every entry. -/
def sort (key : α → κ) (l : List α) : List α := sortLoop key l.length l

theorem scan_perm (key : α → κ) (x : α) (l : List α) :
    ((scan key x l).1 :: (scan key x l).2).Perm (x :: l) := by
  induction l generalizing x with
  | nil => exact List.Perm.refl _
  | cons y ys ih =>
    simp only [scan]
    split
    · exact (List.Perm.swap _ _ _).trans ((ih y).cons x)
    · exact ((List.Perm.swap _ _ _).trans ((ih x).cons y)).trans (List.Perm.swap _ _ _)

theorem scan_length (key : α → κ) (x : α) (l : List α) : (scan key x l).2.length = l.length := by
  have h := (scan_perm key x l).length_eq
  simpa using h

theorem scan_le_start (key : α → κ) (x : α) (l : List α) : key (scan key x l).1 ≤ key x := by
  induction l generalizing x with
  | nil => exact le_rfl
  | cons y ys ih =>
    simp only [scan]
    split
    · rename_i hlt
      exact (ih y).trans hlt.le
    · exact ih x

/-- The entry left at the outer index is least among all those scanned. -/
theorem scan_le (key : α → κ) (x : α) (l : List α) :
    ∀ z ∈ (scan key x l).2, key (scan key x l).1 ≤ key z := by
  induction l generalizing x with
  | nil => simp [scan]
  | cons y ys ih =>
    simp only [scan]
    split
    · rename_i hlt
      intro z hz
      rcases List.mem_cons.mp hz with rfl | hz
      · exact (scan_le_start key y ys).trans hlt.le
      · exact ih y z hz
    · rename_i hnot
      intro z hz
      rcases List.mem_cons.mp hz with rfl | hz
      · exact (scan_le_start key x ys).trans (not_lt.mp hnot)
      · exact ih x z hz

private theorem sortLoop_perm (key : α → κ) (fuel : ℕ) (l : List α) :
    (sortLoop key fuel l).Perm l := by
  induction fuel generalizing l with
  | zero => cases l <;> exact List.Perm.refl _
  | succ fuel ih =>
    cases l with
    | nil => exact List.Perm.refl _
    | cons x xs => exact ((ih (scan key x xs).2).cons _).trans (scan_perm key x xs)

theorem sort_perm (key : α → κ) (l : List α) : (sort key l).Perm l :=
  sortLoop_perm key l.length l

private theorem sortLoop_sorted (key : α → κ) (fuel : ℕ) (l : List α) (h : l.length ≤ fuel) :
    (sortLoop key fuel l).Pairwise (fun a b => key a ≤ key b) := by
  induction fuel generalizing l with
  | zero =>
    have hnil : l = [] := List.length_eq_zero_iff.mp (by omega)
    subst hnil
    exact List.Pairwise.nil
  | succ fuel ih =>
    cases l with
    | nil => exact List.Pairwise.nil
    | cons x xs =>
      refine List.Pairwise.cons ?_ (ih _ ?_)
      · intro z hz
        exact scan_le key x xs z ((sortLoop_perm key fuel _).mem_iff.mp hz)
      · rw [scan_length]
        simpa using h

theorem sort_sorted (key : α → κ) (l : List α) :
    (sort key l).Pairwise (fun a b => key a ≤ key b) :=
  sortLoop_sorted key l.length l (Nat.le_refl _)

/-- A sort by a key that may leave entries with equal keys in any order. -/
structure Sorting (key : α → κ) where
  sort : List α → List α
  perm : ∀ l, (sort l).Perm l
  sorted : ∀ l, (sort l).Pairwise (fun a b => key a ≤ key b)

/-- Sorting entries that are made from labels arranges the labels. -/
theorem Sorting.exists_map {β : Type*} {key : α → κ} (s : Sorting key) {f : β → α} {g : α → β}
    (hgf : ∀ b, g (f b) = b) (l : List β) :
    ∃ labels : List β, labels.Perm l ∧ s.sort (l.map f) = labels.map f ∧
      labels.Pairwise fun a b => key (f a) ≤ key (f b) := by
  have hperm := s.perm (l.map f)
  have hback : s.sort (l.map f) = ((s.sort (l.map f)).map g).map f := by
    rw [List.map_map]
    refine (List.map_id _).symm.trans (List.map_congr_left fun a ha => ?_)
    obtain ⟨b, -, rfl⟩ := List.mem_map.mp (hperm.mem_iff.mp ha)
    exact congrArg f (hgf b).symm
  refine ⟨(s.sort (l.map f)).map g, ?_, hback, ?_⟩
  · have hmap := hperm.map g
    rwa [List.map_map, (funext hgf : g ∘ f = id), List.map_id] at hmap
  · rw [← List.pairwise_map (R := fun a b => key a ≤ key b), ← hback]
    exact s.sorted _

/-- The exchange sort is one. -/
def exchange (key : α → κ) : Sorting key := ⟨sort key, sort_perm key, sort_sorted key⟩

end Arcturus.ExchangeSort
