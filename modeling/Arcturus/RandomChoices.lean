import Mathlib.Algebra.Order.Ring.Rat
import Mathlib.Data.List.Perm.Basic

/-!
Random choices as an arbitrary stream of draws, which is read from its front. A shuffle
goes through the positions from the last to the second and exchanges each with a drawn
one at or before it. The order of a range loop over a map is a shuffle of its keys.
-/

namespace Arcturus.RandomChoices

variable {α : Type*}

/-- The draws still to come. -/
abbrev Draws := ℕ → ℕ

/-- A number below `n`, for positive `n`, and the draws after it. -/
def intn (n : ℕ) (r : Draws) : ℕ × Draws := (r 0 % n, fun k => r (k + 1))

def exchange (l : List α) (i j : ℕ) : List α :=
  match l[i]?, l[j]? with
  | some a, some b => (l.set i b).set j a
  | _, _ => l

def shuffleFrom : ℕ → List α → Draws → List α × Draws
  | 0, l, r => (l, r)
  | j + 1, l, r =>
    let draw := intn (j + 2) r
    shuffleFrom j (exchange l (j + 1) draw.1) draw.2

def shuffle (l : List α) (r : Draws) : List α × Draws := shuffleFrom (l.length - 1) l r

theorem exchange_perm (l : List α) (i j : ℕ) : (exchange l i j).Perm l := by
  unfold exchange
  split
  · rename_i a b ha hb
    obtain ⟨hi, rfl⟩ := List.getElem?_eq_some_iff.mp ha
    obtain ⟨hj, rfl⟩ := List.getElem?_eq_some_iff.mp hb
    exact List.set_set_perm hi hj
  · exact List.Perm.refl _

theorem shuffleFrom_perm (j : ℕ) (l : List α) (r : Draws) : (shuffleFrom j l r).1.Perm l := by
  induction j generalizing l r with
  | zero => exact List.Perm.refl _
  | succ j ih => exact (ih _ _).trans (exchange_perm l _ _)

theorem shuffle_perm (l : List α) (r : Draws) : (shuffle l r).1.Perm l :=
  shuffleFrom_perm _ l r

@[simp] theorem mem_shuffle {l : List α} {r : Draws} {a : α} : a ∈ (shuffle l r).1 ↔ a ∈ l :=
  (shuffle_perm l r).mem_iff

section Outcomes
variable {a a' b : List α} {x : α} {n : ℕ}

/-- Any entry can be brought to the end of the part that is still to be shuffled. -/
theorem exists_exchange_eq (hlen : a.length = n + 1) (hx : x ∈ a) :
    ∃ k ≤ n, ∃ front, exchange (a ++ b) n k = front ++ x :: b ∧ (front ++ [x]).Perm a := by
  obtain ⟨k, hk, rfl⟩ := List.getElem_of_mem hx
  have hn : n < a.length := by omega
  have hfront : exchange (a ++ b) n k = exchange a n k ++ b := by
    simp [exchange, List.getElem?_append_left hn, List.getElem?_append_left hk, hn, hk,
      List.set_append_left, List.length_set]
  have hlast : (exchange a n k).getLast? = some a[k] := by
    rw [List.getLast?_eq_getElem?, (exchange_perm a n k).length_eq, hlen, Nat.add_sub_cancel]
    simp only [exchange, List.getElem?_eq_getElem hn, List.getElem?_eq_getElem hk]
    by_cases hkn : k = n
    · subst hkn
      simp [hn]
    · rw [List.getElem?_set_ne hkn, List.getElem?_set_self hn]
  obtain ⟨front, hconcat⟩ := List.getLast?_eq_some_iff.mp hlast
  refine ⟨k, by omega, front, ?_, hconcat ▸ exchange_perm a n k⟩
  rw [hfront, hconcat, List.append_assoc, List.singleton_append]

theorem exists_shuffleFrom_eq (hlen : a.length = n + 1) (h : a'.Perm a) (r : Draws) :
    ∃ r', shuffleFrom n (a ++ b) r' = (a' ++ b, r) := by
  induction n generalizing a a' b with
  | zero =>
    obtain ⟨x, rfl⟩ := List.length_eq_one_iff.mp hlen
    exact ⟨r, by rw [List.perm_singleton.mp h]; rfl⟩
  | succ n ih =>
    obtain ⟨front', x, rfl⟩ : ∃ front' x, a' = front' ++ [x] := by
      refine (List.eq_nil_or_concat' a').resolve_left fun hnil => ?_
      rw [hnil, List.nil_perm] at h
      rw [h] at hlen
      cases hlen
    obtain ⟨k, hk, front, hexchange, hperm⟩ :=
      exists_exchange_eq (b := b) hlen (h.subset (List.mem_append_right _ List.mem_cons_self))
    have hfront : front'.Perm front := (List.perm_append_right_iff [x]).mp (h.trans hperm.symm)
    have hlen' : front.length = n + 1 := by
      have hcount := hperm.length_eq
      rw [List.length_append, List.length_singleton] at hcount
      omega
    obtain ⟨r', hr'⟩ := ih (b := x :: b) hlen' hfront
    refine ⟨fun i => i.casesOn k r', ?_⟩
    change shuffleFrom n (exchange (a ++ b) (n + 1) (k % (n + 2))) r' = _
    rw [Nat.mod_eq_of_lt (by omega), hexchange, hr', List.append_assoc, List.singleton_append]

/-- Every order of a list is an outcome of its shuffle, whatever is drawn after it. -/
theorem exists_shuffle_eq (h : a'.Perm a) (r : Draws) : ∃ r', shuffle a r' = (a', r) := by
  cases hlen : a.length with
  | zero =>
    have hnil := List.length_eq_zero_iff.mp hlen
    subst hnil
    exact ⟨r, by rw [List.perm_nil.mp h]; rfl⟩
  | succ n =>
    have hall := exists_shuffleFrom_eq (b := []) hlen h r
    rw [List.append_nil, List.append_nil] at hall
    unfold shuffle
    rw [hlen]
    exact hall

end Outcomes

/-- A random number of the half-open unit interval. -/
structure Fraction where
  val : ℚ
  nonneg : 0 ≤ val
  lt_one : val < 1

/-- The random numbers still to come. -/
abbrev Fractions := ℕ → Fraction

end Arcturus.RandomChoices
