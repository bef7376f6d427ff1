import Arcturus.IndexedHeap

/-!
Removal of an entry at a position of a binary heap, and the positions that the entries
record. The entry is exchanged with the last one, which is then sifted down or, if it
does not sink, up. Push, pop and removal keep every recorded position right.
-/

namespace Arcturus.IndexedHeap

variable {α κ : Type*} [LinearOrder κ]

section Removal
variable (key : α → κ)

/-- The result of `down`: whether the entry moves at all. -/
def sinks (h : List (Slot α)) (i n : ℕ) : Bool :=
  decide (2 * i + 1 < n) && less key h (smallerChild key h i n) i

end Removal

variable {key : α → κ}

theorem down_of_not_sinks {h : List (Slot α)} {i n : ℕ} (hs : ¬ sinks key h i n) :
    down key h i n = h := by
  unfold down
  cases n with
  | zero => rfl
  | succ n =>
    rw [downLoop, if_pos]
    simp only [sinks, Bool.and_eq_true, decide_eq_true_eq, not_and] at hs
    rcases Nat.lt_or_ge (2 * i + 1) (n + 1) with hlt | hge
    · exact Or.inr (hs hlt)
    · exact Or.inl hge

/-- What removal needs to know of the slice after the exchange: away from the hole the
keys are those of a heap. -/
structure Hole (f g : ℕ → WithTop κ) (i n : ℕ) : Prop where
  order : HeapOrder f
  same : ∀ j, j < n → j ≠ i → g j = f j
  top : ∀ j, n ≤ j → g j = ⊤

theorem Hole.off {f g : ℕ → WithTop κ} {i n c : ℕ} (h : Hole f g i n) (hc : c ≠ i)
    (hp : parent c ≠ i) : g (parent c) ≤ g c := by
  rcases Nat.lt_or_ge c n with hlt | hge
  · have hpn : parent c < n := by
      unfold parent
      omega
    rw [h.same c hlt hc, h.same (parent c) hpn hp]
    exact h.order c
  · rw [h.top c hge]
    exact le_top

theorem Hole.grand {f g : ℕ → WithTop κ} {i n : ℕ} (h : Hole f g i n) (hi : i < n) (hpos : 0 < i)
    (c : ℕ) (hc : parent c = i) : g (parent i) ≤ g c := by
  have hpi := parent_lt hpos
  rcases Nat.lt_or_ge c n with hlt | hge
  · have hci : c ≠ i := by
      intro heq
      subst heq
      omega
    rw [h.same c hlt hci, h.same (parent i) (by omega) (by omega)]
    exact (h.order i).trans (hc ▸ h.order c)
  · rw [h.top c hge]
    exact le_top

/-- A value that is above one of the children may only be too large. -/
theorem Hole.downOrder {f g : ℕ → WithTop κ} {i n c : ℕ} (h : Hole f g i n) (hi : i < n)
    (hc : parent c = i) (hlt : g c < g i) : DownOrder g i where
  off := by
    intro j hj
    by_cases hji : j = i
    · subst hji
      rcases Nat.eq_zero_or_pos j with rfl | hjpos
      · exact absurd rfl hj
      · exact (h.grand hi hjpos c hc).trans hlt.le
    · exact h.off hji hj
  grand := fun hipos j hj => h.grand hi hipos j hj

/-- A value that is below all children may only be too small. -/
theorem Hole.upOrder {f g : ℕ → WithTop κ} {i n : ℕ} (h : Hole f g i n) (hi : i < n)
    (hle : ∀ c, parent c = i → 0 < c → g i ≤ g c) : UpOrder g i where
  off := by
    intro j hj
    by_cases hp : parent j = i
    · have hpos : 0 < j := by
        rcases Nat.eq_zero_or_pos j with rfl | hjpos
        · exact absurd hp hj
        · exact hjpos
      rw [hp]
      exact hle j hp hpos
    · exact h.off hj hp
  grand := fun hipos j hj => h.grand hi hipos j hj

namespace MinHeap

/-- The slice before its last entry is dropped. -/
def unlinked (h : MinHeap key) (i : ℕ) : List (Slot α) :=
  let n := h.slots.length - 1
  if i = n then h.slots
  else
    let moved := swap h.slots i n
    if sinks key moved i n then down key moved i n else up key (down key moved i n) i

variable {h : MinHeap key} {i : ℕ}

theorem unlinked_last_pos (hi : i = h.slots.length - 1) : h.unlinked i = h.slots := by
  simp [unlinked, hi]

theorem unlinked_sinks (hi : i ≠ h.slots.length - 1)
    (hs : sinks key (swap h.slots i (h.slots.length - 1)) i (h.slots.length - 1)) :
    h.unlinked i = down key (swap h.slots i (h.slots.length - 1)) i (h.slots.length - 1) := by
  simp [unlinked, hi, hs]

theorem unlinked_rises (hi : i ≠ h.slots.length - 1)
    (hs : ¬ sinks key (swap h.slots i (h.slots.length - 1)) i (h.slots.length - 1)) :
    h.unlinked i = up key (swap h.slots i (h.slots.length - 1)) i := by
  simp [unlinked, hi, hs, down_of_not_sinks hs]

/-- How a property of the slice follows for the three ways the removal may take. -/
theorem unlinked_cases (h : MinHeap key) (i : ℕ) {P : List (Slot α) → Prop}
    (hlast : i = h.slots.length - 1 → P h.slots)
    (hdown : i ≠ h.slots.length - 1 →
      sinks key (swap h.slots i (h.slots.length - 1)) i (h.slots.length - 1) →
      P (down key (swap h.slots i (h.slots.length - 1)) i (h.slots.length - 1)))
    (hup : i ≠ h.slots.length - 1 →
      ¬ sinks key (swap h.slots i (h.slots.length - 1)) i (h.slots.length - 1) →
      P (up key (swap h.slots i (h.slots.length - 1)) i)) : P (h.unlinked i) := by
  by_cases hi : i = h.slots.length - 1
  · rw [unlinked_last_pos hi]
    exact hlast hi
  · by_cases hs : sinks key (swap h.slots i (h.slots.length - 1)) i (h.slots.length - 1)
    · rw [unlinked_sinks hi hs]
      exact hdown hi hs
    · rw [unlinked_rises hi hs]
      exact hup hi hs

theorem length_unlinked (h : MinHeap key) (i : ℕ) :
    (h.unlinked i).length = h.slots.length := by
  apply unlinked_cases h i (P := fun l => l.length = h.slots.length)
  · intro _
    rfl
  · intro _ _
    simp [down]
  · intro _ _
    simp [up]

theorem unlinked_perm (hi : i < h.slots.length) : (vals (h.unlinked i)).Perm h.toList := by
  have hswap := swap_perm h.slots hi (show h.slots.length - 1 < h.slots.length by omega)
  apply unlinked_cases h i (P := fun l => (vals l).Perm h.toList)
  · intro _
    exact List.Perm.refl _
  · intro hne _
    exact (downLoop_perm key _ _ (by simp) (by omega)).trans hswap
  · intro _ _
    exact (upLoop_perm key _ _ (by simpa using hi)).trans hswap

/-- The entry to be removed ends up last. -/
theorem unlinked_last (hi : i < h.slots.length) :
    (vals (h.unlinked i))[h.slots.length - 1]? = h.toList[i]? := by
  have hswap := getElem?_vals_swap h.slots hi (show h.slots.length - 1 < h.slots.length by omega)
    (h.slots.length - 1)
  rw [Equiv.swap_apply_right] at hswap
  apply unlinked_cases h i (P := fun l => (vals l)[h.slots.length - 1]? = h.toList[i]?)
  · intro heq
    rw [← heq]
    rfl
  · intro hne _
    unfold down
    rw [downLoop_frame key _ _ (by simp) (by omega) le_rfl]
    exact hswap
  · intro hne _
    unfold up
    rw [upLoop_frame key _ _ (by simpa using hi) (by omega)]
    exact hswap

theorem hole_of_swap (hi : i < h.slots.length - 1) :
    Hole (keyAt key h.slots.length h.slots)
      (keyAt key (h.slots.length - 1) (swap h.slots i (h.slots.length - 1))) i
      (h.slots.length - 1) where
  order := h.order
  same := by
    intro j hj hji
    simp only [keyAt, hj, show j < h.slots.length by omega, if_true,
      getElem?_vals_swap h.slots (show i < h.slots.length by omega)
        (show h.slots.length - 1 < h.slots.length by omega),
      Equiv.swap_apply_of_ne_of_ne hji (show j ≠ h.slots.length - 1 by omega)]
  top := by
    intro j hj
    exact keyAt_of_le _ hj

theorem unlinked_order (hi : i < h.slots.length) :
    HeapOrder (keyAt key (h.slots.length - 1) (h.unlinked i)) := by
  have hlen : h.slots.length - 1 ≤ (swap h.slots i (h.slots.length - 1)).length := by simp
  apply unlinked_cases h i (P := fun l => HeapOrder (keyAt key (h.slots.length - 1) l))
  · intro _ c
    rcases Nat.lt_or_ge c (h.slots.length - 1) with hlt | hge
    · have hp : parent c < h.slots.length - 1 := by
        unfold parent
        omega
      have horder := h.order c
      simpa [keyAt, hlt, hp, show c < h.slots.length by omega,
        show parent c < h.slots.length by omega] using horder
    · rw [keyAt_of_le _ hge]
      exact le_top
  · intro hne hs
    have hin : i < h.slots.length - 1 := by omega
    simp only [sinks, Bool.and_eq_true, decide_eq_true_eq] at hs
    rw [less_iff _ hlen (smallerChild_lt key _ hs.1) hin] at hs
    exact downLoop_order _ _ hlen hin (by omega)
      ((hole_of_swap hin).downOrder hin (parent_smallerChild key _ i _) hs.2)
  · intro hne hs
    have hin : i < h.slots.length - 1 := by omega
    apply upLoop_order _ _ hlen hin le_rfl
    apply (hole_of_swap hin).upOrder hin
    intro c hc hpos
    simp only [sinks, Bool.and_eq_true, decide_eq_true_eq, not_and] at hs
    by_cases hn : 2 * i + 1 < h.slots.length - 1
    · have hnot := hs hn
      rw [less_iff _ hlen (smallerChild_lt key _ hn) hin, not_lt] at hnot
      exact hnot.trans (smallerChild_le key _ hlen hn c hc hpos)
    · have hcn : h.slots.length - 1 ≤ c := by
        unfold parent at hc
        omega
      rw [keyAt_of_le _ hcn]
      exact le_top

/-- Remove the entry at a position; a position out of range panics. -/
def remove (h : MinHeap key) (i : ℕ) : Option (MinHeap key) :=
  if hi : i < h.slots.length then
    some ⟨(h.unlinked i).dropLast, by
      rw [keyAt_dropLast, length_unlinked]
      exact unlinked_order hi⟩
  else none

theorem remove_isSome : (h.remove i).isSome ↔ i < h.slots.length := by
  unfold remove
  split <;> simp_all

/-- Removal takes out the entry at the position and keeps all the others. -/
theorem remove_spec {rest : MinHeap key} (hr : h.remove i = some rest) :
    ∃ s, h.slots[i]? = some s ∧ h.toList.Perm (s.val :: rest.toList) := by
  unfold remove at hr
  split at hr
  · rename_i hi
    cases Option.some.inj hr
    refine ⟨h.slots[i], List.getElem?_eq_getElem hi, ?_⟩
    have hne : h.unlinked i ≠ [] := by
      intro hnil
      have hlen := length_unlinked h i
      rw [hnil] at hlen
      simp only [List.length_nil] at hlen
      omega
    have hsplit := List.dropLast_append_getLast hne
    have hval : ((h.unlinked i).getLast hne).val = h.slots[i].val := by
      have hlast := unlinked_last hi
      rw [← length_unlinked h i] at hlast
      simpa [vals, toList, ← List.getLast?_eq_getElem?, List.getLast?_eq_getLast_of_ne_nil hne,
        hi] using hlast
    have hvals : vals (h.unlinked i) = vals (h.unlinked i).dropLast ++ [h.slots[i].val] := by
      have := congrArg vals hsplit
      simpa [vals, hval] using this.symm
    have hperm := (unlinked_perm hi).symm
    rw [hvals] at hperm
    exact hperm.trans (List.perm_append_singleton _ _)
  · contradiction

end MinHeap

section Positions

/-- Every entry records its own position. -/
def Indexed (h : List (Slot α)) : Prop := ∀ (i : ℕ) (s : Slot α), h[i]? = some s → s.index = i

theorem Indexed.swap {h : List (Slot α)} (hh : Indexed h) (i j : ℕ) : Indexed (swap h i j) := by
  unfold IndexedHeap.swap
  split
  · rename_i a b ha hb
    intro k s hk
    by_cases hj : j = k
    · subst hj
      rw [List.getElem?_set_self (by simpa using (List.getElem?_eq_some_iff.mp hb).1)] at hk
      cases Option.some.inj hk
      rfl
    · rw [List.getElem?_set_ne hj] at hk
      by_cases hi : i = k
      · subst hi
        rw [List.getElem?_set_self (List.getElem?_eq_some_iff.mp ha).1] at hk
        cases Option.some.inj hk
        rfl
      · rw [List.getElem?_set_ne hi] at hk
        exact hh k s hk
  · exact hh

theorem Indexed.upLoop {h : List (Slot α)} (hh : Indexed h) (fuel j : ℕ) :
    Indexed (upLoop key fuel h j) := by
  induction fuel generalizing h j with
  | zero => exact hh
  | succ fuel ih =>
    simp only [IndexedHeap.upLoop]
    split
    · exact hh
    · exact ih (hh.swap _ _) _

theorem Indexed.downLoop {h : List (Slot α)} (hh : Indexed h) (fuel i n : ℕ) :
    Indexed (downLoop key fuel h i n) := by
  induction fuel generalizing h i with
  | zero => exact hh
  | succ fuel ih =>
    simp only [IndexedHeap.downLoop]
    split
    · exact hh
    · exact ih (hh.swap _ _) _

theorem Indexed.dropLast {h : List (Slot α)} (hh : Indexed h) : Indexed h.dropLast := by
  intro i s hi
  apply hh
  rw [List.getElem?_dropLast] at hi
  split at hi
  · exact hi
  · contradiction

theorem indexed_empty : Indexed (MinHeap.empty key).slots := by
  intro i s hi
  simp [MinHeap.empty] at hi

theorem Indexed.push {h : MinHeap key} (hh : Indexed h.slots) (x : α) :
    Indexed (h.push x).slots := by
  apply Indexed.upLoop
  intro i s hi
  rcases Nat.lt_trichotomy i h.slots.length with hlt | heq | hgt
  · rw [List.getElem?_append_left hlt] at hi
    exact hh i s hi
  · subst heq
    rw [List.getElem?_concat_length] at hi
    cases Option.some.inj hi
    rfl
  · rw [List.getElem?_eq_none (by simp; omega)] at hi
    contradiction

theorem Indexed.pop {h rest : MinHeap key} {s : Slot α} (hh : Indexed h.slots)
    (hp : h.pop = some (s, rest)) : Indexed rest.slots := by
  unfold MinHeap.pop at hp
  obtain ⟨t, -, heq⟩ := Option.map_eq_some_iff.mp hp
  cases heq
  exact ((hh.swap _ _).downLoop _ _ _).dropLast

theorem Indexed.remove {h rest : MinHeap key} {i : ℕ} (hh : Indexed h.slots)
    (hr : h.remove i = some rest) : Indexed rest.slots := by
  unfold MinHeap.remove at hr
  split at hr
  · cases Option.some.inj hr
    apply Indexed.dropLast
    apply MinHeap.unlinked_cases h i (P := Indexed)
    · intro _
      exact hh
    · intro _ _
      exact (hh.swap _ _).downLoop _ _ _
    · intro _ _
      exact (hh.swap _ _).upLoop _ _
  · contradiction

end Positions

end Arcturus.IndexedHeap
