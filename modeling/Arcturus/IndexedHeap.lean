import Mathlib.Order.WithBot
import Mathlib.Logic.Equiv.Basic
import Mathlib.Data.List.Perm.Basic
import Mathlib.Tactic.Linarith

/-!
Binary heaps over a slice whose entries record their own position. The sift
loops are the standard ones: `up` swaps an entry with its parent while it is
smaller, `down` swaps it with its smaller child below a cut-off. Positions past
the cut-off read as the top key, so heap order needs no bound on the index.
A `MinHeap` carries its order; push and pop are stated on the stored values.
-/

namespace Arcturus.IndexedHeap

/-- A heap entry: the stored value and the position recorded in it. -/
structure Slot (α : Type*) where
  val : α
  index : ℤ
  deriving DecidableEq, Repr

variable {α κ : Type*} [LinearOrder κ]

def parent (i : ℕ) : ℕ := (i - 1) / 2

theorem parent_lt {i : ℕ} (h : 0 < i) : parent i < i := by
  unfold parent
  omega

/-- Every key is at least the key of its parent. -/
def HeapOrder (f : ℕ → κ) : Prop := ∀ i, f (parent i) ≤ f i

/-- Heap order that may fail between `j` and its parent only. -/
structure UpOrder (f : ℕ → κ) (j : ℕ) : Prop where
  off : ∀ i, i ≠ j → f (parent i) ≤ f i
  grand : 0 < j → ∀ c, parent c = j → f (parent j) ≤ f c

/-- Heap order that may fail between `i` and its children only. -/
structure DownOrder (f : ℕ → κ) (i : ℕ) : Prop where
  off : ∀ c, parent c ≠ i → f (parent c) ≤ f c
  grand : 0 < i → ∀ c, parent c = i → f (parent i) ≤ f c

theorem UpOrder.stop {f : ℕ → κ} {j : ℕ} (h : UpOrder f j) (hj : f (parent j) ≤ f j) :
    HeapOrder f := by
  intro i
  by_cases hi : i = j
  · subst hi
    exact hj
  · exact h.off i hi

/-- One swap with the parent moves the only possible disorder to the parent. -/
theorem UpOrder.move {f : ℕ → κ} {j : ℕ} (h : UpOrder f j) (hpos : 0 < j)
    (hlt : f j < f (parent j)) : UpOrder (f ∘ Equiv.swap (parent j) j) (parent j) := by
  have hpj : parent j < j := parent_lt hpos
  have hat : ∀ i, i ≠ parent j → i ≠ j → (f ∘ Equiv.swap (parent j) j) i = f i := by
    intro i hp hi
    simp [Equiv.swap_apply_of_ne_of_ne hp hi]
  have hj : (f ∘ Equiv.swap (parent j) j) j = f (parent j) := by simp
  have hp : (f ∘ Equiv.swap (parent j) j) (parent j) = f j := by simp
  constructor
  · intro i hi
    by_cases hij : i = j
    · subst hij
      rw [hj, hp]
      exact hlt.le
    · rw [hat i hi hij]
      by_cases hpi : parent i = parent j
      · rw [hpi, hp]
        exact hlt.le.trans (hpi ▸ h.off i hij)
      · by_cases hpij : parent i = j
        · rw [hpij, hj]
          exact h.grand hpos i hpij
        · rw [hat (parent i) hpi hpij]
          exact h.off i hij
  · intro hpp c hc
    have hup : parent (parent j) < parent j := parent_lt hpp
    rw [hat (parent (parent j)) (by omega) (by omega)]
    by_cases hcj : c = j
    · subst hcj
      rw [hj]
      exact h.off (parent c) (by omega)
    · have hcp : c ≠ parent j := by
        intro heq
        subst heq
        omega
      rw [hat c hcp hcj]
      exact (h.off (parent j) (by omega)).trans (hc ▸ h.off c hcj)

theorem DownOrder.stop {f : ℕ → κ} {i : ℕ} (h : DownOrder f i)
    (hc : ∀ c, parent c = i → f i ≤ f c) : HeapOrder f := by
  intro c
  by_cases hci : parent c = i
  · rw [hci]
    exact hc c hci
  · exact h.off c hci

/-- One swap with the smallest child moves the only possible disorder to it. -/
theorem DownOrder.move {f : ℕ → κ} {i j : ℕ} (h : DownOrder f i) (hij : i < j)
    (hpj : parent j = i) (hmin : ∀ c, parent c = i → 0 < c → f j ≤ f c) (hlt : f j < f i) :
    DownOrder (f ∘ Equiv.swap i j) j := by
  have hat : ∀ c, c ≠ i → c ≠ j → (f ∘ Equiv.swap i j) c = f c := by
    intro c hi hj
    simp [Equiv.swap_apply_of_ne_of_ne hi hj]
  have hi : (f ∘ Equiv.swap i j) i = f j := by simp
  have hj : (f ∘ Equiv.swap i j) j = f i := by simp
  constructor
  · intro c hc
    by_cases hci : c = i
    · subst hci
      rw [hi]
      rcases Nat.eq_zero_or_pos c with rfl | hpos
      · have : parent 0 = 0 := rfl
        rw [this, hi]
      · have hlt' := parent_lt hpos
        rw [hat (parent c) (by omega) (by omega)]
        exact h.grand hpos j hpj
    · by_cases hpc : parent c = i
      · have hcpos : 0 < c := by
          rcases Nat.eq_zero_or_pos c with rfl | hpos
          · exact absurd hpc (by unfold parent; omega)
          · exact hpos
        rw [hpc, hi]
        by_cases hcj : c = j
        · subst hcj
          rw [hj]
          exact hlt.le
        · rw [hat c hci hcj]
          exact hmin c hpc hcpos
      · have hcj : c ≠ j := fun he => hpc (he ▸ hpj)
        rw [hat c hci hcj, hat (parent c) hpc hc]
        exact h.off c hpc
  · intro hpos c hc
    have hjc : j < c := by
      unfold parent at hc
      omega
    rw [hpj, hi, hat c (by omega) (by omega)]
    exact hc ▸ h.off c (by omega)

/-- The root of a heap-ordered slice carries the least key. -/
theorem HeapOrder.root_le {f : ℕ → κ} (h : HeapOrder f) (i : ℕ) : f 0 ≤ f i := by
  induction i using Nat.strong_induction_on with
  | h i ih =>
    rcases Nat.eq_zero_or_pos i with rfl | hpos
    · exact le_rfl
    · exact (ih (parent i) (parent_lt hpos)).trans (h i)

/-- The stored values, in slice order. -/
def vals (h : List (Slot α)) : List α := h.map Slot.val

/-- Exchange two entries and rewrite the position recorded in each. -/
def swap (h : List (Slot α)) (i j : ℕ) : List (Slot α) :=
  match h[i]?, h[j]? with
  | some a, some b => (h.set i { b with index := i }).set j { a with index := j }
  | _, _ => h

section Sift
variable (key : α → κ)

def less (h : List (Slot α)) (i j : ℕ) : Bool :=
  match h[i]?, h[j]? with
  | some a, some b => decide (key a.val < key b.val)
  | _, _ => false

/-- The key at a position below the cut-off `n`, and the top key elsewhere. -/
def keyAt (n : ℕ) (h : List (Slot α)) (i : ℕ) : WithTop κ :=
  if i < n then ((vals h)[i]?).elim ⊤ (fun a => (key a : WithTop κ)) else ⊤

def upLoop : ℕ → List (Slot α) → ℕ → List (Slot α)
  | 0, h, _ => h
  | fuel + 1, h, j =>
    if parent j = j ∨ ¬ less key h j (parent j) then h
    else upLoop fuel (swap h (parent j) j) (parent j)

/-- Each step moves to the parent, so `j` steps reach the root. -/
def up (h : List (Slot α)) (j : ℕ) : List (Slot α) := upLoop key j h j

/-- The child that `down` compares with: the right one only if strictly smaller. -/
def smallerChild (h : List (Slot α)) (i n : ℕ) : ℕ :=
  if 2 * i + 2 < n ∧ less key h (2 * i + 2) (2 * i + 1) then 2 * i + 2 else 2 * i + 1

def downLoop : ℕ → List (Slot α) → ℕ → ℕ → List (Slot α)
  | 0, h, _, _ => h
  | fuel + 1, h, i, n =>
    if n ≤ 2 * i + 1 ∨ ¬ less key h (smallerChild key h i n) i then h
    else downLoop fuel (swap h i (smallerChild key h i n)) (smallerChild key h i n) n

/-- Each step at least doubles the position, so `n` steps pass the cut-off. -/
def down (h : List (Slot α)) (i n : ℕ) : List (Slot α) := downLoop key n h i n

end Sift

theorem vals_swap (h : List (Slot α)) {i j : ℕ} (hi : i < h.length) (hj : j < h.length) :
    vals (swap h i j) =
      ((vals h).set i (h[j].val)).set j (h[i].val) := by
  simp [swap, vals, List.getElem?_eq_getElem hi, List.getElem?_eq_getElem hj, List.map_set]

@[simp] theorem length_swap (h : List (Slot α)) (i j : ℕ) : (swap h i j).length = h.length := by
  unfold swap
  split <;> simp

theorem swap_perm (h : List (Slot α)) {i j : ℕ} (hi : i < h.length) (hj : j < h.length) :
    (vals (swap h i j)).Perm (vals h) := by
  rw [vals_swap h hi hj]
  have hperm := @List.set_set_perm _ (vals h) i j
    (by simpa [vals] using hi) (by simpa [vals] using hj)
  simpa [vals] using hperm

theorem getElem?_vals_swap (h : List (Slot α)) {i j : ℕ} (hi : i < h.length)
    (hj : j < h.length) (k : ℕ) :
    (vals (swap h i j))[k]? = (vals h)[Equiv.swap i j k]? := by
  rw [vals_swap h hi hj]
  by_cases hki : k = i
  · subst hki
    by_cases hkj : k = j
    · subst hkj
      simp [vals, hi]
    · simp [Ne.symm hkj, vals, hi, hj]
  · by_cases hkj : k = j
    · subst hkj
      simp [vals, hi, hj]
    · rw [Equiv.swap_apply_of_ne_of_ne hki hkj]
      simp [Ne.symm hki, Ne.symm hkj]

section Spec
variable {key : α → κ}

omit [LinearOrder κ] in
theorem keyAt_swap (h : List (Slot α)) {n i j : ℕ} (hn : n ≤ h.length) (hi : i < n) (hj : j < n) :
    keyAt key n (swap h i j) = keyAt key n h ∘ Equiv.swap i j := by
  funext k
  have hk : Equiv.swap i j k < n ↔ k < n := by
    by_cases hki : k = i
    · subst hki
      simp [hi, hj]
    · by_cases hkj : k = j
      · subst hkj
        simp [hi, hj]
      · rw [Equiv.swap_apply_of_ne_of_ne hki hkj]
  simp only [keyAt, Function.comp_apply, hk,
    getElem?_vals_swap h (hi.trans_le hn) (hj.trans_le hn)]

theorem less_iff (h : List (Slot α)) {n i j : ℕ} (hn : n ≤ h.length) (hi : i < n) (hj : j < n) :
    less key h i j = true ↔ keyAt key n h i < keyAt key n h j := by
  have hi' : i < h.length := hi.trans_le hn
  have hj' : j < h.length := hj.trans_le hn
  simp [less, keyAt, vals, hi, hj, hi', hj']

omit [LinearOrder κ] in
theorem keyAt_of_le (h : List (Slot α)) {n i : ℕ} (hi : n ≤ i) : keyAt key n h i = ⊤ := by
  simp [keyAt, Nat.not_lt.mpr hi]

@[simp] theorem length_upLoop (fuel : ℕ) (h : List (Slot α)) (j : ℕ) :
    (upLoop key fuel h j).length = h.length := by
  induction fuel generalizing h j with
  | zero => rfl
  | succ fuel ih =>
    simp only [upLoop]
    split
    · rfl
    · rw [ih, length_swap]

theorem upLoop_perm (key : α → κ) (fuel : ℕ) (h : List (Slot α)) {j : ℕ} (hj : j < h.length) :
    (vals (upLoop key fuel h j)).Perm (vals h) := by
  induction fuel generalizing h j with
  | zero => exact List.Perm.refl _
  | succ fuel ih =>
    simp only [upLoop]
    split
    · exact List.Perm.refl _
    · have hp : parent j < h.length := by
        unfold parent
        omega
      exact (ih (swap h (parent j) j) (by simpa using hp)).trans (swap_perm h hp hj)

/-- Entries above the start of the sift stay where they are. -/
theorem upLoop_frame (key : α → κ) (fuel : ℕ) (h : List (Slot α)) {j : ℕ} (hj : j < h.length)
    {k : ℕ} (hk : j < k) : (vals (upLoop key fuel h j))[k]? = (vals h)[k]? := by
  induction fuel generalizing h j with
  | zero => rfl
  | succ fuel ih =>
    simp only [upLoop]
    split
    · rfl
    · have hp : parent j ≤ j := by
        unfold parent
        omega
      rw [ih (swap h (parent j) j) (by simpa using hp.trans_lt hj) (hp.trans_lt hk),
        getElem?_vals_swap h (hp.trans_lt hj) hj,
        Equiv.swap_apply_of_ne_of_ne (by omega) (by omega)]

/-- Sifting up repairs the one pair below the cut-off that may be out of order. -/
theorem upLoop_order (fuel : ℕ) (h : List (Slot α)) {j n : ℕ} (hlen : n ≤ h.length) (hj : j < n)
    (hfuel : j ≤ fuel) (ho : UpOrder (keyAt key n h) j) :
    HeapOrder (keyAt key n (upLoop key fuel h j)) := by
  induction fuel generalizing h j with
  | zero =>
    have hj0 : j = 0 := by omega
    subst hj0
    exact ho.stop le_rfl
  | succ fuel ih =>
    simp only [upLoop]
    split
    · rename_i hstop
      rcases hstop with heq | hnot
      · exact ho.stop (by rw [heq])
      · have hp : parent j < n := by
          unfold parent
          omega
        rw [less_iff h hlen hj hp, not_lt] at hnot
        exact ho.stop hnot
    · rename_i hgo
      simp only [not_or, not_not] at hgo
      obtain ⟨hne, hlt⟩ := hgo
      have hpos : 0 < j := by
        rcases Nat.eq_zero_or_pos j with rfl | hpos
        · exact absurd rfl hne
        · exact hpos
      have hpj : parent j < j := parent_lt hpos
      have hp : parent j < n := hpj.trans hj
      rw [less_iff h hlen hj hp] at hlt
      apply ih (swap h (parent j) j) (by simpa using hlen) hp (by omega)
      rw [keyAt_swap h hlen hp hj]
      exact ho.move hpos hlt

@[simp] theorem length_downLoop (fuel : ℕ) (h : List (Slot α)) (i n : ℕ) :
    (downLoop key fuel h i n).length = h.length := by
  induction fuel generalizing h i with
  | zero => rfl
  | succ fuel ih =>
    simp only [downLoop]
    split
    · rfl
    · rw [ih, length_swap]

theorem smallerChild_cases (key : α → κ) (h : List (Slot α)) (i n : ℕ) :
    smallerChild key h i n = 2 * i + 1 ∨
      (smallerChild key h i n = 2 * i + 2 ∧ 2 * i + 2 < n) := by
  unfold smallerChild
  split
  · rename_i hc
    exact Or.inr ⟨rfl, hc.1⟩
  · exact Or.inl rfl

theorem smallerChild_lt (key : α → κ) (h : List (Slot α)) {i n : ℕ} (hn : 2 * i + 1 < n) :
    smallerChild key h i n < n := by
  rcases smallerChild_cases key h i n with he | ⟨he, hlt⟩ <;> omega

theorem parent_smallerChild (key : α → κ) (h : List (Slot α)) (i n : ℕ) :
    parent (smallerChild key h i n) = i := by
  unfold parent
  rcases smallerChild_cases key h i n with he | ⟨he, -⟩ <;> omega

/-- No child below the cut-off has a smaller key than the chosen one. -/
theorem smallerChild_le (key : α → κ) (h : List (Slot α)) {i n : ℕ} (hlen : n ≤ h.length)
    (hn : 2 * i + 1 < n) (c : ℕ) (hc : parent c = i) (hpos : 0 < c) :
    keyAt key n h (smallerChild key h i n) ≤ keyAt key n h c := by
  have hcase : c = 2 * i + 1 ∨ c = 2 * i + 2 := by
    unfold parent at hc
    omega
  unfold smallerChild
  split
  · rename_i hright
    obtain ⟨hr, hlt⟩ := hright
    rw [less_iff h hlen hr hn] at hlt
    rcases hcase with rfl | rfl
    · exact hlt.le
    · exact le_rfl
  · rename_i hleft
    rcases hcase with rfl | rfl
    · exact le_rfl
    · by_cases hr : 2 * i + 2 < n
      · have hnot : ¬ less key h (2 * i + 2) (2 * i + 1) = true := fun hl => hleft ⟨hr, hl⟩
        rw [less_iff h hlen hr hn, not_lt] at hnot
        exact hnot
      · rw [keyAt_of_le h (Nat.not_lt.mp hr)]
        exact le_top

theorem downLoop_perm (key : α → κ) (fuel : ℕ) (h : List (Slot α)) {i n : ℕ} (hlen : n ≤ h.length)
    (hi : i < n) : (vals (downLoop key fuel h i n)).Perm (vals h) := by
  induction fuel generalizing h i with
  | zero => exact List.Perm.refl _
  | succ fuel ih =>
    simp only [downLoop]
    split
    · exact List.Perm.refl _
    · rename_i hgo
      simp only [not_or, not_le] at hgo
      have hc := smallerChild_lt key h hgo.1
      exact (ih (swap h i (smallerChild key h i n)) (by simpa using hlen) hc).trans
        (swap_perm h (hi.trans_le hlen) (hc.trans_le hlen))

/-- Entries at and after the cut-off stay where they are. -/
theorem downLoop_frame (key : α → κ) (fuel : ℕ) (h : List (Slot α)) {i n : ℕ} (hlen : n ≤ h.length)
    (hi : i < n) {k : ℕ} (hk : n ≤ k) :
    (vals (downLoop key fuel h i n))[k]? = (vals h)[k]? := by
  induction fuel generalizing h i with
  | zero => rfl
  | succ fuel ih =>
    simp only [downLoop]
    split
    · rfl
    · rename_i hgo
      simp only [not_or, not_le] at hgo
      have hc := smallerChild_lt key h hgo.1
      rw [ih (swap h i (smallerChild key h i n)) (by simpa using hlen) hc,
        getElem?_vals_swap h (hi.trans_le hlen) (hc.trans_le hlen),
        Equiv.swap_apply_of_ne_of_ne (by omega) (by omega)]

/-- Sifting down repairs the pairs below one position. -/
theorem downLoop_order (fuel : ℕ) (h : List (Slot α)) {i n : ℕ} (hlen : n ≤ h.length)
    (hi : i < n) (hfuel : n ≤ i + fuel) (ho : DownOrder (keyAt key n h) i) :
    HeapOrder (keyAt key n (downLoop key fuel h i n)) := by
  induction fuel generalizing h i with
  | zero => omega
  | succ fuel ih =>
    simp only [downLoop]
    split
    · rename_i hstop
      apply ho.stop
      intro c hc
      rcases Nat.eq_zero_or_pos c with rfl | hpos
      · have hi0 : i = 0 := hc.symm
        rw [hi0]
      · by_cases hn : 2 * i + 1 < n
        · have hnot : ¬ less key h (smallerChild key h i n) i = true := by
            rcases hstop with hle | hnot
            · omega
            · exact hnot
          rw [less_iff h hlen (smallerChild_lt key h hn) hi, not_lt] at hnot
          exact hnot.trans (smallerChild_le key h hlen hn c hc hpos)
        · have hcn : n ≤ c := by
            unfold parent at hc
            omega
          rw [keyAt_of_le h hcn]
          exact le_top
    · rename_i hgo
      simp only [not_or, not_le, not_not] at hgo
      obtain ⟨hn, hlt⟩ := hgo
      have hc := smallerChild_lt key h hn
      have hic : i < smallerChild key h i n := by
        rcases smallerChild_cases key h i n with he | ⟨he, -⟩ <;> omega
      rw [less_iff h hlen hc hi] at hlt
      apply ih (swap h i (smallerChild key h i n)) (by simpa using hlen) hc (by omega)
      rw [keyAt_swap h hlen hi hc]
      exact ho.move hic (parent_smallerChild key h i n)
        (fun c hpc hpos => smallerChild_le key h hlen hn c hpc hpos) hlt

end Spec

/-- A slice that is in heap order by `key`. -/
structure MinHeap (key : α → κ) where
  slots : List (Slot α)
  order : HeapOrder (keyAt key slots.length slots)

namespace MinHeap

variable {key : α → κ}

def toList (h : MinHeap key) : List α := vals h.slots

def empty (key : α → κ) : MinHeap key :=
  ⟨[], fun i => by simp [keyAt]⟩

theorem pushed_order (h : MinHeap key) (x : α) :
    UpOrder (keyAt key (h.slots.length + 1) (h.slots ++ [⟨x, h.slots.length⟩]))
      h.slots.length := by
  have hold : ∀ i, i < h.slots.length →
      keyAt key (h.slots.length + 1) (h.slots ++ [⟨x, h.slots.length⟩]) i =
        keyAt key h.slots.length h.slots i := by
    intro i hi
    simp [keyAt, vals, hi, show i < h.slots.length + 1 by omega]
  constructor
  · intro i hi
    rcases Nat.lt_or_gt_of_ne hi with hlt | hgt
    · have hp : parent i < h.slots.length := by
        unfold parent
        omega
      rw [hold i hlt, hold (parent i) hp]
      exact h.order i
    · rw [keyAt_of_le _ (show h.slots.length + 1 ≤ i by omega)]
      exact le_top
  · intro hpos c hc
    have hcn : h.slots.length + 1 ≤ c := by
      unfold parent at hc
      omega
    rw [keyAt_of_le _ hcn]
    exact le_top

/-- Append the entry at the end, recording that position, and sift it up. -/
def push (h : MinHeap key) (x : α) : MinHeap key where
  slots := up key (h.slots ++ [⟨x, h.slots.length⟩]) h.slots.length
  order := by
    have ho := upLoop_order h.slots.length (h.slots ++ [⟨x, h.slots.length⟩])
      (n := h.slots.length + 1) (by simp) (Nat.lt_succ_self _) le_rfl (h.pushed_order x)
    simpa [up] using ho

theorem toList_push (h : MinHeap key) (x : α) : (h.push x).toList.Perm (x :: h.toList) := by
  have hperm := upLoop_perm key h.slots.length (h.slots ++ [⟨x, h.slots.length⟩])
    (j := h.slots.length) (by simp)
  have happ : vals (h.slots ++ [⟨x, h.slots.length⟩]) = vals h.slots ++ [x] := by simp [vals]
  rw [happ] at hperm
  exact hperm.trans (List.perm_append_singleton x (vals h.slots))

/-- The slice before its last entry is dropped: the root is exchanged with the
last entry and the new root is sifted down below it. -/
def sifted (h : MinHeap key) : List (Slot α) :=
  down key (swap h.slots 0 (h.slots.length - 1)) 0 (h.slots.length - 1)

theorem length_sifted (h : MinHeap key) : h.sifted.length = h.slots.length := by
  simp [sifted, down]

theorem sifted_perm (h : MinHeap key) : (vals h.sifted).Perm h.toList := by
  rcases Nat.lt_or_ge 1 h.slots.length with hlt | hge
  · have hswap := swap_perm h.slots (i := 0) (j := h.slots.length - 1) (by omega) (by omega)
    exact (downLoop_perm key _ _ (by simp) (by omega)).trans hswap
  · rcases Nat.eq_zero_or_pos h.slots.length with h0 | hpos
    · have hnil : h.slots = [] := List.length_eq_zero_iff.mp h0
      simp [sifted, toList, hnil, down, downLoop, swap]
    · have hn : h.slots.length - 1 = 0 := by omega
      unfold sifted
      rw [hn]
      exact swap_perm h.slots (by omega) (by omega)

theorem sifted_last (h : MinHeap key) :
    (vals h.sifted)[h.slots.length - 1]? = h.toList[0]? := by
  rcases Nat.eq_zero_or_pos h.slots.length with h0 | hpos
  · have hnil : h.slots = [] := List.length_eq_zero_iff.mp h0
    simp [sifted, toList, hnil, down, downLoop, swap]
  · have hswap := getElem?_vals_swap h.slots (i := 0) (j := h.slots.length - 1)
      hpos (by omega) (h.slots.length - 1)
    rw [Equiv.swap_apply_right] at hswap
    rcases Nat.eq_zero_or_pos (h.slots.length - 1) with hz | hlt
    · unfold sifted
      rw [hz]
      rw [hz] at hswap
      exact hswap
    · unfold sifted
      rw [down, downLoop_frame key _ _ (by simp) hlt le_rfl]
      exact hswap

theorem sifted_order (h : MinHeap key) :
    HeapOrder (keyAt key (h.slots.length - 1) h.sifted) := by
  rcases Nat.eq_zero_or_pos (h.slots.length - 1) with hz | hlt
  · intro i
    rw [hz, keyAt_of_le _ (Nat.zero_le i)]
    exact le_top
  · apply downLoop_order _ _ (by simp) hlt (by omega)
    constructor
    · intro c hc
      rcases Nat.lt_or_ge c (h.slots.length - 1) with hcn | hcn
      · have hkeep : ∀ i, 0 < i → i < h.slots.length - 1 →
            keyAt key (h.slots.length - 1) (swap h.slots 0 (h.slots.length - 1)) i =
              keyAt key h.slots.length h.slots i := by
          intro i hpos hi
          simp only [keyAt, hi, show i < h.slots.length by omega, if_true,
            getElem?_vals_swap h.slots (i := 0) (j := h.slots.length - 1) (by omega) (by omega),
            Equiv.swap_apply_of_ne_of_ne (show i ≠ 0 by omega)
              (show i ≠ h.slots.length - 1 by omega)]
        have hpc : 0 < parent c := Nat.pos_of_ne_zero hc
        have hlt' : parent c < c := parent_lt (by unfold parent at hpc; omega)
        rw [hkeep c (by omega) hcn, hkeep (parent c) hpc (by omega)]
        exact h.order c
      · rw [keyAt_of_le _ hcn]
        exact le_top
    · intro hpos
      omega

omit [LinearOrder κ] in
/-- Without its last entry a slice has the keys below the cut-off there. -/
theorem keyAt_dropLast (l : List (Slot α)) :
    keyAt key l.dropLast.length l.dropLast = keyAt key (l.length - 1) l := by
  funext i
  by_cases hi : i < l.length - 1
  · have hget : l[i]? = some l[i] := List.getElem?_eq_getElem (by omega)
    simp [keyAt, vals, hi, hget]
  · simp [keyAt, hi]

theorem popped_order (h : MinHeap key) :
    HeapOrder (keyAt key h.sifted.dropLast.length h.sifted.dropLast) := by
  rw [keyAt_dropLast, length_sifted]
  exact h.sifted_order

/-- Remove the root; the removed entry records position -1. -/
def pop (h : MinHeap key) : Option (Slot α × MinHeap key) :=
  h.sifted.getLast?.map fun s => ({ s with index := -1 }, ⟨h.sifted.dropLast, h.popped_order⟩)

theorem pop_eq_none_iff (h : MinHeap key) : h.pop = none ↔ h.toList = [] := by
  have hlen := h.length_sifted
  rw [pop, Option.map_eq_none_iff, List.getLast?_eq_none_iff, toList, vals, List.map_eq_nil_iff,
    ← List.length_eq_zero_iff, hlen, List.length_eq_zero_iff]

/-- Pop returns a stored value of least key and keeps all the others. -/
theorem pop_spec (h : MinHeap key) {s : Slot α} {rest : MinHeap key}
    (hp : h.pop = some (s, rest)) :
    h.toList.Perm (s.val :: rest.toList) ∧ ∀ x ∈ h.toList, key s.val ≤ key x := by
  unfold pop at hp
  rw [Option.map_eq_some_iff] at hp
  obtain ⟨t, ht, heq⟩ := hp
  obtain ⟨rfl, rfl⟩ := Prod.mk.inj heq
  have hsplit : h.sifted = h.sifted.dropLast ++ [t] :=
    (List.dropLast_append_getLast? t ht).symm
  have hvals : vals h.sifted = vals h.sifted.dropLast ++ [t.val] := by
    have := congrArg vals hsplit
    simpa [vals] using this
  constructor
  · have hperm := h.sifted_perm.symm
    rw [hvals] at hperm
    exact hperm.trans (List.perm_append_singleton t.val _)
  · have hlast := h.sifted_last
    have hlen := h.length_sifted
    have hne : h.slots.length ≠ 0 := by
      rw [← hlen, hsplit]
      simp
    have hroot : h.toList[0]? = some t.val := by
      rw [← hlast, hvals, ← hlen]
      have hd : (vals h.sifted.dropLast).length = h.sifted.length - 1 := by simp [vals]
      rw [← hd, List.getElem?_append_right le_rfl]
      simp
    intro x hx
    obtain ⟨i, hi⟩ := List.mem_iff_getElem?.mp hx
    have hi' : i < h.slots.length := by
      have := (List.getElem?_eq_some_iff.mp hi).1
      simpa [toList, vals] using this
    have hle := h.order.root_le i
    have h0 : keyAt key h.slots.length h.slots 0 = (key t.val : WithTop κ) := by
      have : (vals h.slots)[0]? = some t.val := hroot
      simp [keyAt, Nat.pos_of_ne_zero hne, this]
    have hx' : keyAt key h.slots.length h.slots i = (key x : WithTop κ) := by
      have : (vals h.slots)[i]? = some x := hi
      simp [keyAt, hi', this]
    rw [h0, hx'] at hle
    exact WithTop.coe_le_coe.mp hle

end MinHeap

end Arcturus.IndexedHeap
