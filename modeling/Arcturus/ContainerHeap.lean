import Arcturus.HeapRemoval

/-!
The functions of `container/heap` over its interface, the rules for proving something about
them, and the slice of slots as an instance. Two collections that answer the interface alike are
changed alike, and what every exchange keeps the sift loops keep.
-/

namespace Arcturus.ContainerHeap

/-- `heap.Interface`. `pop` has no result where it panics. -/
structure Interface (σ ι : Type*) where
  len : σ → ℕ
  less : σ → ℕ → ℕ → Bool
  swap : σ → ℕ → ℕ → σ
  push : σ → ι → σ
  pop : σ → Option (ι × σ)

variable {σ τ ι : Type*}

namespace Interface

variable (I : Interface σ ι)

def upLoop : ℕ → σ → ℕ → σ
  | 0, s, _ => s
  | fuel + 1, s, j =>
    let i := (j - 1) / 2
    if i = j ∨ ¬ I.less s j i then s else upLoop fuel (I.swap s i j) i

/-- Each round moves to the parent, so `j` rounds reach the root. -/
def up (s : σ) (j : ℕ) : σ := I.upLoop j s j

/-- The right child is taken only if it is smaller. -/
def child (s : σ) (i n : ℕ) : ℕ :=
  if 2 * i + 2 < n ∧ I.less s (2 * i + 2) (2 * i + 1) then 2 * i + 2 else 2 * i + 1

def downLoop : ℕ → σ → ℕ → ℕ → σ × ℕ
  | 0, s, i, _ => (s, i)
  | fuel + 1, s, i, n =>
    if 2 * i + 1 ≥ n then (s, i)
    else
      let j := I.child s i n
      if ¬ I.less s j i then (s, i) else downLoop fuel (I.swap s i j) j n

/-- The second component says whether the entry moved. Each round at least doubles the
position, so `n` rounds are enough. -/
def down (s : σ) (i0 n : ℕ) : σ × Bool :=
  let r := I.downLoop n s i0 n
  (r.1, decide (i0 < r.2))

def heapPush (s : σ) (x : ι) : σ :=
  let s := I.push s x
  I.up s (I.len s - 1)

/-- The exchange with the last entry panics on an empty collection. -/
def heapPop (s : σ) : Option (ι × σ) :=
  if I.len s = 0 then none
  else
    let n := I.len s - 1
    I.pop (I.down (I.swap s 0 n) 0 n).1

/-- The exchange panics at a position out of range. -/
def heapRemove (s : σ) (i : ℤ) : Option (ι × σ) :=
  if 0 ≤ i ∧ i < I.len s then
    let n := I.len s - 1
    if n = i.toNat then I.pop s
    else
      let r := I.down (I.swap s i.toNat n) i.toNat n
      I.pop (if r.2 then r.1 else I.up r.1 i.toNat)
  else none

end Interface

section Keeping

variable {I : Interface σ ι} {P : σ → Prop}

theorem upLoop_keeps (hswap : ∀ s i j, P s → P (I.swap s i j)) (fuel : ℕ) {s : σ} (h : P s)
    (j : ℕ) : P (I.upLoop fuel s j) := by
  induction fuel generalizing s j with
  | zero => exact h
  | succ fuel ih =>
    rw [Interface.upLoop]
    split
    · exact h
    · exact ih (hswap s _ _ h) _

theorem downLoop_keeps (hswap : ∀ s i j, P s → P (I.swap s i j)) (fuel : ℕ) {s : σ} (h : P s)
    (i n : ℕ) : P (I.downLoop fuel s i n).1 := by
  induction fuel generalizing s i with
  | zero => exact h
  | succ fuel ih =>
    rw [Interface.downLoop]
    split
    · exact h
    · dsimp only
      split
      · exact h
      · exact ih (hswap s _ _ h) _

/-- What every exchange keeps holds when the last entry is taken off. -/
theorem exists_of_heapPop {s s' : σ} {x : ι} (hswap : ∀ s i j, P s → P (I.swap s i j)) (h : P s)
    (hp : I.heapPop s = some (x, s')) : ∃ t, P t ∧ I.pop t = some (x, s') := by
  unfold Interface.heapPop at hp
  split at hp
  · contradiction
  · exact ⟨_, downLoop_keeps hswap _ (hswap s _ _ h) _ _, hp⟩

theorem exists_of_heapRemove {s s' : σ} {x : ι} {i : ℤ}
    (hswap : ∀ s i j, P s → P (I.swap s i j)) (h : P s)
    (hr : I.heapRemove s i = some (x, s')) : ∃ t, P t ∧ I.pop t = some (x, s') := by
  unfold Interface.heapRemove at hr
  split at hr
  · dsimp only at hr
    split at hr
    · exact ⟨s, h, hr⟩
    · refine ⟨_, ?_, hr⟩
      have hdown := downLoop_keeps hswap (I.len s - 1) (hswap s i.toNat (I.len s - 1) h) i.toNat
        (I.len s - 1)
      split
      · exact hdown
      · exact upLoop_keeps hswap _ hdown _
  · contradiction

end Keeping

section Simulation

theorem exists_of_rel_some {α β : Type*} {R : α → β → Prop} {a : α} {o : Option β}
    (h : Option.Rel R (some a) o) : ∃ b, o = some b ∧ R a b := by
  cases h with
  | some hab => exact ⟨_, rfl, hab⟩

theorem exists_of_some_rel {α β : Type*} {R : α → β → Prop} {o : Option α} {b : β}
    (h : Option.Rel R o (some b)) : ∃ a, o = some a ∧ R a b := by
  cases h with
  | some hab => exact ⟨_, rfl, hab⟩

/-- Related collections have the same length and answers, and exchanging keeps them related. -/
structure Simulates (I : Interface σ ι) (J : Interface τ ι) (R : σ → τ → Prop) : Prop where
  len : ∀ {s t}, R s t → I.len s = J.len t
  less : ∀ {s t}, R s t → ∀ i j, I.less s i j = J.less t i j
  swap : ∀ {s t}, R s t → ∀ i j, R (I.swap s i j) (J.swap t i j)
  pop : ∀ {s t}, R s t → Option.Rel (fun p q => p.1 = q.1 ∧ R p.2 q.2) (I.pop s) (J.pop t)

namespace Simulates

variable {I : Interface σ ι} {J : Interface τ ι} {R : σ → τ → Prop} {s : σ} {t : τ}

theorem upLoop (h : Simulates I J R) (hr : R s t) (fuel j : ℕ) :
    R (I.upLoop fuel s j) (J.upLoop fuel t j) := by
  induction fuel generalizing s t j with
  | zero => exact hr
  | succ fuel ih =>
    simp only [Interface.upLoop, h.less hr]
    split
    · exact hr
    · exact ih (h.swap hr _ _) _

theorem downLoop (h : Simulates I J R) (hr : R s t) (fuel i n : ℕ) :
    R (I.downLoop fuel s i n).1 (J.downLoop fuel t i n).1 ∧
      (I.downLoop fuel s i n).2 = (J.downLoop fuel t i n).2 := by
  induction fuel generalizing s t i with
  | zero => exact ⟨hr, rfl⟩
  | succ fuel ih =>
    have hchild : I.child s i n = J.child t i n := by simp only [Interface.child, h.less hr]
    simp only [Interface.downLoop, hchild, h.less hr]
    split
    · exact ⟨hr, rfl⟩
    · split
      · exact ⟨hr, rfl⟩
      · exact ih (h.swap hr _ _) _

theorem down (h : Simulates I J R) (hr : R s t) (i n : ℕ) :
    R (I.down s i n).1 (J.down t i n).1 ∧ (I.down s i n).2 = (J.down t i n).2 := by
  obtain ⟨hstate, hpos⟩ := h.downLoop hr n i n
  exact ⟨hstate, by rw [Interface.down, Interface.down, hpos]⟩

theorem heapPush (h : Simulates I J R) {x : ι} (hr : R (I.push s x) (J.push t x)) :
    R (I.heapPush s x) (J.heapPush t x) := by
  rw [Interface.heapPush, Interface.heapPush, h.len hr]
  exact h.upLoop hr _ _

theorem heapPop (h : Simulates I J R) (hr : R s t) :
    Option.Rel (fun p q => p.1 = q.1 ∧ R p.2 q.2) (I.heapPop s) (J.heapPop t) := by
  rw [Interface.heapPop, Interface.heapPop, h.len hr]
  split
  · exact .none
  · exact h.pop (h.down (h.swap hr _ _) _ _).1

theorem heapRemove (h : Simulates I J R) (hr : R s t) (i : ℤ) :
    Option.Rel (fun p q => p.1 = q.1 ∧ R p.2 q.2) (I.heapRemove s i) (J.heapRemove t i) := by
  rw [Interface.heapRemove, Interface.heapRemove, h.len hr]
  split
  · dsimp only
    split
    · exact h.pop hr
    · obtain ⟨hstate, hmoved⟩ := h.down (h.swap hr i.toNat (J.len t - 1)) i.toNat (J.len t - 1)
      rw [hmoved]
      split
      · exact h.pop hstate
      · exact h.pop (h.upLoop hstate _ _)
  · exact .none

end Simulates

end Simulation

section Slots

open IndexedHeap

variable {κ : Type*} [LinearOrder κ] {key : ι → κ}

/-- A slice whose entries record their positions. -/
def slots (key : ι → κ) : Interface (List (Slot ι)) ι where
  len := List.length
  less := less key
  swap := swap
  push h x := h ++ [⟨x, h.length⟩]
  pop h := h.getLast?.map fun s => (s.val, h.dropLast)

theorem slots_upLoop (fuel : ℕ) (h : List (Slot ι)) (j : ℕ) :
    (slots key).upLoop fuel h j = IndexedHeap.upLoop key fuel h j := by
  induction fuel generalizing h j with
  | zero => rfl
  | succ fuel ih =>
    rw [Interface.upLoop, IndexedHeap.upLoop, ih]
    rfl

theorem slots_downLoop (fuel : ℕ) (h : List (Slot ι)) (i n : ℕ) :
    ((slots key).downLoop fuel h i n).1 = IndexedHeap.downLoop key fuel h i n := by
  induction fuel generalizing h i with
  | zero => rfl
  | succ fuel ih =>
    have hchild : (slots key).child h i n = smallerChild key h i n := rfl
    rw [Interface.downLoop, IndexedHeap.downLoop, ← ih, hchild]
    by_cases hn : n ≤ 2 * i + 1
    · rw [if_pos hn, if_pos (Or.inl hn)]
    · rw [if_neg hn]
      by_cases hless : less key h (smallerChild key h i n) i = true
      · rw [if_neg (not_or.mpr ⟨hn, not_not.mpr hless⟩)]
        exact congrArg Prod.fst (if_neg (not_not.mpr hless))
      · rw [if_pos (Or.inr hless)]
        exact congrArg Prod.fst (if_pos hless)

theorem slots_up (h : List (Slot ι)) (j : ℕ) : (slots key).up h j = IndexedHeap.up key h j :=
  slots_upLoop j h j

theorem slots_down (h : List (Slot ι)) (i n : ℕ) :
    ((slots key).down h i n).1 = IndexedHeap.down key h i n := slots_downLoop n h i n

theorem lt_child {I : Interface σ ι} {s : σ} {i n : ℕ} : i < I.child s i n := by
  unfold Interface.child
  split <;> omega

theorem le_downLoop {I : Interface σ ι} (fuel : ℕ) (s : σ) (i n : ℕ) :
    i ≤ (I.downLoop fuel s i n).2 := by
  induction fuel generalizing s i with
  | zero => exact le_rfl
  | succ fuel ih =>
    rw [Interface.downLoop]
    split
    · exact le_rfl
    · dsimp only
      split
      · exact le_rfl
      · exact le_trans lt_child.le (ih _ _)

/-- The entry moved exactly if the first comparison says so. -/
theorem slots_down_moved (h : List (Slot ι)) (i n : ℕ) :
    ((slots key).down h i n).2 = sinks key h i n := by
  have hchild : (slots key).child h i n = smallerChild key h i n := rfl
  unfold Interface.down sinks
  cases n with
  | zero => simp [Interface.downLoop]
  | succ n =>
    rw [Interface.downLoop, hchild]
    by_cases hn : n + 1 ≤ 2 * i + 1
    · simp [hn, Nat.not_lt.mpr hn]
    · rw [if_neg hn]
      by_cases hless : less key h (smallerChild key h i (n + 1)) i = true
      · have hmoved : i < ((slots key).downLoop n
            ((slots key).swap h i (smallerChild key h i (n + 1)))
            (smallerChild key h i (n + 1)) (n + 1)).2 :=
          lt_of_lt_of_le (hchild ▸ lt_child) (le_downLoop ..)
        have hgo : (slots key).less h (smallerChild key h i (n + 1)) i = true := hless
        simp only [hgo, not_true_eq_false, if_false]
        rw [decide_eq_true hmoved, decide_eq_true (show 2 * i + 1 < n + 1 by omega), hless]
        rfl
      · have hstay : ¬ (slots key).less h (smallerChild key h i (n + 1)) i = true := hless
        simp [hstay, hless]

theorem slots_heapPush (h : MinHeap key) (x : ι) :
    (slots key).heapPush h.slots x = (h.push x).slots := by
  rw [Interface.heapPush, slots_up]
  simp [slots, MinHeap.push]

theorem slots_heapPop (h : MinHeap key) :
    (slots key).heapPop h.slots = h.pop.map fun r => (r.1.val, r.2.slots) := by
  have hlen : (slots key).len h.slots = h.slots.length := rfl
  unfold Interface.heapPop
  simp only [slots_down, hlen]
  split
  · rename_i hempty
    have hnone : h.pop = none := by
      rw [h.pop_eq_none_iff, MinHeap.toList, vals, List.map_eq_nil_iff,
        ← List.length_eq_zero_iff]
      exact hempty
    rw [hnone]
    rfl
  · rw [MinHeap.pop, Option.map_map]
    rfl

/-- The entry at the position is taken out. -/
theorem slots_heapRemove {h : MinHeap key} {i : ℕ} {s : Slot ι} (hs : h.slots[i]? = some s) :
    ∃ rest, h.remove i = some rest ∧
      (slots key).heapRemove h.slots i = some (s.val, rest.slots) := by
  have hlen : (slots key).len h.slots = h.slots.length := rfl
  have hi : i < h.slots.length := (List.getElem?_eq_some_iff.mp hs).1
  refine ⟨_, dif_pos hi, ?_⟩
  have hrun : (slots key).heapRemove h.slots i = (slots key).pop (h.unlinked i) := by
    rw [Interface.heapRemove, hlen, if_pos ⟨Int.natCast_nonneg i, by exact_mod_cast hi⟩]
    simp only [Int.toNat_natCast, slots_down_moved, slots_down, slots_up, MinHeap.unlinked]
    by_cases hlast : i = h.slots.length - 1
    · rw [if_pos hlast.symm, if_pos hlast]
    · rw [if_neg (Ne.symm hlast), if_neg hlast]
      rfl
  have hlast : (h.unlinked i).getLast?.map Slot.val = some s.val := by
    have hpos := MinHeap.unlinked_last hi
    rw [MinHeap.toList, vals, vals, List.getElem?_map, List.getElem?_map, hs,
      Option.map_some] at hpos
    rw [List.getLast?_eq_getElem?, MinHeap.length_unlinked, hpos]
  obtain ⟨t, ht, hval⟩ := Option.map_eq_some_iff.mp hlast
  rw [hrun]
  change (h.unlinked i).getLast?.map _ = _
  rw [ht, ← hval]
  rfl

theorem root_of_pop {h rest : MinHeap key} {s : Slot ι} (hp : h.pop = some (s, rest)) :
    h.toList[0]? = some s.val := by
  unfold MinHeap.pop at hp
  obtain ⟨t, ht, heq⟩ := Option.map_eq_some_iff.mp hp
  cases heq
  rw [← h.sifted_last, ← h.length_sifted, vals, List.getElem?_map, ← List.getLast?_eq_getElem?, ht]
  rfl

/-- Heap order by the entries themselves. -/
theorem heapOrder_iff {l : List (Slot ι)} : HeapOrder (keyAt key l.length l) ↔
    ∀ i x p, (vals l)[i]? = some x → (vals l)[parent i]? = some p → key p ≤ key x := by
  have hval : ∀ {i x}, (vals l)[i]? = some x → keyAt key l.length l i = (key x : WithTop κ) := by
    intro i x hx
    have hi : i < l.length := by simpa [vals] using (List.getElem?_eq_some_iff.mp hx).1
    rw [keyAt, if_pos hi, hx]
    rfl
  constructor
  · intro h i x p hx hp
    have hle := h i
    rw [hval hx, hval hp] at hle
    exact WithTop.coe_le_coe.mp hle
  · intro h i
    rcases Nat.lt_or_ge i (vals l).length with hi | hi
    · have hp : parent i < (vals l).length := by
        unfold parent
        omega
      rw [hval (List.getElem?_eq_getElem hi), hval (List.getElem?_eq_getElem hp)]
      exact WithTop.coe_le_coe.mpr
        (h i _ _ (List.getElem?_eq_getElem hi) (List.getElem?_eq_getElem hp))
    · have htop : keyAt key l.length l i = ⊤ := keyAt_of_le l (by simpa [vals] using hi)
      rw [htop]
      exact le_top

end Slots

end Arcturus.ContainerHeap
