import Arcturus.Aggregator
import Arcturus.ContainerHeap
import Arcturus.StepRuns

/-!
The deadline heap of the aggregator with its items behind pointers. The slice holds pointers,
and `Swap`, `Push` and `Pop` write the position into the item itself. Seen as a slice of slots
the heap is an instance of the indexed heaps, as long as no pointer is in it twice, so their
order carries over to every sequence of operations. The items outside keep their index, which is
-1 after a removal.
-/

namespace Arcturus.DeadlineHeap

open ContainerHeap StepRuns
open IndexedHeap (Slot vals keyAt HeapOrder parent Indexed)

variable {ι : Type*}

/-- The slice of pointers and the `index` field of every item. -/
structure MinHeap (ι : Type*) where
  slice : List ι
  index : ι → ℤ

namespace MinHeap

def less (h : MinHeap ι) (deadline : ι → ℤ) (i j : ℕ) : Bool :=
  match h.slice[i]?, h.slice[j]? with
  | some a, some b => decide (deadline a < deadline b)
  | _, _ => false

variable [DecidableEq ι] (h : MinHeap ι)

def swap (i j : ℕ) : MinHeap ι :=
  match h.slice[i]?, h.slice[j]? with
  | some a, some b =>
    { slice := (h.slice.set i b).set j a
      index := Function.update (Function.update h.index b i) a j }
  | _, _ => h

def push (item : ι) : MinHeap ι where
  slice := h.slice ++ [item]
  index := Function.update h.index item h.slice.length

def pop : Option (ι × MinHeap ι) :=
  h.slice.getLast?.map fun item =>
    (item, { slice := h.slice.dropLast, index := Function.update h.index item (-1) })

end MinHeap

inductive Event (ι : Type*) where
  | pushed (x : ι)
  | removed (x : ι)
  deriving DecidableEq, Repr

def Event.item : Event ι → ι
  | .pushed x => x
  | .removed x => x

structure State (ι : Type*) where
  heap : MinHeap ι
  log : List (Event ι)

/-- No item has been pushed; the index fields hold anything. -/
def start (index : ι → ℤ) : State ι := ⟨⟨[], index⟩, []⟩

inductive Op (ι : Type*) where
  | push (x : ι)
  | pop
  | remove (x : ι)
  deriving DecidableEq, Repr

section Operations

variable [DecidableEq ι] (deadline : ι → ℤ)

/-- The heap as `container/heap` sees it. The deadline of an item does not change. -/
def minHeap : Interface (MinHeap ι) ι where
  len h := h.slice.length
  less h := h.less deadline
  swap := MinHeap.swap
  push := MinHeap.push
  pop := MinHeap.pop

/-- The loop of `checkTimeout` under the lock: the expired items and what is left. The counter
bounds the rounds; the result is `none` if it runs out or `heap.Pop` panics. -/
def popExpired (now : ℤ) : ℕ → MinHeap ι → Option (List ι × MinHeap ι)
  | 0, _ => none
  | fuel + 1, h =>
    match h.slice with
    | [] => some ([], h)
    | b :: _ =>
      if deadline b > now then some ([], h)
      else
        ((minHeap deadline).heapPop h).bind fun popItem =>
          (popExpired now fuel popItem.2).map fun r => (popItem.1 :: r.1, r.2)

/-- An item is pushed while it is not in the heap, and removed at its recorded index while it
is. -/
def step (s : State ι) : Op ι → Option (State ι)
  | .push x =>
    if x ∈ s.heap.slice then none
    else some ⟨(minHeap deadline).heapPush s.heap x, s.log ++ [.pushed x]⟩
  | .pop => ((minHeap deadline).heapPop s.heap).map fun r => ⟨r.2, s.log ++ [.removed r.1]⟩
  | .remove x =>
    if x ∈ s.heap.slice then
      ((minHeap deadline).heapRemove s.heap (s.heap.index x)).map fun r =>
        ⟨r.2, s.log ++ [.removed r.1]⟩
    else none

end Operations

section Soundness

variable [DecidableEq ι]

/-- What happened last to an item. -/
def last (log : List (Event ι)) (x : ι) : Option (Event ι) :=
  log.reverse.find? fun e => e.item = x

def Held (log : List (Event ι)) (x : ι) : Prop := last log x = some (.pushed x)

def Removed (log : List (Event ι)) (x : ι) : Prop := last log x = some (.removed x)

/-- A min-heap by deadline that holds exactly the items pushed and not removed, each of them
at its index; the removed ones have index -1. -/
structure Sound (deadline : ι → ℤ) (s : State ι) : Prop where
  nodup : s.heap.slice.Nodup
  ordered : ∀ i x p, s.heap.slice[i]? = some x → s.heap.slice[parent i]? = some p →
    deadline p ≤ deadline x
  held : ∀ x, x ∈ s.heap.slice ↔ Held s.log x
  position : ∀ (i : ℕ) x, s.heap.slice[i]? = some x → s.heap.index x = i
  removed : ∀ x, Removed s.log x → s.heap.index x = -1

end Soundness

section View

variable {deadline : ι → ℤ} {h : MinHeap ι}

/-- The slice with the positions that its items record. -/
def view (h : MinHeap ι) : List (Slot ι) := h.slice.map fun x => ⟨x, h.index x⟩

theorem vals_view (h : MinHeap ι) : vals (view h) = h.slice := by
  rw [vals, view, List.map_map]
  exact List.map_id _

theorem length_view (h : MinHeap ι) : (view h).length = h.slice.length := List.length_map _

theorem getElem?_view (h : MinHeap ι) (i : ℕ) :
    (view h)[i]? = h.slice[i]?.map fun x => ⟨x, h.index x⟩ := List.getElem?_map

theorem toList_eq {m : IndexedHeap.MinHeap deadline} {h : MinHeap ι} (hview : m.slots = view h) :
    m.toList = h.slice := by rw [IndexedHeap.MinHeap.toList, hview, vals_view]

theorem less_view (h : MinHeap ι) (i j : ℕ) :
    h.less deadline i j = IndexedHeap.less deadline (view h) i j := by
  rw [MinHeap.less, IndexedHeap.less, getElem?_view, getElem?_view]
  cases h.slice[i]? <;> cases h.slice[j]? <;> rfl

theorem slots_swap_of_some {i j : ℕ} {a b : ι} (ha : h.slice[i]? = some a)
    (hb : h.slice[j]? = some b) :
    IndexedHeap.swap (view h) i j = ((view h).set i ⟨b, i⟩).set j ⟨a, j⟩ := by
  rw [IndexedHeap.swap, getElem?_view, getElem?_view, ha, hb]
  rfl

theorem slots_swap_of_none {i j : ℕ} (hnone : h.slice[i]? = none ∨ h.slice[j]? = none) :
    IndexedHeap.swap (view h) i j = view h := by
  rw [IndexedHeap.swap, getElem?_view, getElem?_view]
  rcases hnone with hi | hj
  · rw [hi]
    rfl
  · rw [hj]
    cases h.slice[i]? <;> rfl

theorem position_unique (hnd : h.slice.Nodup) {i j : ℕ} {x : ι} (hi : h.slice[i]? = some x)
    (hj : h.slice[j]? = some x) : i = j :=
  (List.getElem?_inj (List.getElem?_eq_some_iff.mp hi).1 hnd).mp (hi.trans hj.symm)

end View

section Swap

variable [DecidableEq ι] {h : MinHeap ι}

theorem swap_of_some {i j : ℕ} {a b : ι} (ha : h.slice[i]? = some a) (hb : h.slice[j]? = some b) :
    h.swap i j = ⟨(h.slice.set i b).set j a,
      Function.update (Function.update h.index b i) a j⟩ := by
  simp only [MinHeap.swap, ha, hb]

theorem swap_of_none {i j : ℕ} (hnone : h.slice[i]? = none ∨ h.slice[j]? = none) :
    h.swap i j = h := by
  unfold MinHeap.swap
  rcases hnone with hi | hj
  · rw [hi]
  · rw [hj]
    cases h.slice[i]? <;> rfl

theorem slice_swap_perm (h : MinHeap ι) (i j : ℕ) : (h.swap i j).slice.Perm h.slice := by
  cases ha : h.slice[i]? with
  | none => rw [swap_of_none (Or.inl ha)]
  | some a =>
    cases hb : h.slice[j]? with
    | none => rw [swap_of_none (Or.inr hb)]
    | some b =>
      rw [swap_of_some ha hb]
      obtain ⟨hi, rfl⟩ := List.getElem?_eq_some_iff.mp ha
      obtain ⟨hj, rfl⟩ := List.getElem?_eq_some_iff.mp hb
      exact List.set_set_perm hi hj

/-- An exchange writes the index of no item outside the slice. -/
theorem index_swap (h : MinHeap ι) (i j : ℕ) {x : ι} (hx : x ∉ h.slice) :
    (h.swap i j).index x = h.index x := by
  cases ha : h.slice[i]? with
  | none => rw [swap_of_none (Or.inl ha)]
  | some a =>
    cases hb : h.slice[j]? with
    | none => rw [swap_of_none (Or.inr hb)]
    | some b =>
      have hxa : x ≠ a := fun heq => hx (heq ▸ List.mem_of_getElem? ha)
      have hxb : x ≠ b := fun heq => hx (heq ▸ List.mem_of_getElem? hb)
      rw [swap_of_some ha hb]
      exact (Function.update_of_ne hxa ..).trans (Function.update_of_ne hxb ..)

/-- Without a pointer twice in the slice, an exchange writes both positions and leaves the index
of every other item. -/
theorem getElem?_view_swap (hnd : h.slice.Nodup) {i j : ℕ} {a b : ι} (ha : h.slice[i]? = some a)
    (hb : h.slice[j]? = some b) (k : ℕ) : (view (h.swap i j))[k]? =
      if j = k then some ⟨a, j⟩ else if i = k then some ⟨b, i⟩ else (view h)[k]? := by
  have hi := (List.getElem?_eq_some_iff.mp ha).1
  have hj := (List.getElem?_eq_some_iff.mp hb).1
  rw [getElem?_view, swap_of_some ha hb]
  dsimp only
  split_ifs with hjk hik
  · subst hjk
    rw [List.getElem?_set_self (by simpa using hj), Option.map_some, Function.update_self]
  · subst hik
    have hba : b ≠ a := fun heq => hjk (position_unique hnd hb (heq ▸ ha))
    rw [List.getElem?_set_ne hjk, List.getElem?_set_self hi, Option.map_some,
      Function.update_of_ne hba, Function.update_self]
  · rw [List.getElem?_set_ne hjk, List.getElem?_set_ne hik, getElem?_view]
    cases hc : h.slice[k]? with
    | none => rfl
    | some c =>
      have hca : c ≠ a := fun heq => hik (position_unique hnd ha (heq ▸ hc))
      have hcb : c ≠ b := fun heq => hjk (position_unique hnd hb (heq ▸ hc))
      rw [Option.map_some, Option.map_some, Function.update_of_ne hca, Function.update_of_ne hcb]

/-- So exchanging pointers is exchanging slots. -/
theorem view_swap (hnd : h.slice.Nodup) (i j : ℕ) :
    view (h.swap i j) = IndexedHeap.swap (view h) i j := by
  cases ha : h.slice[i]? with
  | none => rw [swap_of_none (Or.inl ha), slots_swap_of_none (Or.inl ha)]
  | some a =>
    cases hb : h.slice[j]? with
    | none => rw [swap_of_none (Or.inr hb), slots_swap_of_none (Or.inr hb)]
    | some b =>
      have hi := (List.getElem?_eq_some_iff.mp ha).1
      have hj := (List.getElem?_eq_some_iff.mp hb).1
      refine List.ext_getElem? fun k => ?_
      rw [getElem?_view_swap hnd ha hb, slots_swap_of_some ha hb, List.getElem?_set,
        List.getElem?_set]
      simp [length_view, hi, hj]

end Swap

section Refinement

variable [DecidableEq ι] {deadline : ι → ℤ} {h t : MinHeap ι} {x : ι}

/-- A slice of pointers without repetition, and its slots. -/
def Shows (h : MinHeap ι) (l : List (Slot ι)) : Prop := h.slice.Nodup ∧ l = view h

theorem shows_push (hnd : h.slice.Nodup) (hx : x ∉ h.slice) :
    Shows (h.push x) ((slots deadline).push (view h) x) := by
  refine ⟨List.nodup_append.mpr ⟨hnd, List.nodup_singleton x, ?_⟩, ?_⟩
  · rintro a ha b hb rfl
    exact hx (List.mem_singleton.mp hb ▸ ha)
  · have hold : h.slice.map (fun y => (⟨y, (h.push x).index y⟩ : Slot ι)) = view h := by
      refine List.map_congr_left fun y hy => ?_
      have hne : y ≠ x := fun heq => hx (heq ▸ hy)
      have hindex : (h.push x).index y = h.index y := Function.update_of_ne hne ..
      rw [hindex]
    have hnew : (h.push x).index x = h.slice.length := Function.update_self ..
    change view h ++ [⟨x, (view h).length⟩] = (h.slice ++ [x]).map _
    rw [List.map_append, hold, List.map_singleton, hnew, length_view]

theorem pop_concat (front : List ι) (x : ι) (index : ι → ℤ) :
    (MinHeap.mk (front ++ [x]) index).pop =
      some (x, ⟨front, Function.update index x (-1)⟩) := by
  rw [MinHeap.pop, List.getLast?_concat, List.dropLast_concat, Option.map_some]

/-- The item that is popped was last in the slice, and only its index is written. -/
theorem pop_eq_some (hp : h.pop = some (x, t)) : h.slice = t.slice ++ [x] ∧ t.index x = -1 ∧
    ∀ y, y ≠ x → t.index y = h.index y := by
  obtain ⟨slice, index⟩ := h
  rcases List.eq_nil_or_concat' slice with rfl | ⟨front, z, rfl⟩
  · cases hp
  · rw [pop_concat] at hp
    cases hp
    exact ⟨rfl, Function.update_self .., fun y hy => Function.update_of_ne hy ..⟩

theorem simulates (deadline : ι → ℤ) : Simulates (minHeap deadline) (slots deadline) Shows where
  len := by
    rintro h l ⟨-, rfl⟩
    exact (length_view h).symm
  less := by
    rintro h l ⟨-, rfl⟩ i j
    exact less_view h i j
  swap := by
    rintro h l ⟨hnd, rfl⟩ i j
    exact ⟨(slice_swap_perm h i j).nodup_iff.mpr hnd, (view_swap hnd i j).symm⟩
  pop := by
    rintro ⟨slice, index⟩ l ⟨hnd, rfl⟩
    rcases List.eq_nil_or_concat' slice with rfl | ⟨front, x, rfl⟩
    · exact .none
    · have hview : view ⟨front ++ [x], index⟩ =
          view ⟨front, Function.update index x (-1)⟩ ++ [⟨x, index x⟩] := by
        rw [view, List.map_append, List.map_singleton]
        refine congrArg (· ++ _) (List.map_congr_left fun y hy => ?_)
        have hne : y ≠ x := (List.nodup_append.mp hnd).2.2 y hy x List.mem_cons_self
        exact congrArg _ (Function.update_of_ne hne ..).symm
      have hslots : (slots deadline).pop (view ⟨front ++ [x], index⟩) =
          some (x, view ⟨front, Function.update index x (-1)⟩) := by
        rw [hview, slots]
        simp
      change Option.Rel _ (MinHeap.pop _) _
      rw [pop_concat, hslots]
      exact .some ⟨rfl, (List.nodup_append.mp hnd).1, rfl⟩

/-- What `heap.Pop` takes out is what the indexed heap gives. -/
theorem heapPop_slots {m : IndexedHeap.MinHeap deadline} (hshows : Shows h m.slots)
    (hp : (minHeap deadline).heapPop h = some (x, t)) :
    ∃ a rest, m.pop = some (a, rest) ∧ x = a.val ∧ Shows t rest.slots := by
  have hrel := (simulates deadline).heapPop hshows
  rw [hp, slots_heapPop] at hrel
  obtain ⟨q, hq, hx, ht⟩ := exists_of_rel_some hrel
  obtain ⟨⟨a, rest⟩, hm, rfl⟩ := Option.map_eq_some_iff.mp hq
  exact ⟨a, rest, hm, hx, ht⟩

end Refinement

section Frames

/-- The same items, and no index written outside them. -/
def Frame (h u : MinHeap ι) : Prop :=
  u.slice.Perm h.slice ∧ ∀ y, y ∉ h.slice → u.index y = h.index y

theorem Frame.refl (h : MinHeap ι) : Frame h h := ⟨List.Perm.refl _, fun _ _ => rfl⟩

variable [DecidableEq ι] {h u t : MinHeap ι} {x : ι}

theorem Frame.swap (hu : Frame h u) (i j : ℕ) : Frame h (u.swap i j) := by
  refine ⟨(slice_swap_perm u i j).trans hu.1, fun y hy => ?_⟩
  rw [index_swap u i j (mt hu.1.mem_iff.mp hy), hu.2 y hy]

theorem frame_heapPush (deadline : ι → ℤ) (h : MinHeap ι) (x : ι) :
    Frame (h.push x) ((minHeap deadline).heapPush h x) :=
  upLoop_keeps (I := minHeap deadline) (fun _ i j hu => hu.swap i j) _ (Frame.refl _) _

/-- An item that is taken out gets index -1, and nothing outside the heap changes. -/
theorem index_of_taken (hu : Frame h u) (hp : u.pop = some (x, t)) :
    t.index x = -1 ∧ ∀ y, y ∉ h.slice → t.index y = h.index y := by
  obtain ⟨hslice, hx, hrest⟩ := pop_eq_some hp
  refine ⟨hx, fun y hy => ?_⟩
  have hmem : x ∈ h.slice := hu.1.mem_iff.mp (by simp [hslice])
  rw [hrest y fun heq => hy (heq ▸ hmem), hu.2 y hy]

end Frames

section Steps

variable [DecidableEq ι] {deadline : ι → ℤ} {s : State ι} {t : MinHeap ι} {x y : ι}

theorem last_concat (log : List (Event ι)) (e : Event ι) (x : ι) :
    last (log ++ [e]) x = if e.item = x then some e else last log x := by
  rw [last, List.reverse_concat, List.find?_cons]
  by_cases h : e.item = x <;> simp [h, last]

theorem held_pushed {log : List (Event ι)} :
    Held (log ++ [.pushed x]) y ↔ y = x ∨ Held log y := by
  rw [Held, last_concat]
  by_cases h : x = y <;> simp [Event.item, h, Held, eq_comm]

theorem held_removed {log : List (Event ι)} :
    Held (log ++ [.removed x]) y ↔ y ≠ x ∧ Held log y := by
  rw [Held, last_concat]
  by_cases h : x = y <;> simp [Event.item, h, Held, eq_comm]

theorem removed_pushed {log : List (Event ι)} :
    Removed (log ++ [.pushed x]) y ↔ y ≠ x ∧ Removed log y := by
  rw [Removed, last_concat]
  by_cases h : x = y <;> simp [Event.item, h, Removed, eq_comm]

theorem removed_removed {log : List (Event ι)} :
    Removed (log ++ [.removed x]) y ↔ y = x ∨ Removed log y := by
  rw [Removed, last_concat]
  by_cases h : x = y <;> simp [Event.item, h, Removed, eq_comm]

theorem not_held_of_removed {log : List (Event ι)} (h : Removed log x) : ¬ Held log x := by
  intro hheld
  rw [Held, h] at hheld
  cases hheld

/-- The slots of a sound state are an indexed heap. -/
theorem Sound.exists_minHeap (h : Sound deadline s) :
    ∃ m : IndexedHeap.MinHeap deadline, m.slots = view s.heap ∧ Indexed m.slots := by
  refine ⟨⟨view s.heap, heapOrder_iff.mpr ?_⟩, rfl, ?_⟩
  · rw [vals_view]
    exact h.ordered
  · intro i a ha
    rw [getElem?_view, Option.map_eq_some_iff] at ha
    obtain ⟨y, hy, rfl⟩ := ha
    exact h.position i y hy

theorem sound_of_minHeap {m : IndexedHeap.MinHeap deadline} (hview : m.slots = view s.heap)
    (hindexed : Indexed m.slots) (hnd : s.heap.slice.Nodup)
    (hheld : ∀ x, x ∈ s.heap.slice ↔ Held s.log x)
    (hremoved : ∀ x, Removed s.log x → s.heap.index x = -1) : Sound deadline s := by
  refine ⟨hnd, ?_, hheld, ?_, hremoved⟩
  · have horder := heapOrder_iff.mp m.order
    rwa [hview, vals_view] at horder
  · intro i y hy
    rw [hview] at hindexed
    exact hindexed i ⟨y, s.heap.index y⟩ (by rw [getElem?_view, hy, Option.map_some])

theorem sound_push (h : Sound deadline s) (hx : x ∉ s.heap.slice) :
    Sound deadline ⟨(minHeap deadline).heapPush s.heap x, s.log ++ [.pushed x]⟩ := by
  obtain ⟨m, hview, hindexed⟩ := h.exists_minHeap
  obtain ⟨hnd, hshows⟩ := (simulates deadline).heapPush (shows_push h.nodup hx)
  rw [← hview, slots_heapPush] at hshows
  have hperm : ((minHeap deadline).heapPush s.heap x).slice.Perm (x :: s.heap.slice) := by
    rw [← toList_eq hshows, ← toList_eq hview]
    exact m.toList_push x
  refine sound_of_minHeap hshows (hindexed.push x) hnd (fun y => ?_) fun y hy => ?_
  · rw [hperm.mem_iff, List.mem_cons, h.held, held_pushed]
  · obtain ⟨hne, hold⟩ := removed_pushed.mp hy
    have hout : y ∉ s.heap.slice := fun hmem => not_held_of_removed hold ((h.held y).mp hmem)
    have hframe := (frame_heapPush deadline s.heap x).2 y
      (by simp [MinHeap.push, hout, hne])
    rw [hframe, ← h.removed y hold]
    exact Function.update_of_ne hne ..

/-- What is common to `heap.Pop` and `heap.Remove`. -/
theorem sound_taken (h : Sound deadline s) {rest : IndexedHeap.MinHeap deadline}
    (hshows : Shows t rest.slots) (hindexed : Indexed rest.slots)
    (hperm : s.heap.slice.Perm (x :: t.slice))
    (htaken : ∃ u, Frame s.heap u ∧ u.pop = some (x, t)) :
    Sound deadline ⟨t, s.log ++ [.removed x]⟩ := by
  obtain ⟨u, hu, hp⟩ := htaken
  obtain ⟨hx, houtside⟩ := index_of_taken hu hp
  have hnd := hperm.nodup_iff.mp h.nodup
  refine sound_of_minHeap hshows.2 hindexed hshows.1 (fun y => ?_) fun y hy => ?_
  · rw [held_removed, ← h.held, hperm.mem_iff, List.mem_cons]
    constructor
    · intro hy
      exact ⟨fun heq => (List.nodup_cons.mp hnd).1 (heq ▸ hy), Or.inr hy⟩
    · rintro ⟨hne, hy⟩
      exact hy.resolve_left hne
  · rcases removed_removed.mp hy with rfl | hold
    · exact hx
    · have hout : y ∉ s.heap.slice := fun hmem => not_held_of_removed hold ((h.held y).mp hmem)
      exact (houtside y hout).trans (h.removed y hold)

theorem sound_pop (h : Sound deadline s)
    (hp : (minHeap deadline).heapPop s.heap = some (x, t)) :
    Sound deadline ⟨t, s.log ++ [.removed x]⟩ ∧ s.heap.slice.Perm (x :: t.slice) ∧
      ∀ y ∈ s.heap.slice, deadline x ≤ deadline y := by
  obtain ⟨m, hview, hindexed⟩ := h.exists_minHeap
  obtain ⟨a, rest, hm, rfl, hshows⟩ := heapPop_slots ⟨h.nodup, hview⟩ hp
  have hspec := m.pop_spec hm
  rw [toList_eq hview, toList_eq hshows.2] at hspec
  exact ⟨sound_taken h hshows (hindexed.pop hm) hspec.1
    (exists_of_heapPop (P := Frame s.heap) (fun _ i j hu => hu.swap i j) (Frame.refl _) hp), hspec⟩

theorem sound_remove (h : Sound deadline s) (hx : x ∈ s.heap.slice) :
    ∃ t, (minHeap deadline).heapRemove s.heap (s.heap.index x) = some (x, t) ∧
      Sound deadline ⟨t, s.log ++ [.removed x]⟩ := by
  obtain ⟨m, hview, hindexed⟩ := h.exists_minHeap
  obtain ⟨i, hi⟩ := List.mem_iff_getElem?.mp hx
  have hslot : m.slots[i]? = some ⟨x, s.heap.index x⟩ := by
    rw [hview, getElem?_view, hi, Option.map_some]
  obtain ⟨rest, hrest, hrun⟩ := slots_heapRemove hslot
  have hrel := (simulates deadline).heapRemove ⟨h.nodup, hview⟩ i
  rw [hrun] at hrel
  obtain ⟨⟨y, t⟩, hr, hy, hshows⟩ := exists_of_some_rel hrel
  obtain rfl : y = x := hy
  obtain ⟨a, ha, hperm⟩ := IndexedHeap.MinHeap.remove_spec hrest
  rw [hslot] at ha
  cases Option.some.inj ha
  rw [toList_eq hview, toList_eq hshows.2] at hperm
  rw [h.position i y hi]
  exact ⟨t, hr, sound_taken h hshows (hindexed.remove hrest) hperm
    (exists_of_heapRemove (P := Frame s.heap) (fun _ i j hu => hu.swap i j) (Frame.refl _) hr)⟩

theorem heapPop_isSome (h : Sound deadline s) (hne : s.heap.slice ≠ []) :
    ∃ x t, (minHeap deadline).heapPop s.heap = some (x, t) := by
  obtain ⟨m, hview, -⟩ := h.exists_minHeap
  have hrel := (simulates deadline).heapPop ⟨h.nodup, hview⟩
  rw [slots_heapPop] at hrel
  cases hm : m.pop with
  | none => exact absurd ((toList_eq hview).symm.trans ((m.pop_eq_none_iff).mp hm)) hne
  | some r =>
    rw [hm] at hrel
    obtain ⟨q, hq, -⟩ := exists_of_some_rel hrel
    exact ⟨q.1, q.2, hq⟩

theorem sound_start (index : ι → ℤ) : Sound deadline (start index) where
  nodup := List.nodup_nil
  ordered := by simp [start]
  held := by simp [start, Held, last]
  position := by simp [start]
  removed := by simp [start, Removed, last]

theorem sound_step {s' : State ι} {op : Op ι} (h : Sound deadline s)
    (hstep : step deadline s op = some s') : Sound deadline s' := by
  cases op with
  | push x =>
    by_cases hx : x ∈ s.heap.slice
    · simp [step, hx] at hstep
    · rw [step, if_neg hx] at hstep
      cases Option.some.inj hstep
      exact sound_push h hx
  | pop =>
    obtain ⟨⟨x, t⟩, hp, rfl⟩ := Option.map_eq_some_iff.mp hstep
    exact (sound_pop h hp).1
  | remove x =>
    by_cases hx : x ∈ s.heap.slice
    · obtain ⟨t, hr, hsound⟩ := sound_remove h hx
      rw [step, if_pos hx, hr] at hstep
      cases Option.some.inj hstep
      exact hsound
    · simp [step, hx] at hstep

/-- Every sequence of operations leaves the heap sound. -/
theorem sound_run {index : ι → ℤ} {ops : List (Op ι)}
    (hrun : run (step deadline) (start index) ops = some s) : Sound deadline s :=
  run_keeps (fun _ _ _ h hstep => sound_step h hstep) (sound_start index) hrun

end Steps

section Timeout

variable [DecidableEq ι] {deadline : ι → ℤ} {s : State ι}

/-- The root has the earliest deadline: along the parents the deadlines only decrease. -/
theorem Sound.root_le (h : Sound deadline s) {b x : ι} (hb : s.heap.slice[0]? = some b)
    (hx : x ∈ s.heap.slice) : deadline b ≤ deadline x := by
  obtain ⟨i, hi⟩ := List.mem_iff_getElem?.mp hx
  induction i using Nat.strong_induction_on generalizing x with
  | h i ih =>
    rcases Nat.eq_zero_or_pos i with rfl | hpos
    · cases Option.some.inj (hb.symm.trans hi)
      exact le_rfl
    · have hlt := IndexedHeap.parent_lt hpos
      have hp : parent i < s.heap.slice.length :=
        hlt.trans (List.getElem?_eq_some_iff.mp hi).1
      have hget := List.getElem?_eq_getElem hp
      exact le_trans (ih (parent i) hlt (List.getElem_mem hp) hget) (h.ordered i x _ hi hget)

/-- The loop takes out exactly the items whose deadline is not after `now`. -/
theorem popExpired_spec (h : Sound deadline s) (now : ℤ) (fuel : ℕ)
    (hfuel : s.heap.slice.length < fuel) :
    ∃ expired t, popExpired deadline now fuel s.heap = some (expired, t) ∧
      (expired ++ t.slice).Perm s.heap.slice ∧ (∀ x ∈ expired, deadline x ≤ now) ∧
      (∀ x ∈ t.slice, now < deadline x) ∧
      Sound deadline ⟨t, s.log ++ expired.map .removed⟩ := by
  induction fuel generalizing s with
  | zero => omega
  | succ fuel ih =>
    rw [popExpired]
    cases hslice : s.heap.slice with
    | nil => exact ⟨[], s.heap, rfl, by simp [hslice], by simp, by simp [hslice], by simpa using h⟩
    | cons b rest =>
      have hb : s.heap.slice[0]? = some b := by rw [hslice]; rfl
      by_cases hafter : deadline b > now
      · refine ⟨[], s.heap, by simp [hafter], by simp [hslice], by simp, ?_, by simpa using h⟩
        intro x hx
        exact lt_of_lt_of_le hafter (h.root_le hb hx)
      · obtain ⟨x, t, hp⟩ := heapPop_isSome h (by simp [hslice])
        obtain ⟨hsound, hperm, hmin⟩ := sound_pop h hp
        have hlen := hperm.length_eq
        obtain ⟨expired, u, hrun, hrest, hdue, hlater, hfinal⟩ := ih hsound (by
          rw [List.length_cons] at hlen
          change t.slice.length < fuel
          omega)
        have hx : deadline x ≤ now :=
          le_trans (hmin b (by simp [hslice])) (not_lt.mp hafter)
        refine ⟨x :: expired, u, ?_, ?_, List.forall_mem_cons.mpr ⟨hx, hdue⟩, hlater, ?_⟩
        · dsimp only
          rw [if_neg hafter, hp, Option.bind_some]
          dsimp only at hrun ⊢
          rw [hrun]
          rfl
        · rw [← hslice]
          exact (hrest.cons x).trans hperm.symm
        · simpa using hfinal

theorem deadlineHeap_sound (deadline index : ι → ℤ) (ops : List (Op ι)) (s : State ι)
    (hrun : run (step deadline) (start index) ops = some s) :
    Sound deadline s ∧
    (s.heap.slice ≠ [] → ∃ x t, (minHeap deadline).heapPop s.heap = some (x, t)) ∧
    (∀ x, Held s.log x → ∃ t,
      (minHeap deadline).heapRemove s.heap (s.heap.index x) = some (x, t)) ∧
    ∀ now, ∃ expired t,
      popExpired deadline now (s.heap.slice.length + 1) s.heap = some (expired, t) ∧
      (expired ++ t.slice).Perm s.heap.slice ∧ (∀ x ∈ expired, deadline x ≤ now) ∧
      (∀ x ∈ t.slice, now < deadline x) ∧
      Sound deadline ⟨t, s.log ++ expired.map .removed⟩ := by
  have h := sound_run hrun
  refine ⟨h, heapPop_isSome h, fun x hx => ?_, fun now => popExpired_spec h now _ (by omega)⟩
  obtain ⟨t, hr, -⟩ := sound_remove h ((h.held x).mpr hx)
  exact ⟨t, hr⟩

def sampleOps : List (Op ℕ) := [.push 5, .push 3, .push 8, .push 1, .remove 3, .pop, .push 4]

theorem sampleOps_sound : ∃ s, run (step fun n : ℕ => (n : ℤ)) (start 0) sampleOps = some s ∧
    Sound (fun n : ℕ => (n : ℤ)) s ∧ s.heap.slice = [4, 8, 5] := by
  have hslice : (run (step fun n : ℕ => (n : ℤ)) (start 0) sampleOps).map (·.heap.slice) =
      some [4, 8, 5] := by
    decide +kernel
  obtain ⟨s, hrun, hs⟩ := Option.map_eq_some_iff.mp hslice
  exact ⟨s, hrun, (deadlineHeap_sound _ _ _ s hrun).1, hs⟩

end Timeout

section Worker

open Aggregator

/-- The heap of a worker is the view of the pointers: its loop takes out the same items. -/
theorem popExpired_view {h t : MinHeap HeapItem} {m : IndexedHeap.MinHeap HeapItem.deadline}
    (hshows : Shows h m.slots) (now : ℤ) (fuel : ℕ) {expired : List HeapItem}
    (hrun : popExpired HeapItem.deadline now fuel h = some (expired, t)) :
    ∃ m' : IndexedHeap.MinHeap HeapItem.deadline,
      Aggregator.popExpired now fuel m = (expired, m') ∧ m'.slots = view t := by
  induction fuel generalizing h m expired with
  | zero => cases hrun
  | succ fuel ih =>
    have hlist := toList_eq hshows.2
    rw [popExpired] at hrun
    rw [Aggregator.popExpired]
    cases hm : m.pop with
    | none =>
      rw [(m.pop_eq_none_iff).mp hm] at hlist
      rw [← hlist] at hrun
      cases Option.some.inj hrun
      exact ⟨m, rfl, hshows.2⟩
    | some r =>
      obtain ⟨a, rest⟩ := r
      obtain ⟨l, hslice⟩ : ∃ l, h.slice = a.val :: l := by
        have hroot := root_of_pop hm
        rw [hlist, ← List.head?_eq_getElem?] at hroot
        exact List.head?_eq_some_iff.mp hroot
      rw [hslice] at hrun
      dsimp only at hrun ⊢
      by_cases hafter : a.val.deadline > now
      · rw [if_pos hafter] at hrun ⊢
        cases Option.some.inj hrun
        exact ⟨m, rfl, hshows.2⟩
      · rw [if_neg hafter] at hrun ⊢
        obtain ⟨⟨x, u⟩, hp, hrest⟩ := Option.bind_eq_some_iff.mp hrun
        obtain ⟨⟨later, v⟩, hlater, heq⟩ := Option.map_eq_some_iff.mp hrest
        cases heq
        obtain ⟨a', rest', hm', rfl, hshows'⟩ := heapPop_slots hshows hp
        cases hm.symm.trans hm'
        obtain ⟨m', hrun', hview⟩ := ih hshows' hlater
        exact ⟨m', by rw [hrun'], hview⟩

end Worker

end Arcturus.DeadlineHeap
