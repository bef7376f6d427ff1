import Arcturus.AggregatorParts
import Arcturus.HeapRemoval
import Arcturus.StepRuns

/-!
The third goroutine of a worker, which evicts stale batches. It copies the map of
batches, then takes the routing keys in any order; a key with a stale batch loses all
its batches and their heap items. The reads between two critical sections are steps of
their own. A batch has at most one heap item at a time, so the item that `heapItem`
points to is the one in the heap that names the batch; an item that was popped or
removed records the position -1.
-/

namespace Arcturus.Eviction

open GoMaps IndexedHeap Aggregator

/-- Sixty seconds. -/
def batchMaxAge : ℤ := 60000000000

/-- The field `index` of the heap item of a batch. -/
def itemIndex (heap : MinHeap HeapItem.deadline) (b : ℕ) : ℤ :=
  match heap.slots.find? fun slot => slot.val.batch == b with
  | some slot => slot.index
  | none => -1

/-- `heap.Remove`, which panics when the index is out of range. -/
def heapRemove (heap : MinHeap HeapItem.deadline) (i : ℤ) : Option (MinHeap HeapItem.deadline) :=
  if i < 0 then none else heap.remove i.toNat

/-- The loop over the batches of a key in the section under the lock. -/
def removeItems (store : List Batch) :
    List ℕ → MinHeap HeapItem.deadline → Option (MinHeap HeapItem.deadline)
  | [], heap => some heap
  | b :: v, heap =>
    match store[b]? with
    | none => none
    | some batch =>
      if batch.heapItem = none then removeItems store v heap
      else (heapRemove heap (itemIndex heap b)).bind (removeItems store v)

/-- Every call of `heap.Remove` in this loop is in range and at the item of its batch. -/
def RemovalsInRange (store : List Batch) :
    List ℕ → MinHeap HeapItem.deadline → Prop
  | [], _ => True
  | b :: v, heap =>
    ∃ batch, store[b]? = some batch ∧
      if batch.heapItem = none then RemovalsInRange store v heap
      else
        0 ≤ itemIndex heap b ∧ itemIndex heap b < heap.slots.length ∧
          (heap.slots[(itemIndex heap b).toNat]?).map (·.val.batch) = some b ∧
          ∀ rest, heapRemove heap (itemIndex heap b) = some rest → RemovalsInRange store v rest

def hasStale (store : List Batch) (now : ℤ) (v : List ℕ) : Bool :=
  v.any fun b => match store[b]? with
    | some batch => now - batch.createTime > batchMaxAge
    | none => false

/-- Where `evictStaleBatches` is: before the map is copied, at the keys that are left, or
before the heap is locked for a key with a stale batch. -/
inductive Evictor where
  | idle
  | copy (now : ℤ)
  | scan (now : ℤ) (left : List (String × List ℕ))
  | remove (now : ℤ) (key : String) (v : List ℕ) (left : List (String × List ℕ))
  deriving DecidableEq, Repr

structure Evicting where
  worker : Worker
  evictor : Evictor

def Evicting.start : Evicting := ⟨Worker.start, .idle⟩

/-- The copy of the map. -/
def snapshot (w : Worker) : List (String × List ℕ) :=
  w.batches.keys.map fun key => (key, w.batches.val key)

/-- The next step of the eviction; the loop over the map takes its `i`-th key next. -/
def evictStep (t : ℤ) (i : ℕ) (s : Evicting) : Option Evicting :=
  match s.evictor with
  | .idle => some ⟨{ s.worker with now := t }, .copy t⟩
  | .copy now => some { s with evictor := .scan now (snapshot s.worker) }
  | .scan _ [] => some { s with evictor := .idle }
  | .scan now left =>
    match left[i]? with
    | none => none
    | some (key, v) =>
      if hasStale s.worker.store now v then
        some { s with evictor := .remove now key v (left.eraseIdx i) }
      else some { s with evictor := .scan now (left.eraseIdx i) }
  | .remove now key v left =>
    (removeItems s.worker.store v s.worker.heap).map fun heap =>
      ⟨{ s.worker with heap, batches := s.worker.batches.erase key }, .scan now left⟩

inductive Action where
  | work (a : Aggregator.Action)
  | evict (t : ℤ) (i : ℕ)

def step (cfg : Config) (s : Evicting) : Action → Option Evicting
  | .work a => (Aggregator.step cfg s.worker a).map fun worker => { s with worker }
  | .evict t i => if t < s.worker.now then none else evictStep t i s

/-- The keys in the order in which an uninterrupted call of `evictStaleBatches` takes
them, from the copy of the map on. -/
def evictStaleBatches (now : ℤ) : List (String × List ℕ) → Worker → Option Worker
  | [], w => some w
  | (key, v) :: left, w =>
    if hasStale w.store now v then
      (removeItems w.store v w.heap).bind fun heap =>
        evictStaleBatches now left { w with heap, batches := w.batches.erase key }
    else evictStaleBatches now left w

/-- What the eviction does to the worker: it reads the clock, or removes the items of the
batches under a key and then the key. -/
theorem evictStep_worker {t : ℤ} {i : ℕ} {s s' : Evicting} (hs : evictStep t i s = some s') :
    (∃ now, s'.worker = { s.worker with now }) ∨
      ∃ key v heap, removeItems s.worker.store v s.worker.heap = some heap ∧
        s'.worker = { s.worker with heap, batches := s.worker.batches.erase key } := by
  unfold evictStep at hs
  split at hs
  · cases hs
    exact Or.inl ⟨t, rfl⟩
  · cases hs
    exact Or.inl ⟨_, rfl⟩
  · cases hs
    exact Or.inl ⟨_, rfl⟩
  · split at hs
    · cases hs
    split at hs
    all_goals
      cases hs
      exact Or.inl ⟨_, rfl⟩
  · obtain ⟨heap, hheap, rfl⟩ := Option.map_eq_some_iff.mp hs
    exact Or.inr ⟨_, _, heap, hheap, rfl⟩

section Removal

variable {heap rest : MinHeap HeapItem.deadline} {store : List Batch} {b : ℕ}

/-- The batches of the items in the heap. -/
def scheduledBatches (heap : MinHeap HeapItem.deadline) : List ℕ := heap.toList.map HeapItem.batch

/-- The batch notes that it has a heap item. -/
def noted (store : List Batch) (b : ℕ) : Bool :=
  match store[b]? with
  | some batch => batch.heapItem.isSome
  | none => false

theorem find_slot (hb : b ∈ scheduledBatches heap) :
    ∃ slot, heap.slots.find? (fun slot => slot.val.batch == b) = some slot ∧
      slot.val.batch = b := by
  obtain ⟨item, hitem, rfl⟩ := List.mem_map.mp hb
  obtain ⟨slot, hslot, rfl⟩ := List.mem_map.mp hitem
  cases hfind : heap.slots.find? (fun s => s.val.batch == slot.val.batch) with
  | none =>
    rw [List.find?_eq_none] at hfind
    exact absurd (beq_self_eq_true _) (hfind slot hslot)
  | some found => exact ⟨found, rfl, by simpa using List.find?_some hfind⟩

/-- The item of a scheduled batch is where it says it is, and removing it there keeps the
other items. -/
theorem heapRemove_scheduled (hindexed : Indexed heap.slots) (hb : b ∈ scheduledBatches heap) :
    0 ≤ itemIndex heap b ∧ itemIndex heap b < heap.slots.length ∧
      (heap.slots[(itemIndex heap b).toNat]?).map (·.val.batch) = some b ∧
      (heapRemove heap (itemIndex heap b)).isSome := by
  obtain ⟨slot, hfind, hbatch⟩ := find_slot hb
  obtain ⟨i, hi⟩ := List.mem_iff_getElem?.mp (List.mem_of_find?_eq_some hfind)
  have hlt := (List.getElem?_eq_some_iff.mp hi).1
  have hindex : itemIndex heap b = i := by
    unfold itemIndex
    rw [hfind]
    exact hindexed i slot hi
  rw [hindex]
  refine ⟨by omega, by omega, by simp [hi, hbatch], ?_⟩
  unfold heapRemove
  rw [if_neg (by omega), MinHeap.remove_isSome]
  exact hlt

theorem itemIndex_not_scheduled (hb : b ∉ scheduledBatches heap) : itemIndex heap b = -1 := by
  unfold itemIndex
  split
  · rename_i slot hfind
    exfalso
    apply hb
    refine List.mem_map.mpr ⟨slot.val, ?_, by simpa using List.find?_some hfind⟩
    exact List.mem_map_of_mem (List.mem_of_find?_eq_some hfind)
  · rfl

theorem heapRemove_spec (hindexed : Indexed heap.slots)
    (hr : heapRemove heap (itemIndex heap b) = some rest) :
    Indexed rest.slots ∧ ∃ item, item.batch = b ∧ heap.toList.Perm (item :: rest.toList) := by
  by_cases hb : b ∈ scheduledBatches heap
  · obtain ⟨hpos, -, hat, -⟩ := heapRemove_scheduled hindexed hb
    unfold heapRemove at hr
    rw [if_neg (by omega)] at hr
    obtain ⟨slot, hslot, hperm⟩ := MinHeap.remove_spec hr
    rw [hslot] at hat
    exact ⟨hindexed.remove hr, slot.val, Option.some.inj hat, hperm⟩
  · rw [itemIndex_not_scheduled hb] at hr
    simp [heapRemove] at hr

theorem removeItems_cons {v : List ℕ} (hb : store[b]? ≠ none) :
    removeItems store (b :: v) heap =
      if noted store b then (heapRemove heap (itemIndex heap b)).bind (removeItems store v)
      else removeItems store v heap := by
  obtain ⟨batch, hbatch⟩ := Option.ne_none_iff_exists'.mp hb
  simp only [removeItems, noted, hbatch]
  cases hitem : batch.heapItem <;> simp

/-- What the section takes out of the heap: one item for each batch that notes one. -/
theorem removeItems_spec {v : List ℕ} (hindexed : Indexed heap.slots)
    (hr : removeItems store v heap = some rest) :
    Indexed rest.slots ∧ ∃ removed, heap.toList.Perm (removed ++ rest.toList) ∧
      removed.map HeapItem.batch = v.filter (noted store) := by
  induction v generalizing heap with
  | nil =>
    cases Option.some.inj hr
    exact ⟨hindexed, [], List.Perm.refl _, rfl⟩
  | cons b v ih =>
    by_cases hb : store[b]? = none
    · simp [removeItems, hb] at hr
    · rw [removeItems_cons hb] at hr
      split at hr
      · rename_i hnoted
        obtain ⟨mid, hmid, hrest⟩ := Option.bind_eq_some_iff.mp hr
        obtain ⟨hidx, item, hitem, hperm⟩ := heapRemove_spec hindexed hmid
        obtain ⟨hidx', removed, hperm', hmap⟩ := ih hidx hrest
        refine ⟨hidx', item :: removed, hperm.trans (hperm'.cons item), ?_⟩
        simp [hnoted, hitem, hmap]
      · rename_i hnoted
        obtain ⟨hidx', removed, hperm', hmap⟩ := ih hindexed hr
        exact ⟨hidx', removed, hperm', by simp [hnoted, hmap]⟩

/-- The section runs through exactly when every batch that notes a heap item is scheduled. -/
theorem removeItems_isSome {v : List ℕ} (hindexed : Indexed heap.slots) (hv : v.Nodup)
    (hstore : ∀ b ∈ v, store[b]? ≠ none) :
    (removeItems store v heap).isSome ↔ ∀ b ∈ v, noted store b → b ∈ scheduledBatches heap := by
  induction v generalizing heap with
  | nil => simp [removeItems]
  | cons b v ih =>
    obtain ⟨hb, hv⟩ := List.nodup_cons.mp hv
    have hrestore : ∀ c ∈ v, store[c]? ≠ none := fun c hc => hstore c (List.mem_cons_of_mem b hc)
    rw [removeItems_cons (hstore b List.mem_cons_self), List.forall_mem_cons]
    split
    · rename_i hnoted
      by_cases hsched : b ∈ scheduledBatches heap
      · obtain ⟨-, -, -, hsome⟩ := heapRemove_scheduled hindexed hsched
        obtain ⟨mid, hmid⟩ := Option.isSome_iff_exists.mp hsome
        obtain ⟨hidx, item, hitem, hperm⟩ := heapRemove_spec hindexed hmid
        have hkeep : ∀ c ∈ v, c ∈ scheduledBatches mid ↔ c ∈ scheduledBatches heap := by
          intro c hc
          have hcb : c ≠ b := fun heq => hb (heq ▸ hc)
          unfold scheduledBatches
          rw [(hperm.map HeapItem.batch).mem_iff]
          simp [hitem, hcb]
        rw [hmid, Option.bind_some, ih hidx hv hrestore]
        simp only [hsched, implies_true, true_and]
        exact forall₂_congr fun c hc => by rw [hkeep c hc]
      · rw [itemIndex_not_scheduled hsched]
        simp [heapRemove, hnoted, hsched]
    · rename_i hnoted
      rw [ih hindexed hv hrestore]
      simp [hnoted]

theorem removalsInRange_iff {v : List ℕ} (hindexed : Indexed heap.slots)
    (hstore : ∀ b ∈ v, store[b]? ≠ none) :
    RemovalsInRange store v heap ↔ (removeItems store v heap).isSome := by
  induction v generalizing heap with
  | nil => simp [RemovalsInRange, removeItems]
  | cons b v ih =>
    have hrestore : ∀ c ∈ v, store[c]? ≠ none := fun c hc => hstore c (List.mem_cons_of_mem b hc)
    cases hbatch : store[b]? with
    | none => exact absurd hbatch (hstore b List.mem_cons_self)
    | some batch =>
      simp only [RemovalsInRange, removeItems, hbatch, Option.some.injEq, exists_eq_left']
      split
      · exact ih hindexed hrestore
      · by_cases hsched : b ∈ scheduledBatches heap
        · obtain ⟨hpos, hlt, hat, hsome⟩ := heapRemove_scheduled hindexed hsched
          obtain ⟨mid, hmid⟩ := Option.isSome_iff_exists.mp hsome
          have hidx := (heapRemove_spec hindexed hmid).1
          rw [hmid, Option.bind_some, ← ih hidx hrestore]
          constructor
          · intro hall
            exact hall.2.2.2 mid rfl
          · intro hmidrange
            refine ⟨hpos, hlt, hat, ?_⟩
            intro rest hrest
            cases Option.some.inj hrest
            exact hmidrange
        · rw [itemIndex_not_scheduled hsched]
          simp [heapRemove]

end Removal

end Arcturus.Eviction
