import Arcturus.EvictionInvariant

/-!
What evictions keep in every run of the three goroutines of a worker. A removal from the
heap is in range unless the item of a listed batch has expired and is not cleared yet.
-/

namespace Arcturus.EvictionRuns

open TunnelPacket TunnelHandler Routes BatchPacket GoMaps IndexedHeap Aggregator
open AggregatorParts Eviction EvictionInvariant
open StepRuns (run run_keeps)

variable {cfg : Config} {s s' : Evicting} {w w' : Worker}

/-- The queue after a removal: exactly the noted batches of the list have left it. -/
theorem count_queued_removed {v : List ℕ} {heap : MinHeap HeapItem.deadline}
    (hindexed : Indexed w.heap.slots) (hr : removeItems w.store v w.heap = some heap) (b : ℕ) :
    (queued w).count b = (v.filter (noted w.store)).count b + (queued { w with heap }).count b := by
  obtain ⟨-, removed, hperm, hmap⟩ := removeItems_spec hindexed hr
  have hqueued : (queued w).Perm (removed.map HeapItem.batch ++ queued { w with heap }) := by
    unfold queued
    rw [← List.map_append, ← List.append_assoc]
    exact (hperm.append_right _).map _
  rw [hqueued.count_eq, List.count_append, hmap]

theorem noted_eq_false {store : List Batch} {b : ℕ} {B : Batch} (hB : store[b]? = some B)
    (hitem : B.heapItem = none) : noted store b = false := by
  simp [noted, hB, hitem]

theorem noted_iff {store : List Batch} {b : ℕ} {B : Batch} (hB : store[b]? = some B) :
    noted store b = true ↔ B.heapItem ≠ none := by
  simp [noted, hB, Option.isSome_iff_ne_none]

/-- The section under the lock: all batches of a key leave the heap and the map. -/
theorem linked_remove {now : ℤ} {key : String} {v : List ℕ} {left : List (String × List ℕ)}
    {heap : MinHeap HeapItem.deadline} (h : Linked ⟨w, .remove now key v left⟩)
    (hr : removeItems w.store v w.heap = some heap) :
    Linked ⟨{ w with heap, batches := w.batches.erase key }, .scan now left⟩ := by
  have hcount : ∀ b, (queued w).count b = (v.filter (noted w.store)).count b +
      (queued { w with heap, batches := w.batches.erase key }).count b :=
    count_queued_removed h.indexed hr
  have hv := (h.listed key v (Or.inr List.mem_cons_self)).2
  have hkeys := h.pending
  simp only [EvictionInvariant.pending, List.map_cons, List.nodup_cons] at hkeys
  have hkeep : ∀ key' b, key' ≠ key → Entered w key' b →
      Entered { w with heap, batches := w.batches.erase key } key' b := by
    intro key' b hne hb
    obtain ⟨B, hB, hBkey, hBqueued⟩ := hb
    refine ⟨B, hB, hBkey, ?_⟩
    intro hitem
    have hnot : b ∉ v := by
      intro hbv
      obtain ⟨C, hC, hCkey, -⟩ := hv b hbv
      cases Option.some.inj (hB.symm.trans hC)
      exact hne (hBkey.symm.trans hCkey)
    have hzero : (v.filter (noted w.store)).count b = 0 :=
      List.count_eq_zero_of_not_mem fun hmem => hnot (List.mem_of_mem_filter hmem)
    have hpos := List.count_pos_iff.mpr (hBqueued hitem)
    rw [hcount b, hzero, Nat.zero_add] at hpos
    exact List.count_pos_iff.mp hpos
  refine ⟨(removeItems_spec h.indexed hr).1, h.armed_lt, ?_, ?_, ?_, ?_, hkeys.2⟩
  · intro b hb
    apply h.queued_lt b
    rw [← List.count_pos_iff, hcount b]
    have hpos := List.count_pos_iff.mpr hb
    exact Nat.add_pos_right _ hpos
  · intro b B hB
    have hb := hcount b
    refine (h.link b B hB).leave (hb ▸ Nat.le_add_left _ _) ?_
    intro hitem
    have hzero : (v.filter (noted w.store)).count b = 0 := by
      apply List.count_eq_zero_of_not_mem
      intro hmem
      have hnoted := (List.mem_filter.mp hmem).2
      rw [noted_eq_false hB hitem] at hnoted
      contradiction
    rw [hzero, Nat.zero_add] at hb
    exact hb.symm
  · exact h.keys.filter _
  · intro key' v' hv'
    by_cases hkk : key' = key
    · subst hkk
      rcases hv' with hval | hpend
      · rw [GoMap.erase_val_same] at hval
        subst hval
        exact ⟨List.nodup_nil, fun b hb => absurd hb List.not_mem_nil⟩
      · exact absurd (List.mem_map_of_mem hpend) hkeys.1
    · have hold : Listed ⟨w, .remove now key v left⟩ key' v' := by
        rcases hv' with hval | hpend
        · exact Or.inl (hval.trans (GoMap.erase_val_of_ne _ hkk))
        · exact Or.inr (List.mem_cons_of_mem _ hpend)
      obtain ⟨hnodup, hall⟩ := h.listed key' v' hold
      exact ⟨hnodup, fun b hb => hkeep key' b hkk (hall b hb)⟩

/-- The eviction goes on, and what it has still to look at was there or is in the map. -/
theorem linked_turn (h : Linked s) (t : ℤ) {e : Evictor}
    (hpend : ∀ key v, (key, v) ∈ EvictionInvariant.pending e → Listed s key v)
    (hkeys : ((EvictionInvariant.pending e).map Prod.fst).Nodup) :
    Linked ⟨{ s.worker with now := t }, e⟩ where
  indexed := h.indexed
  armed_lt := h.armed_lt
  queued_lt := h.queued_lt
  link := h.link
  keys := h.keys
  listed := by
    intro key v hv
    apply h.listed key v
    rcases hv with hval | hmem
    · exact Or.inl hval
    · exact hpend key v hmem
  pending := hkeys

theorem mem_snapshot {key : String} {v : List ℕ} :
    (key, v) ∈ snapshot w ↔ key ∈ w.batches.keys ∧ v = w.batches.val key := by
  unfold snapshot
  constructor
  · intro h
    obtain ⟨k, hk, heq⟩ := List.mem_map.mp h
    cases heq
    exact ⟨hk, rfl⟩
  · intro h
    obtain ⟨hk, rfl⟩ := h
    exact List.mem_map_of_mem hk

theorem snapshot_keys (w : Worker) : (snapshot w).map Prod.fst = w.batches.keys := by
  simp [snapshot, Function.comp_def]

theorem linked_scan (h : Linked s) (now : ℤ) {order : List (String × List ℕ)}
    (horder : order.Perm (snapshot s.worker)) : Linked ⟨s.worker, .scan now order⟩ := by
  refine linked_turn h s.worker.now (e := .scan now order) ?_ ?_
  · intro key v hmem
    exact Or.inl (mem_snapshot.mp (horder.mem_iff.mp hmem)).2
  · have hperm := horder.map Prod.fst
    rw [snapshot_keys] at hperm
    exact hperm.nodup_iff.mpr h.keys

theorem linked_evictStep {t : ℤ} {i : ℕ} (h : Linked s) (hs : evictStep t i s = some s') :
    Linked s' := by
  unfold evictStep at hs
  split at hs
  · cases Option.some.inj hs
    exact linked_turn h t (fun key v hmem => absurd hmem List.not_mem_nil) List.nodup_nil
  · cases Option.some.inj hs
    exact linked_scan h _ (List.Perm.refl _)
  · cases Option.some.inj hs
    exact linked_turn h _ (fun key v hmem => absurd hmem List.not_mem_nil) List.nodup_nil
  · rename_i now left hne hev
    have hpend := h.pending
    have hlisted : ∀ key v, (key, v) ∈ left → Listed s key v := by
      intro key v hmem
      exact Or.inr (by rw [hev]; exact hmem)
    rw [hev] at hpend
    split at hs
    · contradiction
    · rename_i key v hget
      have hperm : ((key, v) :: left.eraseIdx i).Perm left := by
        obtain ⟨hlt, heq⟩ := List.getElem?_eq_some_iff.mp hget
        rw [← heq]
        exact List.getElem_cons_eraseIdx_perm hlt
      have hnodup := (hperm.map Prod.fst).nodup_iff.mpr hpend
      split at hs
      all_goals cases Option.some.inj hs
      · refine linked_turn h _ ?_ hnodup
        intro key' v' hmem
        exact hlisted key' v' (hperm.mem_iff.mp hmem)
      · refine linked_turn h _ ?_ (List.nodup_cons.mp hnodup).2
        intro key' v' hmem
        exact hlisted key' v' (hperm.mem_iff.mp (List.mem_cons_of_mem _ hmem))
  · rename_i now key v left hev
    obtain ⟨heap, hr, rfl⟩ := Option.map_eq_some_iff.mp hs
    apply linked_remove ?_ hr
    rw [← hev]
    exact h

theorem linked_run {actions : List Eviction.Action}
    (hrun : run (Eviction.step cfg) Evicting.start actions = some s) : Linked s := by
  refine run_keeps ?_ linked_start hrun
  intro s a s' h hs
  cases a with
  | work a =>
    obtain ⟨w', hw', rfl⟩ := Option.map_eq_some_iff.mp hs
    exact linked_work h (effect_step hw')
  | evict t i =>
    simp only [Eviction.step] at hs
    split at hs
    · contradiction
    · exact linked_evictStep h hs

/-- A listed batch that notes an item is scheduled unless the item has expired. -/
theorem scheduled_iff {key : String} {v : List ℕ} {b : ℕ} (h : Linked s) (hv : Listed s key v)
    (hb : b ∈ v) (hnoted : noted s.worker.store b) :
    b ∈ scheduledBatches s.worker.heap ↔ b ∉ (expired s.worker.timer).map HeapItem.batch := by
  obtain ⟨B, hB, -, hqueued⟩ := (h.listed key v hv).2 b hb
  have hmem := hqueued ((noted_iff hB).mp hnoted)
  have hle := (h.link b B hB).times_le
  unfold queued at hmem hle
  rw [List.map_append] at hmem hle
  rw [List.count_append] at hle
  constructor
  · intro hsched hexp
    have h1 := List.count_pos_iff.mpr hsched
    have h2 := List.count_pos_iff.mpr hexp
    unfold scheduledBatches at h1
    omega
  · intro hexp
    exact (List.mem_append.mp hmem).resolve_right hexp

/-- The removals of one section are in range exactly when no item that they are for has
been popped by `checkTimeout` and not been cleared yet. -/
theorem removals_inRange_iff {actions : List Eviction.Action} {now : ℤ} {key : String}
    {v : List ℕ} {left : List (String × List ℕ)}
    (hrun : run (Eviction.step cfg) Evicting.start actions = some s)
    (hs : s.evictor = .remove now key v left) :
    RemovalsInRange s.worker.store v s.worker.heap ↔
      ∀ b ∈ v, noted s.worker.store b → b ∉ (expired s.worker.timer).map HeapItem.batch := by
  have h := linked_run hrun
  have hv : Listed s key v := Or.inr (by rw [hs]; exact List.mem_cons_self)
  obtain ⟨hnodup, hall⟩ := h.listed key v hv
  have hstore : ∀ b ∈ v, s.worker.store[b]? ≠ none := by
    intro b hb
    obtain ⟨B, hB, -⟩ := hall b hb
    simp [hB]
  rw [removalsInRange_iff h.indexed hstore, removeItems_isSome h.indexed hnodup hstore]
  exact forall₂_congr fun b hb => imp_congr_right fun hnoted => scheduled_iff h hv hb hnoted

/-- A request is sent at its timeout; its batch rests for a minute and takes another one. -/
def restedBatch : List Eviction.Action :=
  (.receive (request (routeTo 80 eighty_ne_zero) 1) :: List.replicate 5 (.handle 0) ++
    List.replicate 5 (.timeout 50000000) ++ .receive (request (routeTo 80 eighty_ne_zero) 2) ::
      List.replicate 4 (.handle 60060000000) : List Aggregator.Action).map .work

/-- An eviction gets as far as the lock. -/
def evictUpToLock (t : ℤ) : List Eviction.Action := List.replicate 3 (.evict t 0)

theorem restedBatch_inRange : ∃ s now key v left,
    run (Eviction.step smallBuffers) Evicting.start
        (restedBatch ++ evictUpToLock 60080000000) = some s ∧
      s.evictor = .remove now key v left ∧ v = [0] ∧
      RemovalsInRange s.worker.store v s.worker.heap := by
  have hend : (run (Eviction.step smallBuffers) Evicting.start
      (restedBatch ++ evictUpToLock 60080000000)).map
        (fun s => (s.evictor, expired s.worker.timer)) =
      some (.remove 60080000000 "10.0.1.1,10.0.1.2,10.0.1.3" [0] [], []) := by
    decide +kernel
  obtain ⟨s, hrun, hs⟩ := Option.map_eq_some_iff.mp hend
  obtain ⟨hev, hexp⟩ := Prod.mk.inj hs
  refine ⟨s, _, _, _, _, hrun, hev, rfl, (removals_inRange_iff hrun hev).mpr ?_⟩
  intro b _ _
  simp [hexp]

/-- `checkTimeout` has popped the item and not cleared it when the eviction gets the lock:
the item records the position -1, and the removal panics. -/
theorem expired_removal_out_of_range : ∃ s now key v left,
    run (Eviction.step smallBuffers) Evicting.start
        (restedBatch ++ List.replicate 2 (.work (.timeout 60110000000)) ++
          evictUpToLock 60110000000) = some s ∧
      s.evictor = .remove now key v left ∧ ¬ RemovalsInRange s.worker.store v s.worker.heap ∧
      evictStep 60110000000 0 s = none := by
  have hend : (run (Eviction.step smallBuffers) Evicting.start
      (restedBatch ++ List.replicate 2 (.work (.timeout 60110000000)) ++
        evictUpToLock 60110000000)).map
      (fun s => (s.evictor, itemIndex s.worker.heap 0, noted s.worker.store 0,
        (evictStep 60110000000 0 s).isSome)) =
        some (.remove 60110000000 "10.0.1.1,10.0.1.2,10.0.1.3" [0] [], -1, true, false) := by
    decide +kernel
  obtain ⟨s, hrun, hs⟩ := Option.map_eq_some_iff.mp hend
  simp only [Prod.mk.injEq] at hs
  obtain ⟨hev, hindex, hnoted, hnone⟩ := hs
  refine ⟨s, _, _, _, _, hrun, hev, ?_, by simpa using hnone⟩
  intro hrange
  obtain ⟨batch, hbatch, hcall⟩ := hrange
  rw [if_neg ((noted_iff hbatch).mp hnoted), hindex] at hcall
  exact absurd hcall.1 (by decide)

end Arcturus.EvictionRuns
