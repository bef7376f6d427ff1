import Arcturus.EvictionRuns

/-!
What one uninterrupted call of `evictStaleBatches` does to a worker in any state that it
can reach. The call keeps all pending data unless a key with a stale batch has a batch
with data in the heap.
-/

namespace Arcturus.PendingData

open TunnelPacket TunnelHandler Routes BatchPacket GoMaps IndexedHeap Aggregator
open AggregatorParts Eviction EvictionInvariant EvictionRuns
open StepRuns (run)

variable {cfg : Config} {s s' : Evicting} {w w' : Worker} {now : ℤ}

/-- The batches whose heap items an eviction takes out of the heap. -/
def evicted (store : List Batch) (now : ℤ) (order : List (String × List ℕ)) : List ℕ :=
  order.flatMap fun x => if hasStale store now x.2 then x.2.filter (noted store) else []

theorem mem_evicted {store : List Batch} {order : List (String × List ℕ)} {b : ℕ} :
    b ∈ evicted store now order ↔ ∃ key v, (key, v) ∈ order ∧ hasStale store now v ∧ b ∈ v ∧
      noted store b := by
  simp only [evicted, List.mem_flatMap, Prod.exists]
  refine exists₂_congr fun key v => ?_
  split <;> simp_all

theorem linked_pick {key : String} {v : List ℕ} {left : List (String × List ℕ)}
    (h : Linked ⟨w, .scan now ((key, v) :: left)⟩) : Linked ⟨w, .remove now key v left⟩ :=
  linked_turn h w.now (fun _ _ hmem => Or.inr hmem) h.pending

theorem linked_skip {key : String} {v : List ℕ} {left : List (String × List ℕ)}
    (h : Linked ⟨w, .scan now ((key, v) :: left)⟩) : Linked ⟨w, .scan now left⟩ :=
  linked_turn h w.now (e := .scan now left)
    (fun _ _ hmem => Or.inr (List.mem_cons_of_mem _ hmem)) (List.nodup_cons.mp h.pending).2

/-- What an uninterrupted eviction changes. -/
theorem evictStaleBatches_spec {order : List (String × List ℕ)} (h : Linked ⟨w, .scan now order⟩)
    (hr : evictStaleBatches now order w = some w') :
    w'.store = w.store ∧ w'.flushed = w.flushed ∧ ∃ removed,
      w.heap.toList.Perm (removed ++ w'.heap.toList) ∧
        removed.map HeapItem.batch = evicted w.store now order := by
  induction order generalizing w with
  | nil =>
    cases Option.some.inj hr
    exact ⟨rfl, rfl, [], List.Perm.refl _, rfl⟩
  | cons x left ih =>
    obtain ⟨key, v⟩ := x
    simp only [evictStaleBatches] at hr
    split at hr
    · rename_i hstale
      obtain ⟨heap, hheap, hrest⟩ := Option.bind_eq_some_iff.mp hr
      obtain ⟨hstore, hflushed, removed, hperm, hmap⟩ :=
        ih (linked_remove (linked_pick h) hheap) hrest
      obtain ⟨-, first, hperm₁, hmap₁⟩ := removeItems_spec h.indexed hheap
      refine ⟨hstore, hflushed, first ++ removed, ?_, ?_⟩
      · rw [List.append_assoc]
        exact hperm₁.trans (hperm.append_left first)
      · rw [List.map_append, hmap₁, hmap]
        simp [evicted, hstale]
    · rename_i hstale
      obtain ⟨hstore, hflushed, removed, hperm, hmap⟩ := ih (linked_skip h) hr
      refine ⟨hstore, hflushed, removed, hperm, ?_⟩
      rw [hmap]
      simp [evicted, hstale]

/-- An uninterrupted eviction returns exactly when the items it is to remove are in the
heap. -/
theorem evictStaleBatches_isSome {order : List (String × List ℕ)}
    (h : Linked ⟨w, .scan now order⟩) : (evictStaleBatches now order w).isSome ↔
      ∀ b ∈ evicted w.store now order, b ∈ scheduledBatches w.heap := by
  induction order generalizing w with
  | nil => simp [evictStaleBatches, evicted]
  | cons x left ih =>
    obtain ⟨key, v⟩ := x
    obtain ⟨hnodup, hall⟩ := h.listed key v (Or.inr List.mem_cons_self)
    have hstore : ∀ b ∈ v, w.store[b]? ≠ none := by
      intro b hb
      obtain ⟨B, hB, -⟩ := hall b hb
      simp [hB]
    have hsome := removeItems_isSome h.indexed hnodup hstore
    simp only [evictStaleBatches]
    by_cases hstale : hasStale w.store now v
    · have hcons : evicted w.store now ((key, v) :: left) =
          v.filter (noted w.store) ++ evicted w.store now left := by
        simp [evicted, hstale]
      rw [if_pos hstale, hcons]
      simp only [List.mem_append, List.mem_filter, or_imp, forall_and]
      cases hheap : removeItems w.store v w.heap with
      | none =>
        rw [hheap] at hsome
        simp only [Option.isSome_none, Bool.false_eq_true, false_iff] at hsome
        simp only [Option.bind_none, Option.isSome_none, Bool.false_eq_true, false_iff, not_and]
        intro hnot
        exact absurd (fun b hb hn => hnot b ⟨hb, hn⟩) hsome
      | some heap =>
        rw [hheap] at hsome
        simp only [Option.isSome_some, true_iff] at hsome
        have hlinked := linked_remove (linked_pick h) hheap
        rw [Option.bind_some, ih hlinked]
        have hkeep : ∀ b ∈ evicted w.store now left,
            b ∈ scheduledBatches heap ↔ b ∈ scheduledBatches w.heap := by
          intro b hb
          obtain ⟨key', v', hmem, -, hbv', hnoted⟩ := mem_evicted.mp hb
          have hafter : Listed ⟨{ w with heap, batches := w.batches.erase key }, .scan now left⟩
            key' v' := Or.inr hmem
          have hbefore : Listed ⟨w, .scan now ((key, v) :: left)⟩ key' v' :=
            Or.inr (List.mem_cons_of_mem _ hmem)
          have hnew := scheduled_iff hlinked hafter hbv' hnoted
          have hold := scheduled_iff h hbefore hbv' hnoted
          exact hnew.trans hold.symm
        constructor
        · intro hleft
          exact ⟨fun b hb => hsome b hb.1 hb.2, fun b hb => (hkeep b hb).mp (hleft b hb)⟩
        · intro hboth b hb
          exact (hkeep b hb).mpr (hboth.2 b hb)
    · rw [if_neg hstale, ih (linked_skip h)]
      simp [evicted, hstale]

theorem evictStaleBatches_now {order : List (String × List ℕ)}
    (hr : evictStaleBatches now order w = some w') : w'.now = w.now := by
  induction order generalizing w with
  | nil => exact congrArg Worker.now (Option.some.inj hr).symm
  | cons x left ih =>
    obtain ⟨key, v⟩ := x
    simp only [evictStaleBatches] at hr
    split at hr
    · obtain ⟨heap, -, hrest⟩ := Option.bind_eq_some_iff.mp hr
      exact (ih hrest).trans rfl
    · exact ih hr

/-- The steps of the eviction through the keys that are left, when no other goroutine
runs between them. -/
theorem evict_steps (cfg : Config) {order left : List (String × List ℕ)}
    (horder : order.Perm left) (hr : evictStaleBatches now order w = some w') : ∃ picks : List ℕ,
      run (Eviction.step cfg) ⟨w, .scan now left⟩ (picks.map (.evict w.now)) =
        some ⟨w', .scan now []⟩ := by
  induction order generalizing w left with
  | nil =>
    cases Option.some.inj hr
    rw [List.Perm.eq_nil horder.symm]
    exact ⟨[], rfl⟩
  | cons x rest ih =>
    obtain ⟨key, v⟩ := x
    obtain ⟨i, hi⟩ := List.mem_iff_getElem?.mp (horder.mem_iff.mp List.mem_cons_self)
    have hlt := (List.getElem?_eq_some_iff.mp hi).1
    have hrest : rest.Perm (left.eraseIdx i) := by
      have hperm := List.getElem_cons_eraseIdx_perm hlt
      rw [(List.getElem?_eq_some_iff.mp hi).2] at hperm
      exact (List.perm_cons _).mp (horder.trans hperm.symm)
    obtain ⟨y, ys, rfl⟩ : ∃ y ys, left = y :: ys := by
      cases left with
      | nil => simp at hlt
      | cons y ys => exact ⟨y, ys, rfl⟩
    simp only [evictStaleBatches] at hr
    split at hr
    · rename_i hstale
      obtain ⟨heap, hheap, hr'⟩ := Option.bind_eq_some_iff.mp hr
      obtain ⟨picks, hpicks⟩ := ih hrest hr'
      refine ⟨i :: 0 :: picks, ?_⟩
      simp only [List.map_cons, StepRuns.run_cons, Eviction.step, lt_irrefl, if_false, evictStep,
        hi, hstale, if_true, Option.bind_some, hheap, Option.map_some]
      exact hpicks
    · rename_i hstale
      obtain ⟨picks, hpicks⟩ := ih hrest hr
      refine ⟨i :: picks, ?_⟩
      simp only [List.map_cons, StepRuns.run_cons, Eviction.step, lt_irrefl, if_false, evictStep,
        hi, hstale]
      exact hpicks

/-- An uninterrupted call of `evictStaleBatches` is a run of the eviction alone. -/
theorem evictStaleBatches_run {t : ℤ} (ht : w.now ≤ t) {order : List (String × List ℕ)}
    (horder : order.Perm (snapshot w))
    (hr : evictStaleBatches t order { w with now := t } = some w') : ∃ picks : List ℕ,
      run (Eviction.step cfg) ⟨w, .idle⟩ (picks.map (.evict t)) = some ⟨w', .idle⟩ := by
  obtain ⟨picks, hpicks⟩ := evict_steps cfg horder hr
  have hnow : w'.now = t := evictStaleBatches_now hr
  refine ⟨0 :: 0 :: (picks ++ [0]), ?_⟩
  simp only [List.map_cons, List.map_append, List.map_nil, StepRuns.run_cons, Eviction.step,
    if_neg (not_lt.mpr ht), evictStep, Option.bind_some, lt_irrefl, if_false, StepRuns.run_append]
  refine (congrArg (Option.bind · _) hpicks).trans ?_
  simp [hnow]

/-- Every sub-packet in a scheduled batch is still there and scheduled with the same
deadline when the eviction returns, or was passed to `flush` in it. -/
def KeepsPending (now : ℤ) (w : Worker) : Prop :=
  ∀ order, order.Perm (snapshot w) → ∃ w', evictStaleBatches now order w = some w' ∧
    ∀ item ∈ w.heap.toList, ∀ sub ∈ held w item.batch,
      (item ∈ w'.heap.toList ∧ sub ∈ held w' item.batch) ∨
        ∃ f ∈ w'.flushed.drop w.flushed.length, sub ∈ decode f.buf

/-- What is removed from the heap for a batch in the map is no more in it: the batch has
one heap item at most. -/
theorem notMem_of_removed (h : Linked s) {removed left : List HeapItem} {item : HeapItem}
    {key : String} (hperm : s.worker.heap.toList.Perm (removed ++ left)) (hitem : item ∈ removed)
    (hb : item.batch ∈ s.worker.batches.val key) : item ∉ left := by
  intro hstill
  obtain ⟨B, hB, -⟩ := (h.listed key _ (Or.inl rfl)).2 item.batch hb
  have hle := (h.link item.batch B hB).times_le
  have h1 := List.count_pos_iff.mpr (List.mem_map_of_mem (f := HeapItem.batch) hitem)
  have h2 := List.count_pos_iff.mpr (List.mem_map_of_mem (f := HeapItem.batch) hstill)
  unfold queued at hle
  rw [List.map_append, List.count_append, (hperm.map HeapItem.batch).count_eq, List.map_append,
    List.count_append] at hle
  omega

/-- A batch that the eviction would remove has its item in the heap and is empty. -/
theorem held_eq_nil_of_keepsPending (h : Linked s) {now : ℤ} (hkeeps : KeepsPending now s.worker)
    {key : String} (hkey : key ∈ s.worker.batches.keys)
    (hstale : hasStale s.worker.store now (s.worker.batches.val key)) {b : ℕ}
    (hb : b ∈ s.worker.batches.val key) (hnoted : noted s.worker.store b) :
    b ∉ (expired s.worker.timer).map HeapItem.batch ∧ held s.worker b = [] := by
  have hscan := linked_scan h now (List.Perm.refl _)
  obtain ⟨w', hw', hitems⟩ := hkeeps _ (List.Perm.refl _)
  obtain ⟨-, hflushed, removed, hperm, hmap⟩ := evictStaleBatches_spec hscan hw'
  have hdoomed : b ∈ evicted s.worker.store now (snapshot s.worker) :=
    mem_evicted.mpr ⟨key, _, mem_snapshot.mpr ⟨hkey, rfl⟩, hstale, hb, hnoted⟩
  have hsched := (evictStaleBatches_isSome hscan).mp (by rw [hw']; rfl) b hdoomed
  refine ⟨(scheduled_iff h (Or.inl rfl) hb hnoted).mp hsched, ?_⟩
  rw [← hmap] at hdoomed
  obtain ⟨item, hitem, rfl⟩ := List.mem_map.mp hdoomed
  have hin : item ∈ s.worker.heap.toList :=
    hperm.mem_iff.mpr (List.mem_append_left _ hitem)
  apply List.eq_nil_iff_forall_not_mem.mpr
  intro sub hsub
  rcases hitems item hin sub hsub with ⟨hstill, -⟩ | ⟨f, hf, -⟩
  · exact notMem_of_removed h hperm hitem hb hstill
  · rw [hflushed, List.drop_length] at hf
    exact List.not_mem_nil hf

/-- If every batch that is removed is in the heap and empty, the eviction returns and all
other items stay. -/
theorem keepsPending_of_evicted (h : Linked s) {now : ℤ}
    (hevicted : ∀ order, order.Perm (snapshot s.worker) →
      ∀ b ∈ evicted s.worker.store now order,
        b ∈ scheduledBatches s.worker.heap ∧ held s.worker b = []) :
    KeepsPending now s.worker := by
  intro order horder
  have hscan := linked_scan h now horder
  obtain ⟨w', hw'⟩ := Option.isSome_iff_exists.mp
    ((evictStaleBatches_isSome hscan).mpr fun b hb => (hevicted order horder b hb).1)
  obtain ⟨hstore, -, removed, hperm, hmap⟩ := evictStaleBatches_spec hscan hw'
  refine ⟨w', hw', ?_⟩
  intro item hitem sub hsub
  apply Or.inl
  have hheld : held w' item.batch = held s.worker item.batch := by
    unfold held
    rw [hstore]
  refine ⟨?_, hheld ▸ hsub⟩
  rcases List.mem_append.mp (hperm.mem_iff.mp hitem) with hrem | hstay
  · have hmem := List.mem_map_of_mem (f := HeapItem.batch) hrem
    rw [hmap] at hmem
    rw [(hevicted order horder _ hmem).2] at hsub
    contradiction
  · exact hstay

/-- In every state that a worker can reach, an eviction keeps all pending data exactly
when no key with a stale batch has a batch with a heap item that has expired or with
data. -/
theorem keepsPending_iff {actions : List Eviction.Action} (now : ℤ)
    (hrun : run (Eviction.step cfg) Evicting.start actions = some s) :
    KeepsPending now s.worker ↔
      ∀ key ∈ s.worker.batches.keys, hasStale s.worker.store now (s.worker.batches.val key) →
        ∀ b ∈ s.worker.batches.val key, noted s.worker.store b →
          b ∉ (expired s.worker.timer).map HeapItem.batch ∧ held s.worker b = [] := by
  have h := linked_run hrun
  constructor
  · intro hkeeps key hkey hstale b hb hnoted
    exact held_eq_nil_of_keepsPending h hkeeps hkey hstale hb hnoted
  · intro hempty
    refine keepsPending_of_evicted h ?_
    intro order horder b hb
    obtain ⟨key, v, hmem, hstale, hbv, hnoted⟩ := mem_evicted.mp hb
    obtain ⟨hkey, rfl⟩ := mem_snapshot.mp (horder.mem_iff.mp hmem)
    obtain ⟨hexp, hheld⟩ := hempty key hkey hstale b hbv hnoted
    exact ⟨(scheduled_iff h (Or.inl rfl) hbv hnoted).mpr hexp, hheld⟩

theorem restedBatch_kept : ∃ s,
    run (Eviction.step smallBuffers) Evicting.start restedBatch = some s ∧
      s.worker.heap.toList = [⟨0, 60110000000⟩] ∧ KeepsPending 60049000000 s.worker := by
  have hend : (run (Eviction.step smallBuffers) Evicting.start restedBatch).map
      (fun s => (s.worker.heap.toList,
        s.worker.batches.keys.all fun key =>
          !hasStale s.worker.store 60049000000 (s.worker.batches.val key))) =
        some ([⟨0, 60110000000⟩], true) := by
    decide +kernel
  obtain ⟨s, hrun, hs⟩ := Option.map_eq_some_iff.mp hend
  obtain ⟨hheap, hfresh⟩ := Prod.mk.inj hs
  refine ⟨s, hrun, hheap, (keepsPending_iff 60049000000 hrun).mpr ?_⟩
  intro key hkey hstale
  have hnot := List.all_eq_true.mp hfresh key hkey
  simp [hstale] at hnot

/-- The second request waits for its timeout when the batch, last sent more than a minute
ago, is evicted: its item leaves the heap and nothing is sent. -/
theorem restedBatch_evicted : ∃ s,
    run (Eviction.step smallBuffers) Evicting.start restedBatch = some s ∧
      ¬ KeepsPending 60080000000 s.worker := by
  have hend : (run (Eviction.step smallBuffers) Evicting.start restedBatch).map
      (fun s => (s.worker.heap.toList, held s.worker 0, s.worker.flushed.length,
        (evictStaleBatches 60080000000 (snapshot s.worker) s.worker).map fun w =>
          (w.heap.toList, w.flushed.length))) =
        some ([⟨0, 60110000000⟩], [⟨2, List.replicate 128 10⟩], 1, some ([], 1)) := by
    decide +kernel
  obtain ⟨s, hrun, hs⟩ := Option.map_eq_some_iff.mp hend
  simp only [Prod.mk.injEq] at hs
  obtain ⟨hheap, hheld, hflushed, hevict⟩ := hs
  refine ⟨s, hrun, ?_⟩
  intro hkeeps
  obtain ⟨w', hw', hitems⟩ := hkeeps _ (List.Perm.refl _)
  rw [hw', Option.map_some, Option.some.injEq, Prod.mk.injEq] at hevict
  obtain ⟨hempty, hsame⟩ := hevict
  rcases hitems ⟨0, 60110000000⟩ (by simp [hheap]) ⟨2, List.replicate 128 10⟩
      (by simp [hheld]) with
    ⟨hstill, -⟩ | ⟨f, hf, -⟩
  · rw [hempty] at hstill
    exact List.not_mem_nil hstill
  · rw [List.drop_of_length_le (by omega)] at hf
    exact List.not_mem_nil hf

end Arcturus.PendingData
