import Arcturus.Eviction

/-!
The link between batches and heap items in the presence of evictions. An evicted batch
keeps its note of an item that is no longer in the heap, but it is not listed any more:
every batch that is listed, in the map or in what is left of its copy, and that notes
an item has exactly one in the heap or among the expired items.
-/

namespace Arcturus.EvictionInvariant

open TunnelPacket TunnelHandler Routes GoMaps IndexedHeap Aggregator AggregatorParts Eviction
open StepRuns (run)

/-- How often a batch is queued, and whether it notes that. -/
inductive Link (h : Handler) (b times : ℕ) (B : Batch) : Prop
  | resting : armed h ≠ some b → B.heapItem = none → times = 0 → Link h b times B
  | waiting : armed h ≠ some b → B.heapItem ≠ none → times ≤ 1 → Link h b times B
  | filled (deadline : ℤ) : h = .push b deadline → B.heapItem = none → times = 0 → Link h b times B
  | pushed (deadline : ℤ) : h = .finish b deadline → B.heapItem = none → times = 1 →
      Link h b times B

/-- The keys that an eviction has still to look at, with their batches. -/
def pending : Evictor → List (String × List ℕ)
  | .idle => []
  | .copy _ => []
  | .scan _ left => left
  | .remove _ key v left => (key, v) :: left

/-- The batches of a key, in the map or in the copy of it. -/
def Listed (s : Evicting) (key : String) (v : List ℕ) : Prop :=
  v = s.worker.batches.val key ∨ (key, v) ∈ pending s.evictor

/-- A listed batch exists under its key, and it is queued if it notes a heap item. -/
def Entered (w : Worker) (key : String) (b : ℕ) : Prop :=
  ∃ B, w.store[b]? = some B ∧ B.routingKey = key ∧ (B.heapItem ≠ none → b ∈ queued w)

structure Linked (s : Evicting) : Prop where
  indexed : Indexed s.worker.heap.slots
  armed_lt : ∀ b, armed s.worker.handler = some b → b < s.worker.store.length
  queued_lt : ∀ b ∈ queued s.worker, b < s.worker.store.length
  link : ∀ b B, s.worker.store[b]? = some B →
    Link s.worker.handler b ((queued s.worker).count b) B
  keys : s.worker.batches.keys.Nodup
  listed : ∀ key v, Listed s key v → v.Nodup ∧ ∀ b ∈ v, Entered s.worker key b
  pending : ((pending s.evictor).map Prod.fst).Nodup

theorem linked_start : Linked Evicting.start where
  indexed := indexed_empty
  armed_lt := by
    intro b hb
    simp [Evicting.start, Worker.start, armed] at hb
  queued_lt := by
    intro b hb
    simp [Evicting.start, Worker.start, queued, expired, MinHeap.empty, MinHeap.toList, vals] at hb
  link := by
    intro b B hB
    simp [Evicting.start, Worker.start] at hB
  keys := List.nodup_nil
  listed := by
    intro key v hv
    rcases hv with rfl | hv
    · exact ⟨List.nodup_nil, fun b hb => absurd hb List.not_mem_nil⟩
    · simp [Evicting.start, EvictionInvariant.pending] at hv
  pending := List.nodup_nil

theorem Link.of_not_armed {h h' : Handler} {b times : ℕ} {B : Batch} (hl : Link h b times B)
    (hh : armed h ≠ some b) (hh' : armed h' ≠ some b) : Link h' b times B := by
  cases hl with
  | resting _ hitem htimes => exact .resting hh' hitem htimes
  | waiting _ hitem htimes => exact .waiting hh' hitem htimes
  | filled _ heq => exact absurd (by rw [heq]; rfl) hh
  | pushed _ heq => exact absurd (by rw [heq]; rfl) hh

theorem Link.times_le {h : Handler} {b times : ℕ} {B : Batch} (hl : Link h b times B) :
    times ≤ 1 := by
  cases hl <;> omega

/-- An item that leaves the queue without its note being cleared. -/
theorem Link.leave {h : Handler} {b times times' : ℕ} {B : Batch} (hl : Link h b times B)
    (hle : times' ≤ times) (hsame : B.heapItem = none → times' = times) : Link h b times' B := by
  cases hl with
  | resting harmed hitem htimes => exact .resting harmed hitem (by omega)
  | waiting harmed hitem htimes => exact .waiting harmed hitem (by omega)
  | filled deadline hpush hitem htimes => exact .filled deadline hpush hitem (by omega)
  | pushed deadline hfinish hitem htimes =>
    exact .pushed deadline hfinish hitem ((hsame hitem).trans htimes)

section Steps
variable {cfg : Config} {s : Evicting} {w w' : Worker}

/-- What a step of the other two goroutines does to batches, heap items and locks: it
moves on, enters new batches, fills a batch, pushes an item, notes it, or clears it. -/
inductive Effect (w w' : Worker) : Prop
  | move (hstore : w'.store = w.store) (hbatches : w'.batches = w.batches)
      (hqueued : (queued w').Perm (queued w))
      (hindexed : Indexed w.heap.slots → Indexed w'.heap.slots)
      (hhandler : w'.handler = w.handler ∨ armed w.handler = none ∧ armed w'.handler = none)
  | enter (key : String) (fresh : List Batch)
      (hfresh : ∀ B ∈ fresh, B.routingKey = key ∧ B.heapItem = none)
      (hstore : w'.store = w.store ++ fresh)
      (hbatches : w'.batches = w.batches.set key
        (w.batches.val key ++ List.range' w.store.length fresh.length))
      (hheap : w'.heap = w.heap) (htimer : w'.timer = w.timer)
      (harmed : armed w.handler = none) (harmed' : armed w'.handler = none)
  | fill (b : ℕ) (B : Batch) (pkt : Packet) (hB : w.store[b]? = some B)
      (hstore : w'.store = w.store.set b { B with pkt }) (hbatches : w'.batches = w.batches)
      (hheap : w'.heap = w.heap) (htimer : w'.timer = w.timer) (harmed : armed w.handler = none)
      (hnext : (∃ deadline, B.heapItem = none ∧ w'.handler = .push b deadline) ∨
        B.heapItem ≠ none ∧ w'.handler = .idle)
  | push (b : ℕ) (deadline : ℤ) (hhandler : w.handler = .push b deadline)
      (hnext : w'.handler = .finish b deadline) (hstore : w'.store = w.store)
      (hbatches : w'.batches = w.batches) (htimer : w'.timer = w.timer)
      (hheap : w'.heap = w.heap.push { batch := b, deadline })
  | note (b : ℕ) (deadline : ℤ) (B : Batch) (hhandler : w.handler = .finish b deadline)
      (hnext : w'.handler = .idle) (hB : w.store[b]? = some B)
      (hstore : w'.store = w.store.set b { B with heapItem := some deadline })
      (hbatches : w'.batches = w.batches) (hheap : w'.heap = w.heap) (htimer : w'.timer = w.timer)
  | clear (item : HeapItem) (B B' : Batch) (hfree : w.handler.holds ≠ some item.batch)
      (hhandler : w'.handler = w.handler) (hB : w.store[item.batch]? = some B)
      (hstore : w'.store = w.store.set item.batch B') (hkey : B'.routingKey = B.routingKey)
      (hitem : B'.heapItem = none) (hbatches : w'.batches = w.batches)
      (hheap : w'.heap = w.heap) (hexpired : expired w.timer = item :: expired w'.timer)

theorem indexed_popExpired (now : ℤ) (fuel : ℕ) {heap : MinHeap HeapItem.deadline}
    (h : Indexed heap.slots) : Indexed (popExpired now fuel heap).2.slots := by
  induction fuel generalizing heap with
  | zero => exact h
  | succ fuel ih =>
    unfold popExpired
    split
    · exact h
    · rename_i top rest hpop
      split
      · exact h
      · exact ih (h.pop hpop)

theorem effect_flush (w : Worker) (f : Flush) : Effect w (flush w f) := by
  unfold flush
  split <;> exact .move rfl rfl (List.Perm.refl _) id (Or.inl rfl)

theorem effect_schedule {t : ℤ} {b : ℕ} {B : Batch} {pkt : Packet} (harmed : armed w.handler = none)
    (hB : w.store[b]? = some B) :
    Effect w (schedule cfg t { w with store := w.store.set b { B with pkt } } b B) := by
  unfold schedule
  split
  · rename_i hitem
    exact .fill b B pkt hB rfl rfl rfl rfl harmed (Or.inl ⟨_, hitem, rfl⟩)
  · rename_i deadline hitem
    exact .fill b B pkt hB rfl rfl rfl rfl harmed (Or.inr ⟨by simp [hitem], rfl⟩)

theorem effect_create {msg : AggregatorMsg} {t : ℤ} (hhandler : w.handler = .create msg)
    (hs : handlerStep cfg t w = some w') : Effect w w' := by
  have harmed : armed w.handler = none := by rw [hhandler]; rfl
  simp only [handlerStep, hhandler] at hs
  by_cases hkey : msg.routingKey ∈ w.batches.keys
  · simp only [if_pos hkey] at hs
    split at hs
    · contradiction
    all_goals
      cases Option.some.inj hs
      exact .move rfl rfl (List.Perm.refl _) id (Or.inr ⟨harmed, rfl⟩)
  · simp only [if_neg hkey] at hs
    have hempty : w.batches.val msg.routingKey = [] := w.batches.absent _ hkey
    have hfresh : ∀ B ∈ List.replicate (numBatches cfg msg.port) (newBatch cfg msg t),
        B.routingKey = msg.routingKey ∧ B.heapItem = none := by
      intro B hB
      rw [List.eq_of_mem_replicate hB]
      exact ⟨rfl, rfl⟩
    split at hs
    · contradiction
    all_goals
      cases Option.some.inj hs
      exact .enter _ _ hfresh rfl (by rw [hempty, List.nil_append]) rfl rfl harmed rfl

theorem effect_handlerStep {t : ℤ} (hs : handlerStep cfg t w = some w') : Effect w w' := by
  cases hhandler : w.handler with
  | idle => simp [handlerStep, hhandler] at hs
  | lookup msg =>
    have harmed : armed w.handler = none := by rw [hhandler]; rfl
    simp only [handlerStep, hhandler] at hs
    split at hs
    all_goals
      cases Option.some.inj hs
      exact .move rfl rfl (List.Perm.refl _) id (Or.inr ⟨harmed, rfl⟩)
  | create msg => exact effect_create hhandler hs
  | append msg b =>
    have harmed : armed w.handler = none := by rw [hhandler]; rfl
    have hfull : Effect w { w with handler := .overflow msg } :=
      .move rfl rfl (List.Perm.refl _) id (Or.inr ⟨harmed, rfl⟩)
    simp only [handlerStep, hhandler] at hs
    split at hs
    · contradiction
    · rename_i B hB
      split at hs
      · exact Option.some.inj hs ▸ hfull
      · split at hs
        · exact Option.some.inj hs ▸ hfull
        · rw [← hhandler] at hs
          exact Option.some.inj hs ▸ effect_schedule harmed hB
  | overflow msg =>
    have harmed : armed w.handler = none := by rw [hhandler]; rfl
    simp only [handlerStep, hhandler] at hs
    cases Option.some.inj hs
    refine .enter msg.routingKey [newBatch cfg msg t] ?_ rfl rfl rfl rfl harmed rfl
    intro B hB
    rw [List.mem_singleton.mp hB]
    exact ⟨rfl, rfl⟩
  | refill msg b =>
    have harmed : armed w.handler = none := by rw [hhandler]; rfl
    simp only [handlerStep, hhandler] at hs
    split at hs
    · contradiction
    · rename_i B hB
      rw [← hhandler] at hs
      exact Option.some.inj hs ▸ effect_schedule harmed hB
  | push b deadline =>
    simp only [handlerStep, hhandler] at hs
    cases Option.some.inj hs
    exact .push b deadline hhandler rfl rfl rfl rfl rfl
  | finish b deadline =>
    simp only [handlerStep, hhandler] at hs
    split at hs
    · contradiction
    · rename_i B hB
      cases Option.some.inj hs
      exact .note b deadline B hhandler rfl hB rfl rfl rfl rfl

theorem effect_timerStep {t : ℤ} (hs : timerStep t w = some w') : Effect w w' := by
  cases timerMove_of_step hs with
  | wait hexpired _ => exact .move rfl rfl (by simp [queued, hexpired]) id (Or.inl rfl)
  | @pop now r htimer hr =>
    refine .move rfl rfl ?_ (fun h => hr ▸ indexed_popExpired _ _ h) (Or.inl rfl)
    simpa [queued, htimer, expired, ← hr] using (popExpired_perm now _ w.heap).map HeapItem.batch
  | @copy now item items copies B q htimer hfree hB _ =>
    exact .clear item B _ hfree rfl hB rfl rfl rfl rfl rfl (by rw [htimer]; rfl)
  | send htimer =>
    unfold flush
    split
    all_goals exact .move rfl rfl (by simp [queued, htimer, expired]) id (Or.inl rfl)

theorem effect_receiveStep {msg : AggregatorMsg} (hs : receiveStep cfg msg w = some w') :
    Effect w w' := by
  unfold receiveStep at hs
  split at hs
  · rename_i hidle
    split at hs
    · split at hs
      · contradiction
      · cases Option.some.inj hs
        exact .move rfl rfl (List.Perm.refl _) id (Or.inl rfl)
      · exact Option.some.inj hs ▸ effect_flush w _
    · cases Option.some.inj hs
      exact .move rfl rfl (List.Perm.refl _) id (Or.inr ⟨by rw [hidle]; rfl, rfl⟩)
  · contradiction

theorem effect_step {a : Aggregator.Action} (hs : Aggregator.step cfg w a = some w') :
    Effect w w' := by
  unfold Aggregator.step at hs
  split at hs
  · exact effect_receiveStep hs
  · split at hs
    · contradiction
    · exact effect_handlerStep hs
  · split at hs
    · contradiction
    · exact effect_timerStep hs

/-- Entries for what is listed, when the listed batches stay as they are. -/
theorem Linked.listed_of (h : Linked s) (hbatches : w'.batches = s.worker.batches)
    (hentered : ∀ key b, Entered s.worker key b → Entered w' key b) (key : String) (v : List ℕ)
    (hv : Listed ⟨w', s.evictor⟩ key v) : v.Nodup ∧ ∀ b ∈ v, Entered w' key b := by
  have hold : Listed s key v := by
    rcases hv with hval | hpend
    · exact Or.inl (hval.trans (by rw [hbatches]))
    · exact Or.inr hpend
  obtain ⟨hnodup, hall⟩ := h.listed key v hold
  exact ⟨hnodup, fun b hb => hentered key b (hall b hb)⟩

theorem Linked.move (h : Linked s) (hstore : w'.store = s.worker.store)
    (hbatches : w'.batches = s.worker.batches) (hqueued : (queued w').Perm (queued s.worker))
    (hindexed : Indexed w'.heap.slots)
    (hhandler : w'.handler = s.worker.handler ∨
      armed s.worker.handler = none ∧ armed w'.handler = none) : Linked ⟨w', s.evictor⟩ where
  indexed := hindexed
  armed_lt := by
    intro b hb
    rw [hstore]
    rcases hhandler with heq | ⟨-, hnone⟩
    · exact h.armed_lt b (heq ▸ hb)
    · exact absurd (hnone.symm.trans hb) (by simp)
  queued_lt := by
    intro b hb
    rw [hstore]
    exact h.queued_lt b (hqueued.mem_iff.mp hb)
  link := by
    intro b B hB
    rw [hstore] at hB
    rw [hqueued.count_eq]
    have hlink := h.link b B hB
    rcases hhandler with heq | ⟨hnone, hnone'⟩
    · rw [heq]
      exact hlink
    · exact hlink.of_not_armed (by simp [hnone]) (by simp [hnone'])
  keys := by
    rw [hbatches]
    exact h.keys
  listed := by
    apply h.listed_of hbatches
    intro key b hb
    unfold Entered at hb ⊢
    rw [hstore, hqueued.mem_iff]
    exact hb
  pending := h.pending

/-- One batch is replaced, and only its place in the queue may change. -/
theorem Linked.set (h : Linked s) {b : ℕ} {B B' : Batch} (hB : s.worker.store[b]? = some B)
    (hstore : w'.store = s.worker.store.set b B') (hkey : B'.routingKey = B.routingKey)
    (hbatches : w'.batches = s.worker.batches) (hindexed : Indexed w'.heap.slots)
    (hcount : ∀ c, c ≠ b → (queued w').count c = (queued s.worker).count c)
    (hhandler : ∀ c, c ≠ b → w'.handler = s.worker.handler ∨
      armed s.worker.handler ≠ some c ∧ armed w'.handler ≠ some c)
    (harmed : ∀ c, armed w'.handler = some c → c < s.worker.store.length)
    (hlink : Link w'.handler b ((queued w').count b) B')
    (hqueued : B'.heapItem ≠ none → (B.heapItem ≠ none → b ∈ queued s.worker) → b ∈ queued w') :
    Linked ⟨w', s.evictor⟩ := by
  have hlt : b < s.worker.store.length := (List.getElem?_eq_some_iff.mp hB).1
  have hmem : ∀ c, c ≠ b → (c ∈ queued w' ↔ c ∈ queued s.worker) := by
    intro c hc
    rw [← List.count_pos_iff, ← List.count_pos_iff, hcount c hc]
  have hself : w'.store[b]? = some B' := by
    rw [hstore]
    exact List.getElem?_set_self hlt
  have hother : ∀ c, c ≠ b → w'.store[c]? = s.worker.store[c]? := by
    intro c hc
    rw [hstore]
    exact List.getElem?_set_ne hc.symm
  refine ⟨hindexed, ?_, ?_, ?_, ?_, ?_, h.pending⟩
  · intro c hc
    rw [hstore, List.length_set]
    exact harmed c hc
  · intro c hc
    rw [hstore, List.length_set]
    by_cases hcb : c = b
    · subst hcb
      exact hlt
    · exact h.queued_lt c ((hmem c hcb).mp hc)
  · intro c C hC
    by_cases hcb : c = b
    · subst hcb
      cases Option.some.inj (hself.symm.trans hC)
      exact hlink
    · rw [hother c hcb] at hC
      have hold := h.link c C hC
      rw [hcount c hcb]
      rcases hhandler c hcb with heq | ⟨hne, hne'⟩
      · rw [heq]
        exact hold
      · exact hold.of_not_armed hne hne'
  · rw [hbatches]
    exact h.keys
  · apply h.listed_of hbatches
    intro key c hc
    obtain ⟨C, hC, hCkey, hCqueued⟩ := hc
    by_cases hcb : c = b
    · subst hcb
      cases Option.some.inj (hB.symm.trans hC)
      exact ⟨B', hself, hkey.trans hCkey, fun hitem => hqueued hitem hCqueued⟩
    · refine ⟨C, (hother c hcb).trans hC, hCkey, ?_⟩
      intro hitem
      exact (hmem c hcb).mpr (hCqueued hitem)

/-- The list of a key with the numbers of new batches behind it. -/
theorem Linked.listed_append (h : Linked s) {key : String} {fresh : List Batch}
    (hstore : w'.store = s.worker.store ++ fresh)
    (hentered : ∀ b, Entered s.worker key b → Entered w' key b)
    (hnew : ∀ (b : ℕ) B, w'.store[b]? = some B → s.worker.store.length ≤ b →
      B.routingKey = key ∧ B.heapItem = none) :
    (s.worker.batches.val key ++ List.range' s.worker.store.length fresh.length).Nodup ∧
      ∀ b ∈ s.worker.batches.val key ++ List.range' s.worker.store.length fresh.length,
        Entered w' key b := by
  obtain ⟨hnodup, hall⟩ := h.listed key _ (Or.inl rfl)
  constructor
  · refine hnodup.append (List.nodup_range' ..) ?_
    intro b hb hb'
    obtain ⟨B, hB, -⟩ := hall b hb
    have hlt := (List.getElem?_eq_some_iff.mp hB).1
    have hge := (List.mem_range'_1.mp hb').1
    omega
  · intro b hb
    rcases List.mem_append.mp hb with hin | hrange
    · exact hentered b (hall b hin)
    · obtain ⟨hge, hlt⟩ := List.mem_range'_1.mp hrange
      have hB := List.getElem?_eq_getElem
        (show b < w'.store.length by rw [hstore, List.length_append]; exact hlt)
      obtain ⟨hk, hitem⟩ := hnew b _ hB hge
      exact ⟨_, hB, hk, fun hne => absurd hitem hne⟩

/-- New batches, which note nothing, are entered under a key. -/
theorem Linked.enter (h : Linked s) {key : String} {fresh : List Batch}
    (hfresh : ∀ B ∈ fresh, B.routingKey = key ∧ B.heapItem = none)
    (hstore : w'.store = s.worker.store ++ fresh)
    (hbatches : w'.batches = s.worker.batches.set key
      (s.worker.batches.val key ++ List.range' s.worker.store.length fresh.length))
    (hheap : w'.heap = s.worker.heap) (htimer : w'.timer = s.worker.timer)
    (harmed : armed s.worker.handler = none) (harmed' : armed w'.handler = none) :
    Linked ⟨w', s.evictor⟩ := by
  have hqueued : queued w' = queued s.worker := by
    unfold queued
    rw [hheap, htimer]
  have hold : ∀ (b : ℕ) B, s.worker.store[b]? = some B → w'.store[b]? = some B := by
    intro b B hB
    rw [hstore, List.getElem?_append_left (List.getElem?_eq_some_iff.mp hB).1]
    exact hB
  have hnew : ∀ (b : ℕ) B, w'.store[b]? = some B → s.worker.store.length ≤ b →
      B.routingKey = key ∧ B.heapItem = none := by
    intro b B hB hle
    rw [hstore, List.getElem?_append_right hle] at hB
    exact hfresh B (List.mem_of_getElem? hB)
  have hentered : ∀ key' b, Entered s.worker key' b → Entered w' key' b := by
    intro key' b hb
    obtain ⟨B, hB, hBkey, hBqueued⟩ := hb
    exact ⟨B, hold b B hB, hBkey, hqueued ▸ hBqueued⟩
  refine ⟨hheap ▸ h.indexed, ?_, ?_, ?_, ?_, ?_, h.pending⟩
  · intro b hb
    exact absurd (harmed'.symm.trans hb) (by simp)
  · intro b hb
    have hlt := h.queued_lt b (hqueued ▸ hb)
    rw [hstore, List.length_append]
    omega
  · intro b B hB
    rw [hqueued]
    rcases Nat.lt_or_ge b s.worker.store.length with hlt | hge
    · rw [hstore, List.getElem?_append_left hlt] at hB
      exact (h.link b B hB).of_not_armed (by simp [harmed]) (by simp [harmed'])
    · refine .resting (by simp [harmed']) (hnew b B hB hge).2 ?_
      apply List.count_eq_zero_of_not_mem
      intro hb
      exact absurd (h.queued_lt b hb) (by omega)
  · rw [hbatches]
    exact GoMap.nodup_set_keys h.keys key _
  · intro key' v hv
    rcases hv with hval | hpend
    · by_cases hkk : key' = key
      · subst hkk
        rw [hbatches, GoMap.set_val_same] at hval
        subst hval
        exact h.listed_append hstore (hentered key') hnew
      · rw [hbatches, GoMap.set_val_of_ne _ _ hkk] at hval
        obtain ⟨hnodup, hall⟩ := h.listed key' v (Or.inl hval)
        exact ⟨hnodup, fun b hb => hentered key' b (hall b hb)⟩
    · obtain ⟨hnodup, hall⟩ := h.listed key' v (Or.inr hpend)
      exact ⟨hnodup, fun b hb => hentered key' b (hall b hb)⟩

theorem linked_fill (h : Linked s) {b : ℕ} {B : Batch} {pkt : Packet}
    (hB : s.worker.store[b]? = some B) (hstore : w'.store = s.worker.store.set b { B with pkt })
    (hbatches : w'.batches = s.worker.batches) (hheap : w'.heap = s.worker.heap)
    (htimer : w'.timer = s.worker.timer) (harmed : armed s.worker.handler = none)
    (hnext : (∃ deadline, B.heapItem = none ∧ w'.handler = .push b deadline) ∨
      B.heapItem ≠ none ∧ w'.handler = .idle) : Linked ⟨w', s.evictor⟩ := by
  have hqueued : queued w' = queued s.worker := by
    unfold queued
    rw [hheap, htimer]
  have hlt : b < s.worker.store.length := (List.getElem?_eq_some_iff.mp hB).1
  have harmed' : ∀ c, armed w'.handler = some c → c = b := by
    intro c hc
    rcases hnext with ⟨deadline, -, heq⟩ | ⟨-, heq⟩
    · rw [heq] at hc
      exact (Option.some.inj hc).symm
    · simp [heq, armed] at hc
  have hlink := h.link b B hB
  refine h.set hB hstore rfl hbatches (hheap ▸ h.indexed) (fun c _ => by rw [hqueued]) ?_ ?_ ?_ ?_
  · intro c hc
    exact Or.inr ⟨by simp [harmed], fun heq => hc (harmed' c heq)⟩
  · intro c hc
    exact harmed' c hc ▸ hlt
  · rw [hqueued]
    rcases hnext with ⟨deadline, hitem, heq⟩ | ⟨hitem, heq⟩
    · cases hlink with
      | resting _ _ htimes => exact .filled deadline heq hitem htimes
      | waiting _ hne => exact absurd hitem hne
      | filled _ hpush => simp [hpush, armed] at harmed
      | pushed _ hfinish => simp [hfinish, armed] at harmed
    · exact .waiting (by simp [heq, armed]) hitem hlink.times_le
  · intro hitem hold
    rw [hqueued]
    exact hold hitem

theorem linked_push (h : Linked s) {b : ℕ} {deadline : ℤ}
    (hhandler : s.worker.handler = .push b deadline) (hnext : w'.handler = .finish b deadline)
    (hstore : w'.store = s.worker.store) (hbatches : w'.batches = s.worker.batches)
    (htimer : w'.timer = s.worker.timer)
    (hheap : w'.heap = s.worker.heap.push { batch := b, deadline }) :
    Linked ⟨w', s.evictor⟩ := by
  have hlt : b < s.worker.store.length := h.armed_lt b (by rw [hhandler]; rfl)
  have hB := List.getElem?_eq_getElem hlt
  have hqueued : (queued w').Perm (b :: queued s.worker) := by
    unfold queued
    rw [hheap, htimer]
    exact ((s.worker.heap.toList_push _).append_right _).map _
  have hlink := h.link b _ hB
  refine h.set hB (hstore.trans (set_same hB).symm) rfl hbatches ?_ ?_ ?_ ?_ ?_ ?_
  · rw [hheap]
    exact h.indexed.push _
  · intro c hc
    rw [hqueued.count_eq, List.count_cons_of_ne hc.symm]
  · intro c hc
    rw [hhandler, hnext]
    exact Or.inr ⟨by simpa [armed] using hc.symm, by simpa [armed] using hc.symm⟩
  · intro c hc
    rw [hnext] at hc
    exact Option.some.inj hc ▸ hlt
  · rw [hqueued.count_eq, List.count_cons_self]
    cases hlink with
    | resting hno => exact absurd (by rw [hhandler]; rfl) hno
    | waiting hno => exact absurd (by rw [hhandler]; rfl) hno
    | filled _ _ hitem htimes => exact .pushed deadline hnext hitem (by omega)
    | pushed _ hfinish => simp [hhandler] at hfinish
  · intro _ _
    exact hqueued.mem_iff.mpr List.mem_cons_self

theorem linked_note (h : Linked s) {b : ℕ} {deadline : ℤ} {B : Batch}
    (hhandler : s.worker.handler = .finish b deadline) (hnext : w'.handler = .idle)
    (hB : s.worker.store[b]? = some B)
    (hstore : w'.store = s.worker.store.set b { B with heapItem := some deadline })
    (hbatches : w'.batches = s.worker.batches) (hheap : w'.heap = s.worker.heap)
    (htimer : w'.timer = s.worker.timer) : Linked ⟨w', s.evictor⟩ := by
  have hqueued : queued w' = queued s.worker := by
    unfold queued
    rw [hheap, htimer]
  have htimes : (queued s.worker).count b = 1 := by
    cases h.link b B hB with
    | resting hno => exact absurd (by rw [hhandler]; rfl) hno
    | waiting hno => exact absurd (by rw [hhandler]; rfl) hno
    | filled _ hpush => simp [hhandler] at hpush
    | pushed _ _ _ htimes => exact htimes
  refine h.set hB hstore rfl hbatches (hheap ▸ h.indexed) (fun c _ => by rw [hqueued]) ?_ ?_ ?_ ?_
  · intro c hc
    rw [hhandler, hnext]
    exact Or.inr ⟨by simpa [armed] using hc.symm, by simp [armed]⟩
  · intro c hc
    simp [hnext, armed] at hc
  · rw [hqueued, hnext, htimes]
    exact .waiting (by simp [armed]) (by simp) le_rfl
  · intro _ _
    rw [hqueued, ← List.count_pos_iff, htimes]
    exact Nat.one_pos

theorem linked_clear (h : Linked s) {item : HeapItem} {B B' : Batch}
    (hfree : s.worker.handler.holds ≠ some item.batch) (hhandler : w'.handler = s.worker.handler)
    (hB : s.worker.store[item.batch]? = some B)
    (hstore : w'.store = s.worker.store.set item.batch B') (hkey : B'.routingKey = B.routingKey)
    (hitem : B'.heapItem = none) (hbatches : w'.batches = s.worker.batches)
    (hheap : w'.heap = s.worker.heap)
    (hexpired : expired s.worker.timer = item :: expired w'.timer) : Linked ⟨w', s.evictor⟩ := by
  have hqueued : (queued s.worker).Perm (item.batch :: queued w') := by
    unfold queued
    rw [hheap, hexpired]
    exact List.perm_middle.map HeapItem.batch
  have hnot : armed s.worker.handler ≠ some item.batch := fun hsome =>
    hfree (holds_of_armed hsome)
  have htimes : (queued w').count item.batch = 0 := by
    have hle := (h.link item.batch B hB).times_le
    rw [hqueued.count_eq, List.count_cons_self] at hle
    omega
  refine h.set hB hstore hkey hbatches (hheap ▸ h.indexed) ?_ (fun c _ => Or.inl hhandler) ?_ ?_ ?_
  · intro c hc
    rw [hqueued.count_eq, List.count_cons_of_ne hc.symm]
  · intro c hc
    exact h.armed_lt c (hhandler ▸ hc)
  · rw [htimes, hhandler]
    exact .resting hnot hitem rfl
  · intro hne _
    exact absurd hitem hne

/-- The steps of the other two goroutines keep the links. -/
theorem linked_work (h : Linked s) (heff : Effect s.worker w') : Linked ⟨w', s.evictor⟩ := by
  cases heff with
  | move hstore hbatches hqueued hindexed hhandler =>
    exact h.move hstore hbatches hqueued (hindexed h.indexed) hhandler
  | enter key fresh hfresh hstore hbatches hheap htimer harmed harmed' =>
    exact h.enter hfresh hstore hbatches hheap htimer harmed harmed'
  | fill b B pkt hB hstore hbatches hheap htimer harmed hnext =>
    exact linked_fill h hB hstore hbatches hheap htimer harmed hnext
  | push b deadline hhandler hnext hstore hbatches htimer hheap =>
    exact linked_push h hhandler hnext hstore hbatches htimer hheap
  | note b deadline B hhandler hnext hB hstore hbatches hheap htimer =>
    exact linked_note h hhandler hnext hB hstore hbatches hheap htimer
  | clear item B B' hfree hhandler hB hstore hkey hitem hbatches hheap hexpired =>
    exact linked_clear h hfree hhandler hB hstore hkey hitem hbatches hheap hexpired

end Steps

end Arcturus.EvictionInvariant
