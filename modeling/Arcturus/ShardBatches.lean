import Arcturus.AggregatorV2

/-!
The batches of a shard in every state that the sharded aggregator can reach. A batch is in
the heap or among the expired items at most once, and only while it notes a heap item or is
about to; the goroutine that takes messages and the one that sends what has timed out never
have the same batch locked. The payload length of a packet is out of date from the time it
is sent until the next append, but not of a packet that is on its way to be sent.
-/

namespace Arcturus.ShardBatches

open Bytes TunnelPacket TunnelHandler PacketCodec Routes BatchPacket IndexedHeap AggregatorV2
open Aggregator (Config Batch HeapItem Handler Worker handlerStep popExpired newBatch)
open AggregatorParts (armed)
open Eviction (Evicting Evictor evictStep removeItems heapRemove)

/-- The items that `checkTimeout` has taken from the heap and not dealt with. -/
def taken : Timer → List HeapItem
  | .drain _ items => items
  | .sending _ item _ items => item :: items
  | _ => []

/-- The batches that wait to be sent. -/
def waiting (sh : Shard) : List ℕ := (sh.worker.heap.toList ++ taken sh.timer).map HeapItem.batch

/-- What a step can do to a shard. -/
inductive ShardStep (cfg : Config) (sh : Shard) : Shard → Prop
  | receiver (r : Receiver) : ShardStep cfg sh { sh with receiver := r }
  | lookup (msg : AggregatorMsg) : sh.worker.handler = .idle →
      ShardStep cfg sh { sh with worker := { sh.worker with handler := .lookup msg } }
  | handle {t : ℤ} {w : Worker} : sh.locked = false → handlerStep cfg t sh.worker = some w →
      ShardStep cfg sh { sh with worker := w }
  | turn {timer : Timer} : taken sh.timer = [] → taken timer = [] →
      ShardStep cfg sh { sh with timer }
  | pop {now : ℤ} {items : List HeapItem} {heap : MinHeap HeapItem.deadline} :
      sh.timer = .pop now → (heap.toList ++ items).Perm sh.worker.heap.toList →
      ShardStep cfg sh { sh with worker := { sh.worker with heap }, timer := .drain now items }
  | copy {now : ℤ} {item : HeapItem} {items : List HeapItem} {b : Batch} {pkt : Packet}
      {task : SendTask} : sh.timer = .drain now (item :: items) →
      sh.worker.handler.holds ≠ some item.batch → sh.worker.store[item.batch]? = some b →
      b.pkt.serializeHead = .ok pkt →
      ShardStep cfg sh { sh with
        worker := { sh.worker with store := sh.worker.store.set item.batch { b with pkt } }
        timer := .sending now item task items }
  | clear {now : ℤ} {item : HeapItem} {items : List HeapItem} {task : SendTask} :
      sh.timer = .sending now item task items →
      ShardStep cfg sh { sh with
        worker := { sh.worker with
          store := sh.worker.store.modify item.batch fun b =>
            { b with pkt := { b.pkt with wp := headerSize }, createTime := now, heapItem := none } }
        timer := .drain now items }
  | evict {t : ℤ} {k : ℕ} {e : Evictor} {r : Evicting} :
      evictStep t k ⟨sh.worker, e⟩ = some r → ShardStep cfg sh { sh with worker := r.worker }

section Steps
variable {cfg : Config} {s s' : Sys} {a : Action}

theorem setShard_shards {i : Fin shardCount} {sh : Shard} (h : ShardStep cfg (s.shards i) sh)
    (j : Fin shardCount) : (s.setShard i sh).shards j = s.shards j ∨
      ShardStep cfg (s.shards j) ((s.setShard i sh).shards j) := by
  have hshards : (s.setShard i sh).shards j = Function.update s.shards i sh j := rfl
  rw [hshards]
  by_cases hj : j = i
  · subst hj
    rw [Function.update_self]
    exact Or.inr h
  · rw [Function.update_of_ne hj]
    exact Or.inl rfl

theorem shardStep_handleMsg {msg : AggregatorMsg} {pool : List ℕ} {sh : Shard}
    {r : Shard × List ℕ} (hidle : sh.worker.handler = .idle)
    (h : handleMsg cfg msg pool sh = some r) : ShardStep cfg sh r.1 := by
  unfold handleMsg at h
  split at h
  · split at h
    · cases h
    · cases h
      exact .receiver sh.receiver
    · split at h
      · cases h
      · cases h
        exact .receiver _
  · cases h
    exact .lookup msg hidle

theorem shardStep_receive {i : Fin shardCount} (h : s.receive cfg i = some s')
    (j : Fin shardCount) :
    s'.shards j = s.shards j ∨ ShardStep cfg (s.shards j) (s'.shards j) := by
  unfold Sys.receive at h
  dsimp only at h
  split at h
  · cases h
  rename_i hready
  have hidle : (s.shards i).worker.handler = .idle := by
    by_contra hbusy
    exact hready (Or.inr hbusy)
  split at h
  · cases h
  · cases h
    exact setShard_shards (.receiver .returned) j
  · split at h
    · obtain ⟨r, hr, rfl⟩ := Option.map_eq_some_iff.mp h
      exact setShard_shards (shardStep_handleMsg hidle hr) j
    · cases h
      exact Or.inl rfl

theorem shardStep_handle {i : Fin shardCount} {t : ℤ} (h : s.handle cfg i t = some s')
    (j : Fin shardCount) :
    s'.shards j = s.shards j ∨ ShardStep cfg (s.shards j) (s'.shards j) := by
  unfold Sys.handle at h
  dsimp only at h
  split at h
  · cases h
  rename_i hfree
  have hlocked : (s.shards i).locked = false := by
    by_contra hlocked
    exact hfree (Or.inr (by simpa using hlocked))
  obtain ⟨worker, hworker, rfl⟩ := Option.map_eq_some_iff.mp h
  exact setShard_shards (.handle hlocked hworker) j

theorem shardStep_sendAlone {i : Fin shardCount} (h : s.sendAlone i = some s')
    (j : Fin shardCount) :
    s'.shards j = s.shards j ∨ ShardStep cfg (s.shards j) (s'.shards j) := by
  unfold Sys.sendAlone at h
  dsimp only at h
  split at h
  · split at h
    · cases h
    · cases h
      exact Or.inl rfl
    · cases h
      exact setShard_shards (.receiver .running) j
  · cases h

theorem shardStep_checkTimeout {i : Fin shardCount} {t : ℤ} (h : s.checkTimeout i t = some s')
    (j : Fin shardCount) :
    s'.shards j = s.shards j ∨ ShardStep cfg (s.shards j) (s'.shards j) := by
  unfold Sys.checkTimeout at h
  dsimp only at h
  split at h
  case h_1 htimer =>
    split at h
    · cases h
    · cases h
      exact setShard_shards (.turn (by rw [htimer]; rfl) rfl) j
  case h_2 now htimer =>
    cases h
    exact setShard_shards (.pop htimer (AggregatorParts.popExpired_perm now _ _)) j
  case h_3 htimer =>
    cases h
    exact setShard_shards (.turn (by rw [htimer]; rfl) rfl) j
  case h_4 now item items htimer =>
    split at h
    · cases h
    rename_i hfree
    split at h
    · cases h
    rename_i b hb
    split at h
    · cases h
    rename_i pkt hpkt
    split at h
    · cases h
    · cases h
      exact setShard_shards (.copy htimer hfree hb hpkt) j
  case h_5 now item task items htimer =>
    split at h
    · cases h
    · cases h
      exact Or.inl rfl
    · cases h
      exact setShard_shards (.clear htimer) j
  case h_6 => cases h

theorem shardStep_returnTimer {i : Fin shardCount} (h : s.returnTimer i = some s')
    (j : Fin shardCount) :
    s'.shards j = s.shards j ∨ ShardStep cfg (s.shards j) (s'.shards j) := by
  obtain ⟨⟨-, hidle⟩, h⟩ := Option.ite_none_right_eq_some.mp h
  cases h
  exact setShard_shards (.turn (by rw [hidle]; rfl) rfl) j

theorem shardStep_evictStaleBatches {t : ℤ} {k : ℕ} (h : s.evictStaleBatches t k = some s')
    (j : Fin shardCount) :
    s'.shards j = s.shards j ∨ ShardStep cfg (s.shards j) (s'.shards j) := by
  unfold Sys.evictStaleBatches at h
  split at h
  · split at h
    · cases h
    · cases h
      exact Or.inl rfl
  · split at h
    · cases h
      exact Or.inl rfl
    · cases h
      exact Or.inl rfl
  · obtain ⟨r, hr, rfl⟩ := Option.map_eq_some_iff.mp h
    exact setShard_shards (.evict hr) j
  · cases h

/-- Every step of the system leaves a shard as it is or makes a step at it. -/
theorem shardStep_of_step (h : step cfg s a = some s') (j : Fin shardCount) :
    s'.shards j = s.shards j ∨ ShardStep cfg (s.shards j) (s'.shards j) := by
  have hrunning : ¬ s.crashed = true := by simp [not_crashed_of_step h]
  unfold step at h
  rw [if_neg hrunning] at h
  cases a with
  | addToBatch msg =>
    obtain ⟨-, ⟨-, rfl⟩ | ⟨ch, -, rfl⟩⟩ := addToBatch_cases h
    all_goals exact Or.inl rfl
  | receive i => exact shardStep_receive h j
  | handle i t => exact shardStep_handle h j
  | sendAlone i => exact shardStep_sendAlone h j
  | checkTimeout i t => exact shardStep_checkTimeout h j
  | returnTimer i => exact shardStep_returnTimer h j
  | evictStaleBatches t k => exact shardStep_evictStaleBatches h j
  | returnEviction =>
    change s.returnEviction = some s' at h
    unfold Sys.returnEviction at h
    split at h
    · obtain ⟨-, h⟩ := Option.ite_none_right_eq_some.mp h
      cases h
      exact Or.inl rfl
    · cases h
  | dispatch =>
    rcases dispatch_cases h with ⟨_, _, -, -, -, rfl⟩ | ⟨_, _, -, -, ⟨-, rfl⟩ | ⟨_, -, rfl⟩⟩
    all_goals exact Or.inl rfl
  | work k =>
    obtain ⟨_, -, ⟨_, -, rfl⟩ | ⟨-, _, _, -, rfl⟩⟩ := work_cases h
    all_goals exact Or.inl rfl
  | recycle pool =>
    obtain ⟨-, h⟩ := Option.ite_none_right_eq_some.mp h
    cases h
    exact Or.inl rfl
  | stop =>
    rcases stopNext_cases h with ⟨-, rfl⟩ | ⟨-, rfl⟩ | ⟨-, rfl⟩ | ⟨-, rfl⟩ | ⟨_, -, rfl⟩
    all_goals exact Or.inl rfl

end Steps

/-- A batch that is `times` times in the heap or among the expired items. -/
structure Tracked (cfg : Config) (h : Handler) (b times : ℕ) (B : Batch) : Prop where
  sized : Sized cfg.bufferSize B.pkt
  once : times ≤ 1
  rests : armed h ≠ some b → B.heapItem = none → times = 0
  unpushed : ∀ deadline, h = .push b deadline → times = 0
  noted : B.heapItem ≠ none ∨ h.holds = some b → LengthNoted B.pkt

structure ShardInv (cfg : Config) (sh : Shard) : Prop where
  tracked : ∀ b B, sh.worker.store[b]? = some B →
    Tracked cfg sh.worker.handler b ((waiting sh).count b) B
  waiting_lt : ∀ b ∈ waiting sh, b < sh.worker.store.length
  held_lt : ∀ b, sh.worker.handler.holds = some b → b < sh.worker.store.length
  apart : ∀ b, sh.timer.holds = some b → sh.worker.handler.holds ≠ some b

section Invariant
variable {cfg : Config} {sh sh' : Shard}

theorem Tracked.leave {h : Handler} {b times times' : ℕ} {B : Batch}
    (ht : Tracked cfg h b times B) (hle : times' ≤ times) : Tracked cfg h b times' B where
  sized := ht.sized
  once := hle.trans ht.once
  rests harmed hitem := by
    have := ht.rests harmed hitem
    omega
  unpushed deadline hpush := by
    have := ht.unpushed deadline hpush
    omega
  noted := ht.noted

/-- The handler moves on to where it neither has nor gets the lock of the batch. -/
theorem Tracked.pass {h h' : Handler} {b times : ℕ} {B : Batch} (ht : Tracked cfg h b times B)
    (hh : armed h ≠ some b) (hh' : h'.holds ≠ some b) : Tracked cfg h' b times B where
  sized := ht.sized
  once := ht.once
  rests _ := ht.rests hh
  unpushed deadline hpush := absurd (by rw [hpush]; rfl) hh'
  noted hwhy := ht.noted (Or.inl (hwhy.resolve_right hh'))

theorem holds_lt_of_timer (h : ShardInv cfg sh) {b : ℕ} (hb : sh.timer.holds = some b) :
    b < sh.worker.store.length := by
  apply h.waiting_lt
  unfold waiting
  cases htimer : sh.timer with
  | sending now item task items =>
    rw [htimer] at hb
    cases hb
    simp [taken]
  | _ =>
    rw [htimer] at hb
    cases hb

/-- A step that leaves the batches as they are, with the handler at no batch. -/
theorem ShardInv.goto (h : ShardInv cfg sh) {w : Worker} (hstore : w.store = sh.worker.store)
    (hheap : w.heap = sh.worker.heap) (hfree : armed sh.worker.handler = none)
    (hholds : w.handler.holds = none) : ShardInv cfg { sh with worker := w } := by
  have hwaiting : waiting { sh with worker := w } = waiting sh := by
    unfold waiting
    rw [hheap]
  refine ⟨?_, ?_, by simp [hholds], by simp [hholds]⟩
  · intro b B hB
    rw [hwaiting]
    rw [hstore] at hB
    exact (h.tracked b B hB).pass (by simp [hfree]) (by simp [hholds])
  · rw [hwaiting, hstore]
    exact h.waiting_lt

/-- New batches, of which the handler may have locked the last. -/
theorem ShardInv.enter (h : ShardInv cfg sh) {w : Worker} {fresh : List Batch}
    (hfresh : ∀ B ∈ fresh, ∃ msg t, B = newBatch cfg msg t)
    (hstore : w.store = sh.worker.store ++ fresh) (hheap : w.heap = sh.worker.heap)
    (hfree : armed sh.worker.handler = none)
    (hholds : ∀ b, w.handler.holds = some b →
      sh.worker.store.length ≤ b ∧ b < w.store.length) :
    ShardInv cfg { sh with worker := w } := by
  have hwaiting : waiting { sh with worker := w } = waiting sh := by
    unfold waiting
    rw [hheap]
  have hlen : w.store.length = sh.worker.store.length + fresh.length := by
    rw [hstore, List.length_append]
  refine ⟨?_, ?_, fun b hb => (hholds b hb).2, ?_⟩
  · intro b B hB
    rw [hwaiting]
    rw [hstore] at hB
    by_cases hb : b < sh.worker.store.length
    · rw [List.getElem?_append_left hb] at hB
      refine (h.tracked b B hB).pass (by simp [hfree]) fun hlocked => ?_
      have := (hholds b hlocked).1
      omega
    · rw [List.getElem?_append_right (by omega)] at hB
      obtain ⟨msg, t, rfl⟩ := hfresh B (List.mem_of_getElem? hB)
      have hnone : (waiting sh).count b = 0 := by
        rw [List.count_eq_zero]
        exact fun hmem => hb (h.waiting_lt b hmem)
      rw [hnone]
      refine ⟨sized_newBatchPacket _ msg, by omega, fun _ _ => rfl, fun _ _ => rfl, ?_⟩
      exact fun _ => lengthNoted_newBatchPacket _ msg
  · rw [hwaiting]
    intro b hb
    have := h.waiting_lt b hb
    change b < w.store.length
    omega
  · intro b hb hlocked
    have hlt := holds_lt_of_timer h hb
    have := (hholds b hlocked).1
    omega

/-- A step at one batch that does not change what waits. -/
theorem ShardInv.set (h : ShardInv cfg sh) {w : Worker} {b : ℕ} {B B' : Batch}
    (hB : sh.worker.store[b]? = some B) (hstore : w.store = sh.worker.store.set b B')
    (hheap : w.heap = sh.worker.heap)
    (hothers : ∀ c, c ≠ b → armed sh.worker.handler ≠ some c ∧ w.handler.holds ≠ some c)
    (hat : Tracked cfg w.handler b ((waiting sh).count b) B')
    (hapart : sh.timer.holds = some b → w.handler.holds ≠ some b) :
    ShardInv cfg { sh with worker := w } := by
  have hwaiting : waiting { sh with worker := w } = waiting sh := by
    unfold waiting
    rw [hheap]
  obtain ⟨hlt, -⟩ := List.getElem?_eq_some_iff.mp hB
  refine ⟨?_, ?_, ?_, ?_⟩
  · intro c C hC
    rw [hwaiting]
    change w.store[c]? = some C at hC
    rw [hstore] at hC
    by_cases hc : c = b
    · subst hc
      rw [List.getElem?_set_self hlt, Option.some.injEq] at hC
      exact hC ▸ hat
    · rw [List.getElem?_set_ne (Ne.symm hc)] at hC
      exact (h.tracked c C hC).pass (hothers c hc).1 (hothers c hc).2
  · rw [hwaiting]
    change ∀ b ∈ waiting sh, b < w.store.length
    rw [hstore, List.length_set]
    exact h.waiting_lt
  · change ∀ c, w.handler.holds = some c → c < w.store.length
    rw [hstore, List.length_set]
    intro c hc
    by_cases hcb : c = b
    · exact hcb ▸ hlt
    · exact absurd hc (hothers c hcb).2
  · intro c hc
    by_cases hcb : c = b
    · exact hcb ▸ hapart (hcb ▸ hc)
    · exact (hothers c hcb).2

/-- The end of the section under the lock of a batch. -/
theorem inv_schedule (h : ShardInv cfg sh) {t : ℤ} {b : ℕ} {B : Batch} {pkt : Packet} {w : Worker}
    (hB : sh.worker.store[b]? = some B) (harmed : armed sh.worker.handler = none)
    (hopen : sh.timer.holds ≠ some b) (hsized : Sized cfg.bufferSize pkt)
    (hnoted : LengthNoted pkt)
    (hw : Aggregator.schedule cfg t
      { sh.worker with store := sh.worker.store.set b { B with pkt } } b B = w) :
    ShardInv cfg { sh with worker := w } := by
  obtain ⟨now, h', heq, hnext⟩ := AggregatorParts.schedule_spec cfg t
    { sh.worker with store := sh.worker.store.set b { B with pkt } } b B
  have hold := h.tracked b B hB
  rw [← hw, heq]
  refine h.set hB rfl rfl ?_ ?_ (fun hholds => absurd hholds hopen)
  · intro c hc
    refine ⟨by simp [harmed], ?_⟩
    rcases hnext with ⟨-, rfl⟩ | ⟨-, rfl⟩
    · simpa [Handler.holds] using Ne.symm hc
    · simp [Handler.holds]
  · rcases hnext with ⟨hnone, rfl⟩ | ⟨hsome, rfl⟩
    · have htimes := hold.rests (by simp [harmed]) hnone
      rw [htimes]
      exact ⟨hsized, by omega, fun _ _ => rfl, fun _ _ => rfl, fun _ => hnoted⟩
    · refine ⟨hsized, hold.once, fun _ hnone => absurd hnone hsome, ?_, fun _ => hnoted⟩
      intro deadline hpush
      cases hpush

theorem inv_push (h : ShardInv cfg sh) {b : ℕ} {deadline : ℤ}
    (hhandler : sh.worker.handler = .push b deadline) :
    ShardInv cfg { sh with worker := { sh.worker with
      heap := sh.worker.heap.push { batch := b, deadline }, handler := .finish b deadline } } := by
  have hholds : sh.worker.handler.holds = some b := by rw [hhandler]; rfl
  have hwaiting : (waiting { sh with worker := { sh.worker with
      heap := sh.worker.heap.push { batch := b, deadline }
      handler := .finish b deadline } }).Perm (b :: waiting sh) :=
    ((sh.worker.heap.toList_push _).append_right _).map _
  refine ⟨?_, ?_, ?_, ?_⟩
  · intro c C hC
    have hold := h.tracked c C hC
    rw [hwaiting.count_eq]
    by_cases hc : c = b
    · subst hc
      rw [List.count_cons_self, hold.unpushed deadline hhandler]
      refine ⟨hold.sized, by omega, fun hno => absurd rfl hno, fun _ hpush => ?_, fun _ => ?_⟩
      · cases hpush
      · exact hold.noted (Or.inr hholds)
    · rw [List.count_cons_of_ne (Ne.symm hc)]
      refine hold.pass ?_ (by simpa [Handler.holds] using Ne.symm hc)
      rw [hhandler]
      simpa [armed] using Ne.symm hc
  · intro c hc
    rcases List.mem_cons.mp (hwaiting.mem_iff.mp hc) with rfl | hold
    · exact h.held_lt c hholds
    · exact h.waiting_lt c hold
  · intro c hc
    cases hc
    exact h.held_lt b hholds
  · intro c hc hsame
    cases hsame
    exact h.apart b hc hholds

theorem inv_finish (h : ShardInv cfg sh) {b : ℕ} {deadline : ℤ} {B : Batch}
    (hhandler : sh.worker.handler = .finish b deadline)
    (hB : sh.worker.store[b]? = some B) :
    ShardInv cfg { sh with worker := { sh.worker with
      store := sh.worker.store.set b { B with heapItem := some deadline }
      handler := .idle } } := by
  have hold := h.tracked b B hB
  refine h.set hB rfl rfl ?_ ?_ (by simp [Handler.holds])
  · intro c hc
    rw [hhandler]
    exact ⟨by simpa [armed] using Ne.symm hc, by simp [Handler.holds]⟩
  · refine ⟨hold.sized, hold.once, fun _ hnone => ?_, fun _ hpush => ?_, fun _ => ?_⟩
    · cases hnone
    · cases hpush
    · exact hold.noted (Or.inr (by rw [hhandler]; rfl))

/-- The new batches are entered, or the key is found to have some. -/
theorem inv_create (h : ShardInv cfg sh) {t : ℤ} {w : Worker} {msg : AggregatorMsg}
    (hhandler : sh.worker.handler = .create msg) (hs : handlerStep cfg t sh.worker = some w) :
    ShardInv cfg { sh with worker := w } := by
  have harmed : armed sh.worker.handler = none := by rw [hhandler]; rfl
  simp only [handlerStep, hhandler] at hs
  by_cases hkey : msg.routingKey ∈ sh.worker.batches.keys
  · simp only [if_pos hkey] at hs
    split at hs
    · cases hs
    all_goals
      cases hs
      exact h.goto rfl rfl harmed rfl
  · simp only [if_neg hkey] at hs
    have hfresh : ∀ B ∈ List.replicate (Aggregator.numBatches cfg msg.port) (newBatch cfg msg t),
        ∃ msg t, B = newBatch cfg msg t :=
      fun B hB => ⟨msg, t, List.eq_of_mem_replicate hB⟩
    split at hs
    · cases hs
    all_goals
      cases hs
      exact h.enter hfresh rfl rfl harmed (by simp [Handler.holds])

theorem inv_handlerStep (h : ShardInv cfg sh) {t : ℤ} {w : Worker} (hfree : sh.locked = false)
    (hs : handlerStep cfg t sh.worker = some w) : ShardInv cfg { sh with worker := w } := by
  cases hhandler : sh.worker.handler with
  | idle => simp [handlerStep, hhandler] at hs
  | lookup msg =>
    have harmed : armed sh.worker.handler = none := by rw [hhandler]; rfl
    simp only [handlerStep, hhandler] at hs
    split at hs
    all_goals
      cases hs
      exact h.goto rfl rfl harmed rfl
  | create msg => exact inv_create h hhandler hs
  | append msg b =>
    have harmed : armed sh.worker.handler = none := by rw [hhandler]; rfl
    have hopen : sh.timer.holds ≠ some b := by simpa [Shard.locked, hhandler] using hfree
    have hfull : ShardInv cfg { sh with worker := { sh.worker with handler := .overflow msg } } :=
      h.goto rfl rfl harmed rfl
    simp only [handlerStep, hhandler] at hs
    split at hs
    · cases hs
    rename_i B hB
    split at hs
    · exact Option.some.inj hs ▸ hfull
    split at hs
    · exact Option.some.inj hs ▸ hfull
    · rename_i pkt happ
      rw [← hhandler] at hs
      exact inv_schedule h hB harmed hopen ((h.tracked b B hB).sized.append happ)
        (append_payloadLen happ) (Option.some.inj hs)
  | overflow msg =>
    have harmed : armed sh.worker.handler = none := by rw [hhandler]; rfl
    simp only [handlerStep, hhandler] at hs
    cases hs
    refine h.enter ?_ rfl rfl harmed ?_
    · intro B hB
      exact ⟨msg, t, List.mem_singleton.mp hB⟩
    · intro b hb
      cases hb
      exact ⟨le_rfl, by simp⟩
  | refill msg b =>
    have harmed : armed sh.worker.handler = none := by rw [hhandler]; rfl
    have hholds : sh.worker.handler.holds = some b := by rw [hhandler]; rfl
    simp only [handlerStep, hhandler] at hs
    split at hs
    · cases hs
    rename_i B hB
    have hold := h.tracked b B hB
    rw [← hhandler] at hs
    obtain ⟨hsized, hnoted⟩ :=
      sized_appendUserPacket hold.sized (hold.noted (Or.inr hholds)) msg.userID msg.data
    exact inv_schedule h hB harmed (fun hlock => h.apart b hlock hholds) hsized hnoted
      (Option.some.inj hs)
  | push b deadline =>
    simp only [handlerStep, hhandler] at hs
    exact Option.some.inj hs ▸ inv_push h hhandler
  | finish b deadline =>
    simp only [handlerStep, hhandler] at hs
    split at hs
    · cases hs
    · rename_i B hB
      exact Option.some.inj hs ▸ inv_finish h hhandler hB

/-- Batches may leave the heap without being sent. -/
theorem ShardInv.leave (h : ShardInv cfg sh) {w : Worker} {timer : Timer}
    (hstore : w.store = sh.worker.store) (hhandler : w.handler = sh.worker.handler)
    (hwaiting : (waiting { sh with worker := w, timer }).Subperm (waiting sh))
    (htimer : timer.holds = none ∨ timer.holds = sh.timer.holds) :
    ShardInv cfg { sh with worker := w, timer } := by
  refine ⟨?_, ?_, ?_, ?_⟩
  · intro b B hB
    change w.store[b]? = some B at hB
    rw [hstore] at hB
    change Tracked cfg w.handler b _ B
    rw [hhandler]
    exact (h.tracked b B hB).leave (hwaiting.count_le b)
  · intro b hb
    change b < w.store.length
    rw [hstore]
    exact h.waiting_lt b (hwaiting.subset hb)
  · change ∀ b, w.handler.holds = some b → b < w.store.length
    rw [hhandler, hstore]
    exact h.held_lt
  · intro b hb
    change timer.holds = some b at hb
    change w.handler.holds ≠ some b
    rw [hhandler]
    rcases htimer with hnone | hsame
    · rw [hnone] at hb
      cases hb
    · exact h.apart b (hsame ▸ hb)

theorem holds_of_taken_nil {timer : Timer} (h : taken timer = []) : timer.holds = none := by
  cases timer with
  | sending => cases h
  | _ => rfl

theorem inv_copy (h : ShardInv cfg sh) {now : ℤ} {item : HeapItem} {items : List HeapItem}
    {B : Batch} {pkt : Packet} {task : SendTask} (htimer : sh.timer = .drain now (item :: items))
    (hfree : sh.worker.handler.holds ≠ some item.batch)
    (hB : sh.worker.store[item.batch]? = some B) (hpkt : B.pkt.serializeHead = .ok pkt) :
    ShardInv cfg { sh with
      worker := { sh.worker with store := sh.worker.store.set item.batch { B with pkt } }
      timer := .sending now item task items } := by
  obtain ⟨hlt, -⟩ := List.getElem?_eq_some_iff.mp hB
  have hwaiting : waiting { sh with
      worker := { sh.worker with store := sh.worker.store.set item.batch { B with pkt } }
      timer := .sending now item task items } = waiting sh := by
    unfold waiting
    rw [htimer]
    rfl
  refine ⟨?_, ?_, ?_, ?_⟩
  · rw [hwaiting]
    intro c C hC
    change (sh.worker.store.set item.batch { B with pkt })[c]? = some C at hC
    by_cases hc : c = item.batch
    · subst hc
      rw [List.getElem?_set_self hlt, Option.some.injEq] at hC
      subst hC
      have hold := h.tracked item.batch B hB
      exact ⟨hold.sized.serialized hpkt, hold.once, hold.rests, hold.unpushed,
        fun hwhy => (hold.noted hwhy).serialized hpkt⟩
    · rw [List.getElem?_set_ne (Ne.symm hc)] at hC
      exact h.tracked c C hC
  · rw [hwaiting]
    simpa using h.waiting_lt
  · simpa using h.held_lt
  · intro c hc
    cases hc
    exact hfree

theorem inv_clear (h : ShardInv cfg sh) {now : ℤ} {item : HeapItem} {items : List HeapItem}
    {task : SendTask} (htimer : sh.timer = .sending now item task items) :
    ShardInv cfg { sh with
      worker := { sh.worker with
        store := sh.worker.store.modify item.batch fun b =>
          { b with pkt := { b.pkt with wp := headerSize }, createTime := now, heapItem := none } }
      timer := .drain now items } := by
  have hfree := h.apart item.batch (by rw [htimer]; rfl)
  have hwaiting :
      (waiting sh).Perm (item.batch :: waiting { sh with timer := .drain now items }) := by
    simp [waiting, htimer, taken, List.perm_middle]
  refine ⟨?_, ?_, ?_, ?_⟩
  · intro c C hC
    obtain ⟨B, hB, rfl⟩ := StepRuns.getElem?_modify_eq_some.mp hC
    have hold := h.tracked c B hB
    have hcount := hwaiting.count_eq c
    change Tracked cfg sh.worker.handler c
      ((waiting { sh with timer := .drain now items }).count c) _
    by_cases hc : item.batch = c
    · subst hc
      rw [List.count_cons_self] at hcount
      have honce := hold.once
      have hzero : (waiting { sh with timer := .drain now items }).count item.batch = 0 := by
        omega
      rw [if_pos rfl, hzero]
      refine ⟨hold.sized.reset, by omega, fun _ _ => rfl, fun _ _ => rfl, fun hwhy => ?_⟩
      exact absurd hwhy (by simp [hfree])
    · rw [List.count_cons_of_ne hc] at hcount
      rw [if_neg hc, ← hcount]
      exact hold
  · intro c hc
    change c < (sh.worker.store.modify item.batch _).length
    rw [List.length_modify]
    exact h.waiting_lt c (hwaiting.mem_iff.mpr (List.mem_cons_of_mem _ hc))
  · intro c hc
    change c < (sh.worker.store.modify item.batch _).length
    rw [List.length_modify]
    exact h.held_lt c hc
  · intro c hc
    cases hc

/-- The section only takes items out of the heap. -/
theorem removeItems_subperm {store : List Batch} {v : List ℕ}
    {heap rest : MinHeap HeapItem.deadline} (hr : removeItems store v heap = some rest) :
    rest.toList.Subperm heap.toList := by
  induction v generalizing heap with
  | nil =>
    cases Option.some.inj hr
    exact List.Subperm.refl _
  | cons b v ih =>
    unfold removeItems at hr
    split at hr
    · cases hr
    split at hr
    · exact ih hr
    · obtain ⟨mid, hmid, hrest⟩ := Option.bind_eq_some_iff.mp hr
      unfold heapRemove at hmid
      split at hmid
      · cases hmid
      · obtain ⟨slot, -, hperm⟩ := MinHeap.remove_spec hmid
        exact (ih hrest).trans ((List.sublist_cons_self _ _).subperm.trans hperm.symm.subperm)

theorem inv_evict (h : ShardInv cfg sh) {t : ℤ} {k : ℕ} {e : Evictor} {r : Evicting}
    (hr : evictStep t k ⟨sh.worker, e⟩ = some r) :
    ShardInv cfg { sh with worker := r.worker } := by
  rcases Eviction.evictStep_worker hr with ⟨now, hworker⟩ | ⟨key, v, heap, hheap, hworker⟩
  all_goals rw [hworker]
  · exact h.leave rfl rfl (List.Subperm.refl _) (Or.inr rfl)
  · refine h.leave rfl rfl ?_ (Or.inr rfl)
    obtain ⟨l, hperm, hsub⟩ :=
      (List.subperm_append_right (taken sh.timer)).mpr (removeItems_subperm hheap)
    exact ⟨l.map HeapItem.batch, hperm.map _, hsub.map _⟩

theorem inv_shardStep (h : ShardInv cfg sh) (hs : ShardStep cfg sh sh') : ShardInv cfg sh' := by
  cases hs with
  | receiver r => exact ⟨h.tracked, h.waiting_lt, h.held_lt, h.apart⟩
  | lookup msg hidle => exact h.goto rfl rfl (by rw [hidle]; rfl) rfl
  | handle hfree hstep => exact inv_handlerStep h hfree hstep
  | turn hbefore hafter =>
    refine h.leave rfl rfl ?_ (Or.inl (holds_of_taken_nil hafter))
    unfold waiting
    rw [hbefore, hafter]
  | pop htimer hperm =>
    refine h.leave rfl rfl ?_ (Or.inl rfl)
    unfold waiting
    rw [htimer]
    simpa [taken] using (hperm.map HeapItem.batch).subperm
  | copy htimer hfree hB hpkt => exact inv_copy h htimer hfree hB hpkt
  | clear htimer => exact inv_clear h htimer
  | evict hr => exact inv_evict h hr

theorem inv_start (cfg : Config) : ShardInv cfg Shard.start := by
  refine ⟨?_, ?_, ?_, ?_⟩
  · intro b B hB
    cases hB
  · intro b hb
    cases hb
  · intro b hb
    cases hb
  · intro b hb
    cases hb

end Invariant

/-- The invariant holds of every shard in every state that the system reaches. -/
theorem shardInv_of_run {cfg : Config} {aggWorkerCount : ℤ} {actions : List Action} {s : Sys}
    (hrun : StepRuns.run (step cfg) (newAggregatorV2 aggWorkerCount) actions = some s)
    (i : Fin shardCount) : ShardInv cfg (s.shards i) := by
  refine StepRuns.run_induction (motive := fun _ s => ∀ i, ShardInv cfg (s.shards i)) ?_ ?_ hrun i
  · exact fun _ => inv_start cfg
  · intro _ s a s' _ hs hstep j
    rcases shardStep_of_step hstep j with hsame | hmoved
    · exact hsame.symm ▸ hs j
    · exact inv_shardStep (hs j) hmoved

end Arcturus.ShardBatches
