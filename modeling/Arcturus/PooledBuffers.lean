import Arcturus.AggregatorStop
import Arcturus.ShardBatches

/-!
The copies that the sharded aggregator sends. A packet is copied into a buffer of 64 KiB
from the pool, cut to the total that the packet states; that total has a payload length of
sixteen bits behind a header of twenty-four bytes, so that it can exceed the buffer, and
just above it starts again from the header. A worker that has sent the zero task puts a nil
slice into the pool, which no packet fits into.
-/

namespace Arcturus.PooledBuffers

open Bytes TunnelPacket TunnelHandler Routes BatchPacket AggregatorV2 ShardBatches StepRuns
open GoChannels
open Aggregator (Config Batch HeapItem)

/-- A buffer from the pool is cut to the total of the packet, and so is that of the packet;
then one is copied into the other. A slice beyond the capacity panics. -/
def pooledCopy (pooled : List UInt8) (pkt : Packet) : Except Failure (List UInt8) :=
  if pkt.totalBytes > pooled.length then .error .panic
  else if pkt.totalBytes > pkt.buf.length then .error .panic
  else .ok (splice (pooled.take pkt.totalBytes) 0 (pkt.buf.take pkt.totalBytes))

/-- The packet of a message that goes alone, with its header; none if it does not fit. -/
def alonePacket (cfg : Config) (msg : AggregatorMsg) : Except Failure (Option Packet) :=
  let buffSize := if sentAlone msg then headerSize + 4 + 2 + msg.data.length else cfg.bufferSize
  match (newBatchPacket buffSize msg).appendUserPacket msg.userID msg.data with
  | (_, false) => .ok none
  | (pkt, true) => pkt.serializeHead.map some

/-- The task gets all bytes that were written into the packet. -/
def CopiedWhole (pooled : List UInt8) (pkt : Packet) : Prop :=
  pkt.wp ≤ pkt.buf.length ∧ pooledCopy pooled pkt = .ok (pkt.buf.take pkt.wp)

/-- `checkTimeout` has locked the batch of an expired item and written the header. -/
structure Expired (sh : Shard) (now : ℤ) (item : HeapItem) (items : List HeapItem) (B : Batch)
    (pkt : Packet) : Prop where
  timer : sh.timer = .drain now (item :: items)
  free : sh.worker.handler.holds ≠ some item.batch
  batch : sh.worker.store[item.batch]? = some B
  head : B.pkt.serializeHead = .ok pkt

/-- The shard with the copy of the batch about to be sent. -/
def withCopy (sh : Shard) (now : ℤ) (item : HeapItem) (items : List HeapItem) (B : Batch)
    (pkt : Packet) (buf : List UInt8) (cap : ℕ) : Shard :=
  { sh with
    worker := { sh.worker with store := sh.worker.store.set item.batch { B with pkt } }
    timer := .sending now item ⟨buf, cap, B.routingKey, B.nextHop⟩ items }

/-- A buffer that the pool may hand out: one that was put back, or a new one. -/
def HandsOut (s : Sys) (pooled : List UInt8) : Prop :=
  pooled.length = poolBufferSize ∨ pooled.length ∈ s.pool

/-- The capacity of a new buffer, or that of the nil slice once a zero task was sent. -/
def Capacity (s : Sys) (cap : ℕ) : Prop :=
  cap = poolBufferSize ∨ (cap = 0 ∧ ∃ e ∈ s.executed, e.2 = false)

/-- Where the buffers are: in the pool, with a task that is about to be sent or in a channel,
or with a worker that sends its packet. -/
structure Buffers (s : Sys) : Prop where
  pool : ∀ cap ∈ s.pool, Capacity s cap
  sends : ∀ i, ∀ task ∈ (s.shards i).sends, task.cap = poolBufferSize
  queue : ∀ task, task ∈ s.sendTaskCh.queue ∨ s.dispatcher = .holding task →
    task.cap = poolBufferSize
  workers : ∀ (j : ℕ) (w : SendWorker), s.workers[j]? = some w →
    (∀ task ∈ w.taskCh.queue, task.cap = poolBufferSize) ∧
      ∀ task, w.sending = some task → Capacity s task.cap

section Pool
variable {cfg : Config} {s s' : Sys} {a : Action}

theorem buffers_new (aggWorkerCount : ℤ) : Buffers (newAggregatorV2 aggWorkerCount) := by
  refine ⟨by simp [newAggregatorV2], by simp [newAggregatorV2, Shard.start, Shard.sends],
    by simp [newAggregatorV2, Chan.make], ?_⟩
  intro j w hw
  have hmem : w ∈ List.replicate _ _ := List.mem_of_getElem? hw
  rw [List.eq_of_mem_replicate hmem]
  simp [Chan.make]

/-- A packet only fits into a buffer that was made for it. -/
theorem Buffers.prepared (h : Buffers s) {shards : Fin shardCount → Shard}
    (hshards : Prepares s shards) (i : Fin shardCount) :
    ∀ task ∈ (shards i).sends, task.cap = poolBufferSize := by
  intro task htask
  rcases hshards i task htask with hold | ⟨hfits, hget⟩
  · exact h.sends i task hold
  · cases hpool : s.pool with
    | nil => rw [hget, hpool]; rfl
    | cons cap rest =>
      have hcap : task.cap = cap := by rw [hget, hpool]; rfl
      rcases h.pool cap (by rw [hpool]; exact List.mem_cons_self) with hnew | ⟨hnil, -⟩
      · rw [hcap, hnew]
      · rw [hcap, hnil] at hfits
        simp [headerSize] at hfits

theorem Buffers.internal (h : Buffers s) (hstep : Internal s s') : Buffers s' := by
  obtain ⟨now, shards, eviction, pool, hshards, hpool, rfl⟩ := hstep
  exact ⟨fun cap hcap => h.pool cap (hpool hcap), h.prepared hshards, h.queue, h.workers⟩

theorem Buffers.handsOver (h : Buffers s) {task : SendTask} (hstep : HandsOver s task s') :
    Buffers s' := by
  obtain ⟨⟨i, htask⟩, ⟨-, rfl⟩ | ⟨ch, shards, hsent, hshards, rfl⟩⟩ := hstep
  · exact ⟨h.pool, h.sends, h.queue, h.workers⟩
  · refine ⟨h.pool, h.prepared hshards, ?_, h.workers⟩
    rw [Chan.queue_of_send hsent]
    rintro other (hother | hheld)
    · rcases List.mem_append.mp hother with hold | hnew
      · exact h.queue other (Or.inl hold)
      · rw [List.mem_singleton.mp hnew]
        exact h.sends i task htask
    · exact h.queue other (Or.inr hheld)

theorem Buffers.dispatch (h : Buffers s) (hstep : s.dispatch = some s') : Buffers s' := by
  rcases dispatch_cases hstep with ⟨dispatcher, ch, -, -, hqueue, rfl⟩ |
    ⟨task, w, hheld, hw, ⟨-, rfl⟩ | ⟨ch, hsent, rfl⟩⟩
  · exact ⟨h.pool, h.sends, fun task htask => h.queue task (Or.inl (hqueue task htask)), h.workers⟩
  · exact ⟨h.pool, h.sends, h.queue, h.workers⟩
  · refine ⟨h.pool, h.sends, ?_, ?_⟩
    · rintro other (hother | hheld)
      · exact h.queue other (Or.inl hother)
      · cases hheld
    · intro j v hv
      rcases StepRuns.getElem?_set_eq_some.mp hv with ⟨-, -, rfl⟩ | ⟨-, hold⟩
      · refine ⟨?_, (h.workers _ w hw).2⟩
        intro other hother
        rw [Chan.queue_of_send hsent] at hother
        rcases List.mem_append.mp hother with hold | hnew
        · exact (h.workers _ w hw).1 other hold
        · rw [List.mem_singleton.mp hnew]
          exact h.queue task (Or.inr hheld)
      · exact h.workers j v hold

theorem Buffers.work (h : Buffers s) {k : ℕ} (hstep : s.work k = some s') : Buffers s' := by
  obtain ⟨w, hw, ⟨task, htask, rfl⟩ | ⟨-, task, ch, hreceive, rfl⟩⟩ := work_cases hstep
  · refine ⟨?_, h.sends, h.queue, ?_⟩
    · intro cap hcap
      rcases List.mem_cons.mp hcap with rfl | hold
      · exact (h.workers k w hw).2 task htask
      · exact h.pool cap hold
    · intro j v hv
      rcases StepRuns.getElem?_set_eq_some.mp hv with ⟨-, -, rfl⟩ | ⟨-, hold⟩
      · exact ⟨(h.workers k w hw).1, by simp⟩
      · exact h.workers j v hold
  · have hmore : ∀ cap, Capacity s cap → Capacity { s with
        executed := s.executed ++ [(task.getD default, task.isSome)] } cap := by
      rintro cap (hnew | ⟨hnil, e, he, hfalse⟩)
      · exact Or.inl hnew
      · exact Or.inr ⟨hnil, e, List.mem_append_left _ he, hfalse⟩
    refine ⟨fun cap hcap => hmore cap (h.pool cap hcap), h.sends, h.queue, ?_⟩
    intro j v hv
    rcases StepRuns.getElem?_set_eq_some.mp hv with ⟨-, -, rfl⟩ | ⟨-, hold⟩
    · cases task with
      | none =>
        obtain ⟨-, -, rfl⟩ := Chan.receive_eq_none_iff.mp hreceive
        refine ⟨(h.workers k w hw).1, ?_⟩
        rintro _ ⟨⟩
        exact Or.inr ⟨rfl, (default, false), by simp, rfl⟩
      | some task =>
        have hqueue := (h.workers k w hw).1
        rw [Chan.queue_of_receive_some hreceive] at hqueue
        refine ⟨fun other hother => hqueue other (List.mem_cons_of_mem _ hother), ?_⟩
        rintro _ ⟨⟩
        exact Or.inl (hqueue task List.mem_cons_self)
    · exact ⟨(h.workers j v hold).1, fun task htask => hmore _ ((h.workers j v hold).2 task htask)⟩

theorem Buffers.step (h : Buffers s) (hstep : step cfg s a = some s') : Buffers s' := by
  have hrunning : ¬ s.crashed = true := by simp [not_crashed_of_step hstep]
  unfold AggregatorV2.step at hstep
  rw [if_neg hrunning] at hstep
  cases a with
  | addToBatch msg =>
    obtain ⟨-, ⟨-, rfl⟩ | ⟨ch, -, rfl⟩⟩ := addToBatch_cases hstep
    all_goals exact ⟨h.pool, h.sends, h.queue, h.workers⟩
  | receive i =>
    rcases receive_cases hstep with
      ⟨-, hinternal⟩ | ⟨msg, ch, shards, pool, -, hshards, hpool, rfl⟩
    · exact h.internal hinternal
    · exact ⟨fun cap hcap => h.pool cap (hpool hcap), h.prepared hshards, h.queue, h.workers⟩
  | handle i t => exact h.internal (handle_internal hstep)
  | sendAlone i =>
    obtain ⟨task, -, hover⟩ := sendAlone_handsOver hstep
    exact h.handsOver hover
  | checkTimeout i t =>
    rcases checkTimeout_cases hstep with ⟨hinternal, -⟩ | ⟨_, _, task, _, -, hover⟩
    · exact h.internal hinternal
    · exact h.handsOver hover
  | returnTimer i => exact h.internal (returnTimer_internal hstep)
  | evictStaleBatches t k => exact h.internal (evictStaleBatches_internal hstep)
  | returnEviction => exact h.internal (returnEviction_internal hstep)
  | dispatch => exact h.dispatch hstep
  | work j => exact h.work hstep
  | recycle pool => exact h.internal (recycle_internal hstep)
  | stop =>
    rcases stopNext_cases hstep with ⟨-, rfl⟩ | ⟨-, rfl⟩ | ⟨-, rfl⟩ | ⟨-, rfl⟩ | ⟨k, -, rfl⟩
    case inr.inr.inr.inr =>
      refine ⟨h.pool, h.sends, h.queue, ?_⟩
      intro j w' hw'
      obtain ⟨w, hw, rfl⟩ := StepRuns.getElem?_modify_eq_some.mp hw'
      split
      · exact h.workers j w hw
      · exact h.workers j w hw
    all_goals exact ⟨h.pool, h.sends, h.queue, h.workers⟩

theorem buffers_of_run {aggWorkerCount : ℤ} {actions : List Action}
    (hrun : run (AggregatorV2.step cfg) (newAggregatorV2 aggWorkerCount) actions = some s) :
    Buffers s :=
  run_keeps (fun _ _ _ h hstep => h.step hstep) (buffers_new aggWorkerCount) hrun

end Pool

section Copies
variable {pooled : List UInt8} {size : ℕ} {pkt : Packet}

theorem totalBytes_eq (h : LengthNoted pkt) :
    pkt.totalBytes = headerSize + (pkt.wp - headerSize) % 65536 := by
  unfold Packet.totalBytes
  rw [h, UInt16.toNat_ofNat']

/-- The stated total is never beyond what was written. -/
theorem totalBytes_le (hsized : Sized size pkt) (hnoted : LengthNoted pkt)
    (hroom : headerSize ≤ size) : pkt.totalBytes ≤ pkt.wp ∧ pkt.wp ≤ pkt.buf.length := by
  have hlow := hsized.low
  have hmod := Nat.mod_le (pkt.wp - headerSize) 65536
  rw [totalBytes_eq hnoted, hsized.length]
  rcases hsized.high with hstart | hhigh <;> omega

theorem pooledCopy_eq (hle : pkt.totalBytes ≤ pkt.buf.length) :
    pooledCopy pooled pkt = if pkt.totalBytes > pooled.length then .error .panic
      else .ok (pkt.buf.take pkt.totalBytes) := by
  unfold pooledCopy
  split
  · rfl
  · rename_i hfits
    have hlen : (pkt.buf.take pkt.totalBytes).length = pkt.totalBytes := by
      rw [List.length_take, Nat.min_eq_left hle]
    rw [if_neg (by omega)]
    simp [splice, hlen]

/-- A packet is copied whole exactly if what was written fits into the buffer of the pool. -/
theorem copiedWhole_iff (hsized : Sized size pkt) (hnoted : LengthNoted pkt)
    (hroom : headerSize ≤ size) (hpool : pooled.length ≤ poolBufferSize) :
    CopiedWhole pooled pkt ↔ pkt.wp ≤ pooled.length := by
  obtain ⟨htotal, hwp⟩ := totalBytes_le hsized hnoted hroom
  have heq := totalBytes_eq hnoted
  have hlow := hsized.low
  simp only [poolBufferSize] at hpool
  unfold CopiedWhole
  rw [pooledCopy_eq (htotal.trans hwp)]
  constructor
  · rintro ⟨-, hcopy⟩
    split at hcopy
    · cases hcopy
    · have hlen := congrArg List.length (Except.ok.inj hcopy)
      rw [List.length_take, List.length_take] at hlen
      omega
  · intro hfits
    have hsmall : (pkt.wp - headerSize) % 65536 = pkt.wp - headerSize := by
      apply Nat.mod_eq_of_lt
      simp only [headerSize] at hlow ⊢
      omega
    have hall : pkt.totalBytes = pkt.wp := by omega
    rw [hall, if_neg (by omega)]
    exact ⟨hwp, rfl⟩

/-- Whichever buffer the pool hands out, a packet is copied whole exactly if what was written
is at most the length of a new buffer and the pool has no nil slice. -/
theorem Buffers.copiedWhole_iff {s : Sys} (h : Buffers s) (hsized : Sized size pkt)
    (hnoted : LengthNoted pkt) (hroom : headerSize ≤ size) :
    (∀ pooled, HandsOut s pooled → CopiedWhole pooled pkt) ↔
      pkt.wp ≤ poolBufferSize ∧ 0 ∉ s.pool := by
  have hone {pooled : List UInt8} (hpool : pooled.length ≤ poolBufferSize) :=
    PooledBuffers.copiedWhole_iff hsized hnoted hroom hpool
  have hlow := hsized.low
  constructor
  · intro hall
    have hnew : (List.replicate poolBufferSize (0 : UInt8)).length = poolBufferSize :=
      List.length_replicate
    refine ⟨hnew ▸ (hone hnew.le).mp (hall _ (Or.inl hnew)), fun hnil => ?_⟩
    have hzero := (hone (Nat.zero_le _)).mp (hall [] (Or.inr hnil))
    simp only [headerSize, List.length_nil] at hlow hzero
    omega
  · rintro ⟨hfits, hnil⟩ pooled (hnew | hput)
    · exact (hone hnew.le).mpr (hnew ▸ hfits)
    · rcases h.pool _ hput with hnew | ⟨hzero, -⟩
      · exact (hone hnew.le).mpr (hnew ▸ hfits)
      · exact absurd (hzero ▸ hput) hnil

end Copies

section Senders
variable {cfg : Config} {msg : AggregatorMsg} {pooled : List UInt8} {pkt : Packet}

theorem alonePacket_spec (h : alonePacket cfg msg = .ok (some pkt)) : ∃ size, headerSize ≤ size ∧
    Sized size pkt ∧ LengthNoted pkt ∧ pkt.wp = headerSize + (6 + msg.data.length) := by
  unfold alonePacket at h
  generalize (if sentAlone msg then headerSize + 4 + 2 + msg.data.length
    else cfg.bufferSize) = size at h
  dsimp only at h
  split at h
  · cases h
  · rename_i p happ
    obtain ⟨-, hwp, hroom⟩ := append_accepted happ
    rw [newBatchPacket_wp] at hwp
    rw [newBatchPacket_buffSize] at hroom
    cases hq : p.serializeHead with
    | error e =>
      rw [hq] at h
      cases h
    | ok q =>
      rw [hq] at h
      cases h
      have hsized := (sized_newBatchPacket size msg).append happ
      have hnoted : LengthNoted p := append_payloadLen happ
      refine ⟨size, by omega, hsized.serialized hq, hnoted.serialized hq, ?_⟩
      obtain ⟨-, rfl⟩ := serializeHead_eq hq
      exact hwp

/-- A message of some length always gets a packet of its own. -/
theorem exists_alonePacket (h : sentAlone msg = true) :
    ∃ pkt, alonePacket cfg msg = .ok (some pkt) := by
  unfold alonePacket
  rw [if_pos h]
  have hroom : msg.data.length + 30 ≤ headerSize + 4 + 2 + msg.data.length := by
    simp only [headerSize]
    omega
  obtain ⟨p, happ⟩ := append_new msg msg.userID hroom
  have hsized := (sized_newBatchPacket _ msg).append happ
  have hhead : ¬ p.buf.length < headerSize := by
    rw [hsized.length]
    omega
  dsimp only
  rw [happ]
  dsimp only
  unfold Packet.serializeHead
  rw [if_neg hhead]
  exact ⟨_, rfl⟩

theorem emergePacket_eq (cfg : Config) (msg : AggregatorMsg) : emergePacket cfg msg =
    (alonePacket cfg msg).map (Option.map fun pkt => pkt.buf.take pkt.totalBytes) := by
  unfold emergePacket alonePacket
  dsimp only
  generalize (newBatchPacket _ msg).appendUserPacket msg.userID msg.data = r
  obtain ⟨p, accepted⟩ := r
  cases accepted with
  | false => rfl
  | true =>
    dsimp only
    cases p.serializeHead <;> rfl

/-- The copy is the task of a message that goes alone, and a panic ends the process. -/
theorem handleMsg_alone (hemerges : (msg.emerge || sentAlone msg) = true)
    (h : alonePacket cfg msg = .ok (some pkt)) {pool : List ℕ}
    (hpool : pooled.length = poolGet pool) (sh : Shard) :
    handleMsg cfg msg pool sh = (pooledCopy pooled pkt).toOption.map fun buf =>
      ({ sh with receiver := .sending ⟨buf, poolGet pool, msg.routingKey, msg.nextHop⟩ },
        pool.tail) := by
  obtain ⟨size, hroom, hsized, hnoted, -⟩ := alonePacket_spec h
  obtain ⟨htotal, hwp⟩ := totalBytes_le hsized hnoted hroom
  have hlen : (pkt.buf.take pkt.totalBytes).length = pkt.totalBytes := by
    rw [List.length_take]
    omega
  unfold handleMsg
  rw [if_pos hemerges, emergePacket_eq, h, pooledCopy_eq (htotal.trans hwp), hpool]
  change (if (pkt.buf.take pkt.totalBytes).length > poolGet pool then none else _) = _
  rw [hlen]
  split <;> rfl

/-- The packet of an expired batch in a state that the invariant holds of. -/
theorem Expired.spec {sh : Shard} {now : ℤ} {item : HeapItem} {items : List HeapItem} {B : Batch}
    (h : Expired sh now item items B pkt) (hinv : ShardInv cfg sh) :
    headerSize ≤ cfg.bufferSize ∧ Sized cfg.bufferSize pkt ∧ LengthNoted pkt := by
  have htracked := hinv.tracked item.batch B h.batch
  have hwaits : (waiting sh).count item.batch ≠ 0 := by
    rw [Ne, List.count_eq_zero, not_not]
    unfold waiting
    rw [h.timer]
    simp [taken]
  have hitem : B.heapItem ≠ none := by
    intro hnone
    refine hwaits (htracked.rests ?_ hnone)
    exact fun harmed => h.free (AggregatorParts.holds_of_armed harmed)
  obtain ⟨hlen, -⟩ := serializeHead_eq h.head
  rw [htracked.sized.length] at hlen
  exact ⟨hlen, htracked.sized.serialized h.head, (htracked.noted (Or.inl hitem)).serialized h.head⟩

theorem checkTimeout_expired {s : Sys} {i : Fin shardCount} {now : ℤ} {item : HeapItem}
    {items : List HeapItem} {B : Batch} (h : Expired (s.shards i) now item items B pkt)
    (hinv : ShardInv cfg (s.shards i)) (hpool : pooled.length = poolGet s.pool) (t : ℤ) :
    s.checkTimeout i t = (pooledCopy pooled pkt).toOption.map fun buf =>
      { s.setShard i (withCopy (s.shards i) now item items B pkt buf (poolGet s.pool)) with
        pool := s.pool.tail } := by
  obtain ⟨hroom, hsized, hnoted⟩ := h.spec hinv
  obtain ⟨htotal, hwp⟩ := totalBytes_le hsized hnoted hroom
  have hlen : (pkt.buf.take pkt.totalBytes).length = pkt.totalBytes := by
    rw [List.length_take]
    omega
  unfold Sys.checkTimeout
  simp only [h.timer, h.free, h.batch, h.head, if_false, hlen]
  rw [pooledCopy_eq (htotal.trans hwp), hpool]
  split <;> rfl

end Senders

/-- In every state that the aggregator can reach, whichever buffer the pool hands out, a
message that goes alone is copied whole exactly if it has at most 65506 bytes and the pool
has no nil slice, and an expired batch exactly if at most 65536 bytes were written into its
packet, of the configured buffer size, and the pool has no nil slice. There is none as long
as no worker has sent the zero task. The copies are the tasks that are sent, and the process
ends where there is none. -/
theorem copiedWhole_iff_of_run {cfg : Config} {aggWorkerCount : ℤ} {actions : List Action}
    {s : Sys} (hrun : run (step cfg) (newAggregatorV2 aggWorkerCount) actions = some s) :
    (0 ∈ s.pool → ∃ e ∈ s.executed, e.2 = false) ∧
    (∀ msg pkt, (msg.emerge || sentAlone msg) = true → alonePacket cfg msg = .ok (some pkt) →
      ((∀ pooled, HandsOut s pooled → CopiedWhole pooled pkt) ↔
        msg.data.length ≤ 65506 ∧ 0 ∉ s.pool) ∧
      ∀ pooled sh, pooled.length = poolGet s.pool →
        handleMsg cfg msg s.pool sh = (pooledCopy pooled pkt).toOption.map fun buf =>
          ({ sh with receiver := .sending ⟨buf, poolGet s.pool, msg.routingKey, msg.nextHop⟩ },
            s.pool.tail)) ∧
    ∀ i now item items B pkt, Expired (s.shards i) now item items B pkt →
      ((∀ pooled, HandsOut s pooled → CopiedWhole pooled pkt) ↔ pkt.wp ≤ 65536 ∧ 0 ∉ s.pool) ∧
      pkt.wp ≤ cfg.bufferSize ∧
      ∀ pooled t, pooled.length = poolGet s.pool →
        s.checkTimeout i t = (pooledCopy pooled pkt).toOption.map fun buf =>
          { s.setShard i (withCopy (s.shards i) now item items B pkt buf (poolGet s.pool)) with
            pool := s.pool.tail } := by
  have hbuffers := buffers_of_run hrun
  refine ⟨?_, ?_, ?_⟩
  · intro hnil
    rcases hbuffers.pool 0 hnil with hnew | ⟨-, hzero⟩
    · cases hnew
    · exact hzero
  · intro msg pkt hemerges hpkt
    obtain ⟨size, hroom, hsized, hnoted, hwp⟩ := alonePacket_spec hpkt
    refine ⟨?_, fun pooled sh hpool => handleMsg_alone hemerges hpkt hpool sh⟩
    rw [hbuffers.copiedWhole_iff hsized hnoted hroom, hwp]
    refine and_congr_left fun _ => ?_
    simp only [headerSize, poolBufferSize]
    omega
  · intro i now item items B pkt hexpired
    have hinv := shardInv_of_run hrun i
    obtain ⟨hroom, hsized, hnoted⟩ := hexpired.spec hinv
    refine ⟨hbuffers.copiedWhole_iff hsized hnoted hroom, ?_,
      fun pooled t hpool => checkTimeout_expired hexpired hinv hpool t⟩
    rcases hsized.high with hstart | hhigh
    · omega
    · exact hhigh

section Samples

/-- A short message that waits in a batch. -/
def patientMessage : AggregatorMsg := { urgentMessage with emerge := false }

theorem five_lt_shardCount : 5 < shardCount := by decide

/-- The shard of the message. -/
def sixthShard : Fin shardCount := ⟨5, five_lt_shardCount⟩

/-- The message is put into a new batch, and the batch is found expired. -/
def untilExpired : List Action :=
  [.addToBatch patientMessage, .receive sixthShard, .handle sixthShard 0, .handle sixthShard 0,
    .handle sixthShard 0, .handle sixthShard 0, .handle sixthShard 0] ++
    List.replicate 2 (.checkTimeout sixthShard 60000000)

/-- A buffer of the pool. -/
def zeroBuffer : List UInt8 := List.replicate poolBufferSize 0

theorem length_zeroBuffer : zeroBuffer.length = poolBufferSize := List.length_replicate

theorem untilExpired_copiedWhole : ∃ s now item items B pkt,
    run (step shortTimeout) (newAggregatorV2 8) untilExpired = some s ∧
      Expired (s.shards ⟨5, by decide⟩) now item items B pkt ∧ pkt.wp = 33 ∧
      ∀ pooled, HandsOut s pooled → CopiedWhole pooled pkt := by
  have hend : (run (step shortTimeout) (newAggregatorV2 8) untilExpired).map (fun s =>
      (s.pool, (s.shards ⟨5, by decide⟩).timer, (s.shards ⟨5, by decide⟩).worker.handler,
        ((s.shards ⟨5, by decide⟩).worker.store[0]?).map fun B =>
          B.pkt.serializeHead.toOption.map Packet.wp)) =
        some ([], .drain 60000000 [⟨0, 50000000⟩], .idle, some (some 33)) := by
    decide +kernel
  obtain ⟨s, hrun, hstate⟩ := Option.map_eq_some_iff.mp hend
  rw [Prod.mk.injEq, Prod.mk.injEq, Prod.mk.injEq] at hstate
  obtain ⟨hpool, htimer, hidle, hstore⟩ := hstate
  obtain ⟨B, hB, hhead⟩ := Option.map_eq_some_iff.mp hstore
  obtain ⟨pkt, hpkt, hwp⟩ := Option.map_eq_some_iff.mp hhead
  have hexpired : Expired (s.shards ⟨5, by decide⟩) 60000000 ⟨0, 50000000⟩ [] B pkt := by
    refine ⟨htimer, by rw [hidle]; simp [Aggregator.Handler.holds], hB, ?_⟩
    cases hq : B.pkt.serializeHead with
    | error e =>
      rw [hq] at hpkt
      cases hpkt
    | ok q =>
      rw [hq] at hpkt
      cases hpkt
      rfl
  refine ⟨s, 60000000, ⟨0, 50000000⟩, [], B, pkt, hrun, hexpired, hwp, ?_⟩
  rw [((copiedWhole_iff_of_run hrun).2.2 _ _ _ _ _ _ hexpired).1, hwp, hpool]
  decide

def longMessage (length : ℕ) : AggregatorMsg :=
  { urgentMessage with data := List.replicate length 1 }

/-- The packet of a long message states the length modulo 65536. -/
theorem longMessage_packet {length : ℕ} (h : 1024 ≤ length) :
    ∃ pkt, alonePacket shortTimeout (longMessage length) = .ok (some pkt) ∧
      pkt.wp = 30 + length ∧ pkt.totalBytes = 24 + (6 + length) % 65536 ∧
      pkt.totalBytes ≤ pkt.buf.length := by
  have hdata : (longMessage length).data.length = length := List.length_replicate
  have halone : sentAlone (longMessage length) = true := by
    unfold sentAlone
    rw [hdata]
    exact decide_eq_true h
  obtain ⟨pkt, hpkt⟩ := exists_alonePacket halone
  obtain ⟨size, hroom, hsized, hnoted, hwp⟩ := alonePacket_spec hpkt
  obtain ⟨htotal, hfits⟩ := totalBytes_le hsized hnoted hroom
  have hcount := totalBytes_eq hnoted
  rw [hwp, Nat.add_sub_cancel_left, hdata] at hcount
  rw [hdata] at hwp
  exact ⟨pkt, hpkt, by simp only [headerSize] at hwp; omega, hcount, htotal.trans hfits⟩

/-- A message waits while `Stop` closes all channels, and the first worker sends the zero
task. -/
def nilSlice : List Action :=
  .addToBatch (longMessage 1024) :: List.replicate 12 .stop ++ [.work 0, .work 0]

/-- With 65507 bytes the slice of the pooled buffer is out of range, and with 65530 bytes
only the header is sent. With a nil slice in the pool there is no room even for 1024. -/
theorem long_messages_not_whole :
    (∃ pkt, alonePacket shortTimeout (longMessage 65507) = .ok (some pkt) ∧
      pooledCopy zeroBuffer pkt = .error .panic ∧
      handleMsg shortTimeout (longMessage 65507) [] Shard.start = none) ∧
    (∃ pkt buf, alonePacket shortTimeout (longMessage 65530) = .ok (some pkt) ∧
      pooledCopy zeroBuffer pkt = .ok buf ∧ pkt.wp = 65560 ∧ buf.length = 24) ∧
    ∃ s, run (step shortTimeout) (newAggregatorV2 8) nilSlice = some s ∧ s.pool = [0] ∧
      s.inputChan.queue = [longMessage 1024] ∧ s.receive shortTimeout sixthShard = none := by
  obtain ⟨pkt, hpkt, -, hcount, hle⟩ := @longMessage_packet 65507 (by decide)
  obtain ⟨pkt', hpkt', hwp', hcount', hle'⟩ := @longMessage_packet 65530 (by decide)
  have hpanic : pooledCopy zeroBuffer pkt = .error .panic := by
    rw [pooledCopy_eq hle, hcount, length_zeroBuffer]
    exact if_pos (by decide)
  refine ⟨⟨pkt, hpkt, hpanic, ?_⟩, ⟨pkt', pkt'.buf.take pkt'.totalBytes, hpkt', ?_, hwp', ?_⟩, ?_⟩
  · rw [handleMsg_alone rfl hpkt length_zeroBuffer, hpanic]
    rfl
  · rw [pooledCopy_eq hle', hcount', length_zeroBuffer]
    exact if_neg (by decide)
  · rw [List.length_take, Nat.min_eq_left hle', hcount']
  · have hend : (run (step shortTimeout) (newAggregatorV2 8) nilSlice).map (fun s =>
        (s.pool, s.inputChan.queue, (s.receive shortTimeout sixthShard).isNone)) =
          some ([0], [longMessage 1024], true) := by decide +kernel
    obtain ⟨s, hrun, hstate⟩ := Option.map_eq_some_iff.mp hend
    rw [Prod.mk.injEq, Prod.mk.injEq, Option.isNone_iff_eq_none] at hstate
    exact ⟨s, hrun, hstate⟩

end Samples

end Arcturus.PooledBuffers
