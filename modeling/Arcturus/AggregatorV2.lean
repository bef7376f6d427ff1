import Arcturus.Eviction
import Arcturus.GoChannels

/-!
The sharded aggregator: sixteen goroutines that take messages from one channel, sixteen
that send what has timed out, one that evicts stale batches, a dispatcher and the send
workers, and the call of `Stop`. The batches of a shard are handled as those of a worker
of the first aggregator, from the look-up on. A step is one critical section, one channel
operation, or what a goroutine does between two of them; the clock may show any later time
when it is read. A send on a closed channel ends the process; other panics have no step.
Of a buffer in the pool only the capacity is kept.
-/

namespace Arcturus.AggregatorV2

open TunnelPacket TunnelHandler Routes GoMaps GoChannels IndexedHeap
open Aggregator (Config Batch HeapItem Worker handlerStep popExpired)
open Eviction (Evictor Evicting evictStep)

def shardCount : ℕ := 16

def inputChanSize : ℕ := 100000

/-- The length of a new buffer of the pool. -/
def poolBufferSize : ℕ := 65536

/-- The capacity of the buffer that the pool hands out. -/
def poolGet (pool : List ℕ) : ℕ := pool.headD poolBufferSize

def utf8Bytes (s : String) : List UInt8 := s.toList.flatMap String.utf8EncodeChar

/-- The 32-bit FNV-1a hash. -/
def fnv32a (bytes : List UInt8) : UInt32 :=
  bytes.foldl (fun h b => (h ^^^ b.toUInt32) * 16777619) 2166136261

def hashRoutingKey (key : String) : Fin shardCount :=
  ⟨(fnv32a (utf8Bytes key)).toNat % shardCount, Nat.mod_lt _ (by decide)⟩

/-- The default task is the zero value, with no buffer and no address. -/
structure SendTask where
  buf : List UInt8
  cap : ℕ
  routingKey : String
  nextHop : Option UInt32
  deriving DecidableEq, Repr, Inhabited

/-- Where the goroutine that takes messages is, apart from the work on a batch: at the
channel or at such work, at the send of a message of its own, or gone. -/
inductive Receiver where
  | running
  | sending (task : SendTask)
  | returned
  deriving DecidableEq, Repr

/-- Where `checkTimeout` is: before the heap is locked, at the expired items that are left,
or at the send for one of them, with its batch locked. -/
inductive Timer where
  | idle
  | pop (now : ℤ)
  | drain (now : ℤ) (expired : List HeapItem)
  | sending (now : ℤ) (item : HeapItem) (task : SendTask) (expired : List HeapItem)
  | returned
  deriving DecidableEq, Repr

def Timer.holds : Timer → Option ℕ
  | .sending _ item _ _ => some item.batch
  | _ => none

structure Shard where
  worker : Worker
  receiver : Receiver
  timer : Timer

/-- The tasks that the goroutines of a shard are about to send. -/
def Shard.sends (sh : Shard) : List SendTask :=
  (match sh.receiver with | .sending task => [task] | _ => []) ++
    match sh.timer with | .sending _ _ task _ => [task] | _ => []

def Shard.start : Shard := ⟨Worker.start, .running, .idle⟩

/-- The batch that `handleMsg` is about to lock is locked by `checkTimeout`. -/
def Shard.locked (sh : Shard) : Bool :=
  match sh.worker.handler with
  | .append _ b => sh.timer.holds == some b
  | _ => false

/-- The eviction goes through the shards in their order. -/
inductive Eviction where
  | idle
  | shard (i : Fin shardCount) (e : Evictor)
  | returned

inductive Dispatcher where
  | idle
  | holding (task : SendTask)
  | returned
  deriving DecidableEq, Repr

/-- A worker sends one packet at a time. -/
structure SendWorker where
  taskCh : Chan SendTask
  sending : Option SendTask

/-- `pool` has the capacities of the pooled buffers. `stop` counts the channels that `Stop` has
closed since it was called. `accepted`, `handled` and `executed` record the messages that were
added, the calls of `handleMsg` with their shards, and the calls of `sendPacket` with whether
the task came from the channel; nothing reads them. -/
structure Sys where
  now : ℤ
  inputChan : Chan AggregatorMsg
  sendTaskCh : Chan SendTask
  stopCh : Bool
  shards : Fin shardCount → Shard
  eviction : Eviction
  dispatcher : Dispatcher
  workers : List SendWorker
  pool : List ℕ
  stop : Option ℕ
  crashed : Bool
  accepted : List AggregatorMsg
  handled : List (Fin shardCount × AggregatorMsg)
  executed : List (SendTask × Bool)

def newAggregatorV2 (aggWorkerCount : ℤ) : Sys where
  now := 0
  inputChan := Chan.make inputChanSize
  sendTaskCh := Chan.make 10000
  stopCh := false
  shards := fun _ => Shard.start
  eviction := .idle
  dispatcher := .idle
  workers := List.replicate (if aggWorkerCount ≤ 0 then 8 else aggWorkerCount.toNat)
    ⟨Chan.make 100, none⟩
  pool := []
  stop := none
  crashed := false
  accepted := []
  handled := []
  executed := []

/-- Long messages are sent alone. -/
def sentAlone (msg : AggregatorMsg) : Bool := msg.data.length ≥ 1024

/-- The bytes of a packet with this message alone; none if it does not fit. -/
def emergePacket (cfg : Config) (msg : AggregatorMsg) : Except Failure (Option (List UInt8)) :=
  let buffSize := if sentAlone msg then headerSize + 4 + 2 + msg.data.length else cfg.bufferSize
  match (newBatchPacket buffSize msg).appendUserPacket msg.userID msg.data with
  | (_, false) => .ok none
  | (pkt, true) => do
    let pkt ← pkt.serializeHead
    return some (pkt.buf.take pkt.totalBytes)

/-- `handleMsg` up to the first lock or channel operation. -/
def handleMsg (cfg : Config) (msg : AggregatorMsg) (pool : List ℕ) (sh : Shard) :
    Option (Shard × List ℕ) :=
  if msg.emerge || sentAlone msg then
    match emergePacket cfg msg with
    | .error _ => none
    | .ok none => some (sh, pool)
    | .ok (some buf) =>
      if buf.length > poolGet pool then none
      else
        let task : SendTask := ⟨buf, poolGet pool, msg.routingKey, msg.nextHop⟩
        some ({ sh with receiver := .sending task }, pool.tail)
  else some ({ sh with worker := { sh.worker with handler := .lookup msg } }, pool)

namespace Sys

def setShard (s : Sys) (i : Fin shardCount) (sh : Shard) : Sys :=
  { s with shards := Function.update s.shards i sh }

/-- `AddToBatch`, which is not called any more once `Stop` is. -/
def addToBatch (s : Sys) (msg : AggregatorMsg) : Option Sys :=
  if s.stop.isSome then none
  else
    match s.inputChan.send msg with
    | .waits => none
    | .panics => some { s with crashed := true }
    | .sent ch => some { s with inputChan := ch, accepted := s.accepted ++ [msg] }

/-- The range loop over the input channel. Whether the message is for the shard is looked
at after it has been taken out. -/
def receive (cfg : Config) (s : Sys) (i : Fin shardCount) : Option Sys :=
  let sh := s.shards i
  if sh.receiver ≠ .running ∨ sh.worker.handler ≠ .idle then none
  else
    match s.inputChan.receive with
    | none => none
    | some (none, _) => some (s.setShard i { sh with receiver := .returned })
    | some (some msg, ch) =>
      if hashRoutingKey msg.routingKey = i then
        (handleMsg cfg msg s.pool sh).map fun r =>
          { s.setShard i r.1 with
            inputChan := ch, pool := r.2, handled := s.handled ++ [(i, msg)] }
      else some { s with inputChan := ch }

/-- The next step of `handleMsg` at a batch. -/
def handle (cfg : Config) (s : Sys) (i : Fin shardCount) (t : ℤ) : Option Sys :=
  let sh := s.shards i
  if t < s.now ∨ sh.locked then none
  else
    (handlerStep cfg t sh.worker).map fun worker =>
      { s.setShard i { sh with worker } with now := t }

/-- The send of a message that goes alone. -/
def sendAlone (s : Sys) (i : Fin shardCount) : Option Sys :=
  let sh := s.shards i
  match sh.receiver with
  | .sending task =>
    match s.sendTaskCh.send task with
    | .waits => none
    | .panics => some { s with crashed := true }
    | .sent ch => some { s.setShard i { sh with receiver := .running } with sendTaskCh := ch }
  | _ => none

/-- The next step of `checkTimeout`. The batch of an expired item is copied and emptied
under its lock, with the send in between. -/
def checkTimeout (s : Sys) (i : Fin shardCount) (t : ℤ) : Option Sys :=
  let sh := s.shards i
  match sh.timer with
  | .idle =>
    if t < s.now then none else some { s.setShard i { sh with timer := .pop t } with now := t }
  | .pop now =>
    let r := popExpired now sh.worker.heap.toList.length sh.worker.heap
    some (s.setShard i
      { sh with worker := { sh.worker with heap := r.2 }, timer := .drain now r.1 })
  | .drain _ [] => some (s.setShard i { sh with timer := .idle })
  | .drain now (item :: expired) =>
    if sh.worker.handler.holds = some item.batch then none
    else
      match sh.worker.store[item.batch]? with
      | none => none
      | some b =>
        match b.pkt.serializeHead with
        | .error _ => none
        | .ok pkt =>
          let buf := pkt.buf.take pkt.totalBytes
          if buf.length > poolGet s.pool then none
          else
            let store := sh.worker.store.set item.batch { b with pkt }
            let task : SendTask := ⟨buf, poolGet s.pool, b.routingKey, b.nextHop⟩
            some { s.setShard i
              { sh with
                worker := { sh.worker with store }
                timer := .sending now item task expired } with
              pool := s.pool.tail }
  | .sending now item task expired =>
    match s.sendTaskCh.send task with
    | .waits => none
    | .panics => some { s with crashed := true }
    | .sent ch =>
      let store := sh.worker.store.modify item.batch fun b =>
        { b with pkt := { b.pkt with wp := headerSize }, createTime := now, heapItem := none }
      some { s.setShard i
        { sh with worker := { sh.worker with store }, timer := .drain now expired } with
        sendTaskCh := ch }
  | .returned => none

/-- The other case of the select statement of the timeout goroutine. -/
def returnTimer (s : Sys) (i : Fin shardCount) : Option Sys :=
  if s.stopCh ∧ (s.shards i).timer = .idle then
    some (s.setShard i { s.shards i with timer := .returned })
  else none

/-- The next step of `evictStaleBatches`; the loop over the map of a shard takes its
`k`-th key next. -/
def evictStaleBatches (s : Sys) (t : ℤ) (k : ℕ) : Option Sys :=
  match s.eviction with
  | .idle =>
    if t < s.now then none
    else some { s with now := t, eviction := .shard ⟨0, by decide⟩ (.copy t) }
  | .shard i (.scan now []) =>
    if h : i.val + 1 < shardCount then some { s with eviction := .shard ⟨i.val + 1, h⟩ (.copy now) }
    else some { s with eviction := .idle }
  | .shard i e =>
    let sh := s.shards i
    (evictStep t k ⟨sh.worker, e⟩).map fun r =>
      { s.setShard i { sh with worker := r.worker } with eviction := .shard i r.evictor }
  | .returned => none

def returnEviction (s : Sys) : Option Sys :=
  match s.eviction with
  | .idle => if s.stopCh then some { s with eviction := .returned } else none
  | _ => none

def workerOf (s : Sys) (task : SendTask) : ℕ :=
  (hashRoutingKey task.routingKey).val % s.workers.length

/-- The dispatcher takes a task or hands the one it has to a worker. -/
def dispatch (s : Sys) : Option Sys :=
  match s.dispatcher with
  | .idle =>
    match s.sendTaskCh.receive with
    | none => none
    | some (none, _) => some { s with dispatcher := .returned }
    | some (some task, ch) => some { s with sendTaskCh := ch, dispatcher := .holding task }
  | .holding task =>
    match s.workers[s.workerOf task]? with
    | none => none
    | some w =>
      match w.taskCh.send task with
      | .waits => none
      | .panics => some { s with crashed := true }
      | .sent ch =>
        some { s with
          workers := s.workers.set (s.workerOf task) { w with taskCh := ch }
          dispatcher := .idle }
  | .returned => none

/-- A worker puts the buffer of its packet back or takes the next task. It does not ask
whether there was one, and its own stop channel is never closed. -/
def work (s : Sys) (j : ℕ) : Option Sys :=
  match s.workers[j]? with
  | none => none
  | some w =>
    match w.sending with
    | some task =>
      some { s with
        workers := s.workers.set j { w with sending := none }
        pool := task.cap :: s.pool }
    | none =>
      match w.taskCh.receive with
      | none => none
      | some (task, ch) =>
        some { s with
          workers := s.workers.set j ⟨ch, some (task.getD default)⟩
          executed := s.executed ++ [(task.getD default, task.isSome)] }

/-- The pool may hand out its buffers in any order and drop them at any time. -/
def recycle (s : Sys) (pool : List ℕ) : Option Sys :=
  if pool.Subperm s.pool then some { s with pool := pool } else none

/-- `Stop` is called or closes the next channel. It then waits for all goroutines, which
the send workers keep from coming to an end. -/
def stopNext (s : Sys) : Option Sys :=
  match s.stop with
  | none => some { s with stop := some 0 }
  | some 0 => some { s with stopCh := true, stop := some 1 }
  | some 1 => some { s with inputChan := s.inputChan.close, stop := some 2 }
  | some 2 => some { s with sendTaskCh := s.sendTaskCh.close, stop := some 3 }
  | some (k + 3) =>
    if k < s.workers.length then
      some { s with
        workers := s.workers.modify k fun w => { w with taskCh := w.taskCh.close }
        stop := some (k + 4) }
    else none

end Sys

inductive Action where
  | addToBatch (msg : AggregatorMsg)
  | receive (i : Fin shardCount)
  | handle (i : Fin shardCount) (t : ℤ)
  | sendAlone (i : Fin shardCount)
  | checkTimeout (i : Fin shardCount) (t : ℤ)
  | returnTimer (i : Fin shardCount)
  | evictStaleBatches (t : ℤ) (k : ℕ)
  | returnEviction
  | dispatch
  | work (j : ℕ)
  | recycle (pool : List ℕ)
  | stop

def step (cfg : Config) (s : Sys) (a : Action) : Option Sys :=
  if s.crashed then none
  else
    match a with
    | .addToBatch msg => s.addToBatch msg
    | .receive i => s.receive cfg i
    | .handle i t => s.handle cfg i t
    | .sendAlone i => s.sendAlone i
    | .checkTimeout i t => s.checkTimeout i t
    | .returnTimer i => s.returnTimer i
    | .evictStaleBatches t k => s.evictStaleBatches t k
    | .returnEviction => s.returnEviction
    | .dispatch => s.dispatch
    | .work j => s.work j
    | .recycle pool => s.recycle pool
    | .stop => s.stopNext

/-- The shards are about to send what they were about to send, or a packet in a buffer that
the pool has handed out. -/
def Prepares (s : Sys) (shards : Fin shardCount → Shard) : Prop :=
  ∀ i, ∀ task ∈ (shards i).sends, task ∈ (s.shards i).sends ∨
    (headerSize ≤ task.cap ∧ task.cap = poolGet s.pool)

/-- The step is one of a shard or of the eviction and touches no channel. -/
def Internal (s s' : Sys) : Prop :=
  ∃ now shards eviction pool, Prepares s shards ∧ pool ⊆ s.pool ∧
    s' = { s with now := now, shards := shards, eviction := eviction, pool := pool }

/-- The step is a send to the dispatcher. -/
def HandsOver (s : Sys) (task : SendTask) (s' : Sys) : Prop :=
  (∃ i, task ∈ (s.shards i).sends) ∧
    ((s.sendTaskCh.closed = true ∧ s' = { s with crashed := true }) ∨
      ∃ ch shards, s.sendTaskCh.send task = .sent ch ∧ Prepares s shards ∧
        s' = { s with sendTaskCh := ch, shards := shards })

section Steps
variable {cfg : Config} {s s' : Sys} {a : Action} {i : Fin shardCount} {t : ℤ}

theorem prepares_rfl : Prepares s s.shards := fun _ _ htask => Or.inl htask

theorem prepares_setShard {sh : Shard} (h : ∀ task ∈ sh.sends, task ∈ (s.shards i).sends ∨
    (headerSize ≤ task.cap ∧ task.cap = poolGet s.pool)) : Prepares s (s.setShard i sh).shards := by
  intro j
  change ∀ task ∈ (Function.update s.shards i sh j).sends, _
  by_cases hj : j = i
  · subst hj
    rw [Function.update_self]
    exact h
  · rw [Function.update_of_ne hj]
    exact fun task htask => Or.inl htask

theorem prepares_of_subset {sh : Shard} (h : sh.sends ⊆ (s.shards i).sends) :
    Prepares s (s.setShard i sh).shards :=
  prepares_setShard fun _ htask => Or.inl (h htask)

theorem handle_internal (h : s.handle cfg i t = some s') : Internal s s' := by
  unfold Sys.handle at h
  dsimp only at h
  split at h
  · cases h
  · obtain ⟨worker, -, rfl⟩ := Option.map_eq_some_iff.mp h
    refine ⟨_, _, _, _, prepares_of_subset ?_, List.Subset.refl _, rfl⟩
    exact List.Subset.refl _

theorem returnTimer_internal (h : s.returnTimer i = some s') : Internal s s' := by
  obtain ⟨-, h⟩ := Option.ite_none_right_eq_some.mp h
  cases h
  exact ⟨_, _, _, _, prepares_of_subset (by simp [Shard.sends]), List.Subset.refl _, rfl⟩

theorem recycle_internal {pool : List ℕ} (h : s.recycle pool = some s') : Internal s s' := by
  obtain ⟨hpool, h⟩ := Option.ite_none_right_eq_some.mp h
  cases h
  exact ⟨_, _, _, _, prepares_rfl, hpool.subset, rfl⟩

theorem evictStaleBatches_internal {k : ℕ} (h : s.evictStaleBatches t k = some s') :
    Internal s s' := by
  unfold Sys.evictStaleBatches at h
  split at h
  · split at h
    · cases h
    · cases h
      exact ⟨_, _, _, _, prepares_rfl, List.Subset.refl _, rfl⟩
  · split at h
    · cases h
      exact ⟨_, _, _, _, prepares_rfl, List.Subset.refl _, rfl⟩
    · cases h
      exact ⟨_, _, _, _, prepares_rfl, List.Subset.refl _, rfl⟩
  · obtain ⟨r, -, rfl⟩ := Option.map_eq_some_iff.mp h
    refine ⟨_, _, _, _, prepares_of_subset ?_, List.Subset.refl _, rfl⟩
    exact List.Subset.refl _
  · cases h

theorem returnEviction_internal (h : s.returnEviction = some s') : Internal s s' := by
  unfold Sys.returnEviction at h
  split at h
  · obtain ⟨-, h⟩ := Option.ite_none_right_eq_some.mp h
    cases h
    exact ⟨_, _, _, _, prepares_rfl, List.Subset.refl _, rfl⟩
  · cases h

theorem sendAlone_handsOver (h : s.sendAlone i = some s') :
    ∃ task, (s.shards i).receiver = .sending task ∧ HandsOver s task s' := by
  unfold Sys.sendAlone at h
  dsimp only at h
  split at h
  · rename_i task htask
    refine ⟨task, htask, ⟨i, by simp [Shard.sends, htask]⟩, ?_⟩
    split at h
    · cases h
    · rename_i hpanics
      cases h
      exact Or.inl ⟨Chan.send_eq_panics_iff.mp hpanics, rfl⟩
    · rename_i ch hsent
      cases h
      exact Or.inr ⟨ch, _, hsent, prepares_of_subset (by simp [Shard.sends]), rfl⟩
  · cases h

theorem checkTimeout_cases (h : s.checkTimeout i t = some s') :
    (Internal s s' ∧ ∀ now item task expired,
        (s.shards i).timer ≠ .sending now item task expired) ∨
      ∃ now item task expired, (s.shards i).timer = .sending now item task expired ∧
        HandsOver s task s' := by
  unfold Sys.checkTimeout at h
  dsimp only at h
  split at h
  case h_1 htimer =>
    refine Or.inl ⟨?_, by simp [htimer]⟩
    split at h
    · cases h
    · cases h
      exact ⟨_, _, _, _, prepares_of_subset (by simp [Shard.sends]), List.Subset.refl _, rfl⟩
  case h_2 htimer =>
    cases h
    refine Or.inl ⟨⟨_, _, _, _, prepares_of_subset ?_, List.Subset.refl _, rfl⟩, by simp [htimer]⟩
    simp [Shard.sends]
  case h_3 htimer =>
    cases h
    refine Or.inl ⟨⟨_, _, _, _, prepares_of_subset ?_, List.Subset.refl _, rfl⟩, by simp [htimer]⟩
    simp [Shard.sends]
  case h_4 htimer =>
    refine Or.inl ⟨?_, by simp [htimer]⟩
    split at h
    · cases h
    split at h
    · cases h
    split at h
    · cases h
    rename_i pkt hpkt
    split at h
    · cases h
    · rename_i hfits
      cases h
      refine ⟨_, _, _, _, prepares_setShard ?_, List.tail_subset _, rfl⟩
      intro task htask
      rcases List.mem_append.mp htask with hold | hnew
      · exact Or.inl (List.mem_append_left _ hold)
      · rw [List.mem_singleton.mp hnew]
        exact Or.inr ⟨(BatchPacket.headerSize_le_serialized hpkt).trans (not_lt.mp hfits), rfl⟩
  case h_5 now item task expired htimer =>
    refine Or.inr ⟨now, item, task, expired, htimer, ⟨i, by simp [Shard.sends, htimer]⟩, ?_⟩
    split at h
    · cases h
    · rename_i hpanics
      cases h
      exact Or.inl ⟨Chan.send_eq_panics_iff.mp hpanics, rfl⟩
    · rename_i ch hsent
      cases h
      exact Or.inr ⟨ch, _, hsent, prepares_of_subset (by simp [Shard.sends]), rfl⟩
  case h_6 => cases h

theorem headerSize_le_emergePacket {msg : AggregatorMsg} {buf : List UInt8}
    (h : emergePacket cfg msg = .ok (some buf)) : headerSize ≤ buf.length := by
  unfold emergePacket at h
  dsimp only at h
  split at h
  · cases h
  · rename_i pkt happ
    cases hhead : pkt.serializeHead with
    | error e =>
      rw [hhead] at h
      cases h
    | ok pkt' =>
      rw [hhead] at h
      cases h
      exact BatchPacket.headerSize_le_serialized hhead

theorem handleMsg_prepares {msg : AggregatorMsg} {r : Shard × List ℕ}
    (h : handleMsg cfg msg s.pool (s.shards i) = some r) :
    Prepares s (s.setShard i r.1).shards ∧ r.2 ⊆ s.pool := by
  unfold handleMsg at h
  split at h
  · split at h
    · cases h
    · cases h
      exact ⟨prepares_of_subset (List.Subset.refl _), List.Subset.refl _⟩
    · rename_i buf hbuf
      split at h
      · cases h
      · rename_i hfits
        cases h
        refine ⟨prepares_setShard ?_, List.tail_subset _⟩
        intro task htask
        rcases List.mem_append.mp htask with hnew | hold
        · rw [List.mem_singleton.mp hnew]
          exact Or.inr ⟨(headerSize_le_emergePacket hbuf).trans (not_lt.mp hfits), rfl⟩
        · exact Or.inl (List.mem_append_right _ hold)
  · cases h
    exact ⟨prepares_of_subset (List.Subset.refl _), List.Subset.refl _⟩

/-- A receive takes the oldest message, and `handleMsg` gets it if it is for the shard. -/
theorem receive_cases (h : s.receive cfg i = some s') :
    (s.inputChan.queue = [] ∧ Internal s s') ∨
      ∃ msg ch shards pool, s.inputChan.receive = some (some msg, ch) ∧ Prepares s shards ∧
        pool ⊆ s.pool ∧ s' = { s with
          inputChan := ch
          shards := shards
          pool := pool
          handled := if hashRoutingKey msg.routingKey = i then s.handled ++ [(i, msg)]
            else s.handled } := by
  unfold Sys.receive at h
  dsimp only at h
  split at h
  · cases h
  split at h
  · cases h
  · rename_i hreceive
    cases h
    refine Or.inl ⟨(Chan.receive_eq_none_iff.mp hreceive).1, _, _, _, _, ?_,
      List.Subset.refl _, rfl⟩
    exact prepares_of_subset (by simp [Shard.sends])
  · rename_i msg ch hreceive
    refine Or.inr ⟨msg, ch, ?_⟩
    split at h
    · rename_i hshard
      obtain ⟨r, hr, rfl⟩ := Option.map_eq_some_iff.mp h
      obtain ⟨hshards, hpool⟩ := handleMsg_prepares hr
      exact ⟨_, _, hreceive, hshards, hpool, by rw [if_pos hshard]; rfl⟩
    · rename_i hshard
      cases h
      exact ⟨s.shards, s.pool, hreceive, prepares_rfl, List.Subset.refl _, by rw [if_neg hshard]⟩

/-- A message is only added before `Stop` is called. -/
theorem addToBatch_cases {msg : AggregatorMsg} (h : s.addToBatch msg = some s') :
    s.stop = none ∧ ((s.inputChan.closed = true ∧ s' = { s with crashed := true }) ∨
      ∃ ch, s.inputChan.send msg = .sent ch ∧
        s' = { s with inputChan := ch, accepted := s.accepted ++ [msg] }) := by
  unfold Sys.addToBatch at h
  split at h
  · cases h
  rename_i hstop
  refine ⟨by simpa using hstop, ?_⟩
  split at h
  · cases h
  · rename_i hpanics
    cases h
    exact Or.inl ⟨Chan.send_eq_panics_iff.mp hpanics, rfl⟩
  · rename_i ch hsent
    cases h
    exact Or.inr ⟨ch, hsent, rfl⟩

/-- The dispatcher takes a task or hands the one it holds to a worker. -/
theorem dispatch_cases (h : s.dispatch = some s') :
    (∃ dispatcher ch, (∀ task, s.dispatcher ≠ .holding task) ∧ ch.closed = s.sendTaskCh.closed ∧
        (∀ task, task ∈ ch.queue ∨ dispatcher = .holding task → task ∈ s.sendTaskCh.queue) ∧
        s' = { s with sendTaskCh := ch, dispatcher := dispatcher }) ∨
      ∃ task w, s.dispatcher = .holding task ∧ s.workers[s.workerOf task]? = some w ∧
        ((w.taskCh.closed = true ∧ s' = { s with crashed := true }) ∨
          ∃ ch, w.taskCh.send task = .sent ch ∧
            s' = { s with
              workers := s.workers.set (s.workerOf task) { w with taskCh := ch }
              dispatcher := .idle }) := by
  unfold Sys.dispatch at h
  split at h
  case h_1 hidle =>
    refine Or.inl ?_
    split at h
    · cases h
    · cases h
      exact ⟨.returned, s.sendTaskCh, by simp [hidle], rfl, by simp, rfl⟩
    · rename_i task ch hreceive
      cases h
      refine ⟨.holding task, ch, by simp [hidle], Chan.closed_of_receive hreceive, ?_, rfl⟩
      rw [Chan.queue_of_receive_some hreceive]
      rintro other (hother | hheld)
      · exact List.mem_cons_of_mem _ hother
      · cases hheld
        exact List.mem_cons_self
  case h_2 task hholding =>
    split at h
    · cases h
    rename_i w hw
    refine Or.inr ⟨task, w, hholding, hw, ?_⟩
    split at h
    · cases h
    · rename_i hpanics
      cases h
      exact Or.inl ⟨Chan.send_eq_panics_iff.mp hpanics, rfl⟩
    · rename_i ch hsent
      cases h
      exact Or.inr ⟨ch, hsent, rfl⟩
  case h_3 => cases h

theorem work_cases {j : ℕ} (h : s.work j = some s') :
    ∃ w, s.workers[j]? = some w ∧
      ((∃ task, w.sending = some task ∧ s' = { s with
          workers := s.workers.set j { w with sending := none }
          pool := task.cap :: s.pool }) ∨
        (w.sending = none ∧ ∃ task ch, w.taskCh.receive = some (task, ch) ∧
          s' = { s with
            workers := s.workers.set j ⟨ch, some (task.getD default)⟩
            executed := s.executed ++ [(task.getD default, task.isSome)] })) := by
  unfold Sys.work at h
  split at h
  · cases h
  rename_i w hw
  refine ⟨w, hw, ?_⟩
  split at h
  · rename_i task htask
    cases h
    exact Or.inl ⟨task, htask, rfl⟩
  · rename_i hfree
    split at h
    · cases h
    · rename_i task ch hreceive
      cases h
      exact Or.inr ⟨hfree, task, ch, hreceive, rfl⟩

/-- `Stop` closes the channels in their order. -/
theorem stopNext_cases (h : s.stopNext = some s') :
    (s.stop = none ∧ s' = { s with stop := some 0 }) ∨
      (s.stop = some 0 ∧ s' = { s with stopCh := true, stop := some 1 }) ∨
      (s.stop = some 1 ∧ s' = { s with inputChan := s.inputChan.close, stop := some 2 }) ∨
      (s.stop = some 2 ∧ s' = { s with sendTaskCh := s.sendTaskCh.close, stop := some 3 }) ∨
      ∃ k, s.stop = some (k + 3) ∧ s' = { s with
        workers := s.workers.modify k fun w => { w with taskCh := w.taskCh.close }
        stop := some (k + 4) } := by
  unfold Sys.stopNext at h
  split at h
  case h_1 hstop =>
    cases h
    exact Or.inl ⟨hstop, rfl⟩
  case h_2 hstop =>
    cases h
    exact Or.inr (Or.inl ⟨hstop, rfl⟩)
  case h_3 hstop =>
    cases h
    exact Or.inr (Or.inr (Or.inl ⟨hstop, rfl⟩))
  case h_4 hstop =>
    cases h
    exact Or.inr (Or.inr (Or.inr (Or.inl ⟨hstop, rfl⟩)))
  case h_5 k hstop =>
    obtain ⟨-, h⟩ := Option.ite_none_right_eq_some.mp h
    cases h
    exact Or.inr (Or.inr (Or.inr (Or.inr ⟨k, hstop, rfl⟩)))

theorem not_crashed_of_step (h : step cfg s a = some s') : s.crashed = false := by
  unfold step at h
  split at h
  · cases h
  · rename_i hcrashed
    simpa using hcrashed

end Steps

end Arcturus.AggregatorV2
