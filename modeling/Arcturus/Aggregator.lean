import Arcturus.BatchPacket
import Arcturus.GoMaps
import Arcturus.IndexedHeap

/-!
One worker of the aggregator: the goroutine that handles messages and the one that
sends what has timed out. A step is one critical section of one of them, or what it
does between two of them; the clock may show any later time when it is read. A
batch is named by its place in the store of all batches ever made, and its lock is
held where the handler says so. A panic has no step. The eviction of stale batches
comes in `Eviction`.
-/

namespace Arcturus.Aggregator

open TunnelPacket TunnelHandler Routes GoMaps IndexedHeap

/-- The settings that the aggregator reads. -/
structure Config where
  bufferSize : ℕ
  batchTimeoutMs : ℤ
  batchNum : UInt16 → Option ℤ

structure Batch where
  routingKey : String
  nextHop : Option UInt32
  pkt : Packet
  heapItem : Option ℤ
  createTime : ℤ
  deriving DecidableEq, Repr

structure HeapItem where
  batch : ℕ
  deadline : ℤ
  deriving DecidableEq, Repr

/-- A call of `flush`, with the batch that the bytes were copied from, if any. -/
structure Flush where
  buf : List UInt8
  routingKey : String
  nextHop : Option UInt32
  source : Option ℕ
  deriving DecidableEq, Repr

/-- Where `handleMsg` is: before the look-up, before the new batches are entered, before
the batch is locked, after it was found full, and, with the lock held, before a new
batch is filled, before the heap is locked and before the heap item is noted. -/
inductive Handler where
  | idle
  | lookup (msg : AggregatorMsg)
  | create (msg : AggregatorMsg)
  | append (msg : AggregatorMsg) (b : ℕ)
  | overflow (msg : AggregatorMsg)
  | refill (msg : AggregatorMsg) (b : ℕ)
  | push (b : ℕ) (deadline : ℤ)
  | finish (b : ℕ) (deadline : ℤ)
  deriving DecidableEq, Repr

/-- The batch whose lock the handler holds between two steps. -/
def Handler.holds : Handler → Option ℕ
  | .refill _ b => some b
  | .push b _ => some b
  | .finish b _ => some b
  | _ => none

/-- Where `checkTimeout` is: before the heap is locked, or at the expired items that
are still to be copied and the copies that are still to be sent. -/
inductive Timer where
  | idle
  | pop (now : ℤ)
  | drain (now : ℤ) (expired : List HeapItem) (toSend : List Flush)
  deriving DecidableEq, Repr

structure Worker where
  now : ℤ
  store : List Batch
  batches : GoMap String (List ℕ)
  heap : MinHeap HeapItem.deadline
  handler : Handler
  timer : Timer
  flushed : List Flush

def Worker.start : Worker where
  now := 0
  store := []
  batches := GoMap.empty
  heap := MinHeap.empty HeapItem.deadline
  handler := .idle
  timer := .idle
  flushed := []

def flush (s : Worker) (f : Flush) : Worker :=
  if f.buf.length = 0 then s else { s with flushed := s.flushed ++ [f] }

/-- The timeout in nanoseconds; the product of two words of sixty-four bits can wrap around. -/
def Config.batchTimeout (cfg : Config) : ℤ := (cfg.batchTimeoutMs * 1000000).bmod (2 ^ 64)

/-- Short messages are not worth the wait, and a short timeout allows none. -/
def sentAlone (cfg : Config) (msg : AggregatorMsg) : Bool :=
  msg.data.length < 128 || cfg.batchTimeout ≤ 20000000

def emerges (cfg : Config) (msg : AggregatorMsg) : Bool := msg.emerge || sentAlone cfg msg

/-- The bytes of a packet with this message alone; none if it does not fit. -/
def emergePacket (cfg : Config) (msg : AggregatorMsg) : Except Failure (Option (List UInt8)) :=
  let buffSize := if sentAlone cfg msg then headerSize + 4 + 2 + msg.data.length
    else cfg.bufferSize
  match (newBatchPacket buffSize msg).appendUserPacket msg.userID msg.data with
  | (_, false) => .ok none
  | (pkt, true) => do
    let pkt ← pkt.serializeHead
    return some (pkt.buf.take pkt.totalBytes)

def newBatch (cfg : Config) (msg : AggregatorMsg) (t : ℤ) : Batch where
  routingKey := msg.routingKey
  nextHop := msg.nextHop
  pkt := newBatchPacket cfg.bufferSize msg
  heapItem := none
  createTime := t

def numBatches (cfg : Config) (port : UInt16) : ℕ :=
  match cfg.batchNum port with
  | none => 1
  | some num => if num ≤ 0 then 1 else num.toNat

/-- The batch for a user among those of a routing key. -/
def pick (bList : List ℕ) (userID : UInt32) : Option ℕ :=
  if bList.length ≤ 1 then bList[0]? else bList[userID.toNat % bList.length]?

/-- The same with the length cut to thirty-two bits, where a zero divisor panics. -/
def pickLocked (bList : List ℕ) (userID : UInt32) : Except Failure (Option ℕ) :=
  if bList.length ≤ 1 then .ok bList[0]?
  else if bList.length % 2 ^ 32 = 0 then .error .panic
  else .ok bList[userID.toNat % (bList.length % 2 ^ 32)]?

/-- Both ends of the section under the batch's lock: a batch that is not in the heap
is pushed, the lock kept; one that is in the heap is unlocked. -/
def schedule (cfg : Config) (t : ℤ) (s : Worker) (b : ℕ) (batch : Batch) : Worker :=
  match batch.heapItem with
  | none => { s with now := t, handler := .push b (t + cfg.batchTimeout) }
  | some _ => { s with handler := .idle }

def handlerStep (cfg : Config) (t : ℤ) (s : Worker) : Option Worker :=
  match s.handler with
  | .idle => none
  | .lookup msg =>
    match pick (s.batches.val msg.routingKey) msg.userID with
    | some b => some { s with handler := .append msg b }
    | none => some { s with handler := .create msg }
  | .create msg =>
    let fresh := List.replicate (numBatches cfg msg.port) (newBatch cfg msg t)
    let s' := if msg.routingKey ∈ s.batches.keys then { s with now := t } else
      { s with
        now := t
        store := s.store ++ fresh
        batches := s.batches.set msg.routingKey (List.range' s.store.length fresh.length) }
    match pickLocked (s'.batches.val msg.routingKey) msg.userID with
    | .error _ => none
    | .ok none => some { s' with handler := .idle }
    | .ok (some b) => some { s' with handler := .append msg b }
  | .append msg b =>
    match s.store[b]? with
    | none => none
    | some batch =>
      if batch.heapItem = none ∧ batch.pkt.wp > headerSize then
        some { s with handler := .overflow msg }
      else
        match batch.pkt.appendUserPacket msg.userID msg.data with
        | (_, false) => some { s with handler := .overflow msg }
        | (pkt, true) =>
          some (schedule cfg t { s with store := s.store.set b { batch with pkt } } b batch)
  | .overflow msg =>
    let b := s.store.length
    some { s with
      now := t
      store := s.store ++ [newBatch cfg msg t]
      batches := s.batches.set msg.routingKey (s.batches.val msg.routingKey ++ [b])
      handler := .refill msg b }
  | .refill msg b =>
    match s.store[b]? with
    | none => none
    | some batch =>
      -- The result of the second attempt is not looked at.
      let pkt := (batch.pkt.appendUserPacket msg.userID msg.data).1
      some (schedule cfg t { s with store := s.store.set b { batch with pkt } } b batch)
  | .push b deadline =>
    some { s with heap := s.heap.push { batch := b, deadline }, handler := .finish b deadline }
  | .finish b deadline =>
    match s.store[b]? with
    | none => none
    | some batch =>
      some { s with
        store := s.store.set b { batch with heapItem := some deadline }
        handler := .idle }

/-- The loop under the lock: take the top item as long as it is due. -/
def popExpired (now : ℤ) : ℕ → MinHeap HeapItem.deadline → List HeapItem × MinHeap HeapItem.deadline
  | 0, heap => ([], heap)
  | fuel + 1, heap =>
    match heap.pop with
    | none => ([], heap)
    | some (top, rest) =>
      if top.val.deadline > now then ([], heap)
      else
        let r := popExpired now fuel rest
        (top.val :: r.1, r.2)

def timerStep (t : ℤ) (s : Worker) : Option Worker :=
  match s.timer with
  | .idle => some { s with now := t, timer := .pop t }
  | .pop now =>
    let r := popExpired now s.heap.toList.length s.heap
    some { s with heap := r.2, timer := .drain now r.1 [] }
  | .drain now (item :: expired) toSend =>
    if s.handler.holds = some item.batch then none
    else
      match s.store[item.batch]? with
      | none => none
      | some b =>
        match b.pkt.serializeHead with
        | .error _ => none
        | .ok pkt =>
          let copy : Flush :=
            { buf := pkt.buf.take pkt.totalBytes, routingKey := b.routingKey, nextHop := b.nextHop,
              source := some item.batch }
          let b' : Batch :=
            { b with pkt := { pkt with wp := headerSize }, createTime := now, heapItem := none }
          some { s with
            store := s.store.set item.batch b'
            timer := .drain now expired (toSend ++ [copy]) }
  | .drain now [] (f :: toSend) => some { flush s f with timer := .drain now [] toSend }
  | .drain _ [] [] => some { s with timer := .idle }

/-- A message leaves the input channel, one of the two goroutines makes a step, and the
clock shows `t` if it is read. -/
inductive Action where
  | receive (msg : AggregatorMsg)
  | handle (t : ℤ)
  | timeout (t : ℤ)

/-- A message that is sent at once needs no lock. -/
def receiveStep (cfg : Config) (msg : AggregatorMsg) (s : Worker) : Option Worker :=
  match s.handler with
  | .idle =>
    if emerges cfg msg then
      match emergePacket cfg msg with
      | .error _ => none
      | .ok none => some s
      | .ok (some buf) =>
        some (flush s { buf, routingKey := msg.routingKey, nextHop := msg.nextHop, source := none })
    else some { s with handler := .lookup msg }
  | _ => none

def step (cfg : Config) (s : Worker) : Action → Option Worker
  | .receive msg => receiveStep cfg msg s
  | .handle t => if t < s.now then none else handlerStep cfg t s
  | .timeout t => if t < s.now then none else timerStep t s

def run (cfg : Config) (actions : List Action) : Option Worker :=
  actions.foldlM (step cfg) Worker.start

/-- The messages that have been handed to `handleMsg`. -/
def messages (actions : List Action) : List AggregatorMsg :=
  actions.filterMap fun a => match a with
    | .receive msg => some msg
    | _ => none

/-- No call of `handleMsg` or `checkTimeout` is in progress. -/
def Worker.Quiet (s : Worker) : Prop := s.handler = .idle ∧ s.timer = .idle

end Arcturus.Aggregator
