import Arcturus.Aggregator

/-!
The parts of a worker that its invariants speak of: the message that is on its way into a
batch, the batches that wait to be sent and what they hold, and the copies that are on their
way out. Then follow the small functions of the worker, and two runs of it.
-/

namespace Arcturus.AggregatorParts

open TunnelPacket TunnelHandler Routes BatchPacket IndexedHeap Aggregator

def toSub (msg : AggregatorMsg) : SubPacket := ⟨msg.userID, msg.data⟩

/-- The message that the handler has not put anywhere yet. -/
def inFlight : Handler → List AggregatorMsg
  | .lookup msg | .create msg | .append msg _ | .overflow msg | .refill msg _ => [msg]
  | .idle | .push _ _ | .finish _ _ => []

/-- The batch that is filled but not noted as scheduled yet. -/
def armed : Handler → Option ℕ
  | .push b _ | .finish b _ => some b
  | _ => none

def expired : Timer → List HeapItem
  | .drain _ items _ => items
  | _ => []

def toSend : Timer → List Flush
  | .drain _ _ copies => copies
  | _ => []

/-- The batches that wait to be sent. -/
def queued (s : Worker) : List ℕ := (s.heap.toList ++ expired s.timer).map HeapItem.batch

/-- The buffers that were sent or are about to be. -/
def outgoing (s : Worker) : List Flush := s.flushed ++ toSend s.timer

def sentFrom (fs : List Flush) (source : Option ℕ) : List SubPacket :=
  (fs.filter fun f => f.source = source).flatMap fun f => decode f.buf

/-- The messages put into one batch, or into packets of their own. -/
def placedAt (placed : List (Option ℕ × AggregatorMsg)) (source : Option ℕ) :
    List AggregatorMsg := (placed.filter fun x => x.1 = source).map Prod.snd

/-- A message with data that a new batch has room for. -/
def Fits (cfg : Config) (m : AggregatorMsg) : Prop :=
  m.data ≠ [] ∧ m.data.length + 30 ≤ cfg.bufferSize

/-- The sub-packets in a batch that have not been sent. -/
def held (s : Worker) (b : ℕ) : List SubPacket :=
  match s.store[b]? with
  | some B => pending B.pkt
  | none => []

/-- The sub-packets in the batches that are in the heap. -/
def scheduled (s : Worker) : List SubPacket := s.heap.toList.flatMap fun item => held s item.batch

/-- What a step of `checkTimeout` does: it begins or ends a call, takes expired items off the
heap, copies and empties the batch of the first of them, or sends the first copy. -/
inductive TimerMove (w : Worker) : Worker → Prop
  | wait {now : ℤ} {timer : Timer} : expired timer = expired w.timer →
      toSend timer = toSend w.timer → TimerMove w { w with now, timer }
  | pop {now : ℤ} {r : List HeapItem × MinHeap HeapItem.deadline} : w.timer = .pop now →
      popExpired now w.heap.toList.length w.heap = r →
      TimerMove w { w with heap := r.2, timer := .drain now r.1 [] }
  | copy {now : ℤ} {item : HeapItem} {items : List HeapItem} {copies : List Flush} {B : Batch}
      {q : Packet} : w.timer = .drain now (item :: items) copies →
      w.handler.holds ≠ some item.batch → w.store[item.batch]? = some B →
      B.pkt.serializeHead = .ok q →
      TimerMove w { w with
        store := w.store.set item.batch
          { B with pkt := { q with wp := headerSize }, createTime := now, heapItem := none }
        timer := .drain now items
          (copies ++ [⟨q.buf.take q.totalBytes, B.routingKey, B.nextHop, some item.batch⟩]) }
  | send {now : ℤ} {f : Flush} {copies : List Flush} : w.timer = .drain now [] (f :: copies) →
      TimerMove w { flush w f with timer := .drain now [] copies }

section Functions
variable {cfg : Config}

theorem placedAt_append_same (placed : List (Option ℕ × AggregatorMsg)) (source : Option ℕ)
    (m : AggregatorMsg) :
    placedAt (placed ++ [(source, m)]) source = placedAt placed source ++ [m] := by
  simp [placedAt]

theorem placedAt_append_of_ne (placed : List (Option ℕ × AggregatorMsg)) {source other : Option ℕ}
    (m : AggregatorMsg) (h : source ≠ other) :
    placedAt (placed ++ [(source, m)]) other = placedAt placed other := by
  simp [placedAt, h]

/-- The handler after a batch was filled: it has to push the batch, or is done with it. -/
theorem schedule_spec (cfg : Config) (t : ℤ) (s : Worker) (b : ℕ) (B : Batch) :
    ∃ now h, schedule cfg t s b B = { s with now, handler := h } ∧
      (B.heapItem = none ∧ h = .push b (t + cfg.batchTimeout) ∨
        B.heapItem ≠ none ∧ h = .idle) := by
  unfold schedule
  cases B.heapItem with
  | none => exact ⟨t, _, rfl, Or.inl ⟨rfl, rfl⟩⟩
  | some deadline => exact ⟨s.now, _, rfl, Or.inr ⟨by simp, rfl⟩⟩

theorem set_same {b : ℕ} {B : Batch} {store : List Batch} (h : store[b]? = some B) :
    store.set b B = store := by
  obtain ⟨hlt, rfl⟩ := List.getElem?_eq_some_iff.mp h
  exact List.set_getElem_self hlt

theorem mem_of_pick {bList : List ℕ} {userID : UInt32} {b : ℕ} (h : pick bList userID = some b) :
    b ∈ bList := by
  unfold pick at h
  split at h
  all_goals exact List.mem_of_getElem? h

theorem pickLocked_cases {bList : List ℕ} (hne : bList ≠ []) {userID : UInt32} {r : Option ℕ}
    (h : pickLocked bList userID = .ok r) : ∃ b ∈ bList, r = some b := by
  have hpos := List.length_pos_of_ne_nil hne
  unfold pickLocked at h
  split at h
  · rw [Except.ok.injEq, List.getElem?_eq_getElem hpos] at h
    exact ⟨_, List.getElem_mem _, h.symm⟩
  · split at h
    · simp at h
    · rename_i hmod
      have hle := Nat.mod_le bList.length (2 ^ 32)
      have hidx : userID.toNat % (bList.length % 2 ^ 32) < bList.length :=
        lt_of_lt_of_le (Nat.mod_lt _ (Nat.pos_of_ne_zero hmod)) hle
      rw [Except.ok.injEq, List.getElem?_eq_getElem hidx] at h
      exact ⟨_, List.getElem_mem _, h.symm⟩

theorem numBatches_ne_zero (cfg : Config) (port : UInt16) : numBatches cfg port ≠ 0 := by
  unfold numBatches
  split
  · simp
  · split <;> omega

theorem timerMove_of_step {t : ℤ} {w w' : Worker} (hs : timerStep t w = some w') :
    TimerMove w w' := by
  unfold timerStep at hs
  split at hs
  · rename_i htimer
    cases hs
    exact .wait (by rw [htimer]; rfl) (by rw [htimer]; rfl)
  · rename_i htimer
    cases hs
    exact .pop htimer rfl
  · rename_i htimer
    split at hs
    · cases hs
    rename_i hfree
    split at hs
    · cases hs
    rename_i hB
    split at hs
    · cases hs
    rename_i hq
    cases hs
    exact .copy htimer hfree hB hq
  · rename_i htimer
    cases hs
    exact .send htimer
  · rename_i htimer
    cases hs
    exact .wait (by rw [htimer]; rfl) (by rw [htimer]; rfl)

/-- The loop moves items from the heap to its list. -/
theorem popExpired_perm (now : ℤ) (fuel : ℕ) (heap : MinHeap HeapItem.deadline) :
    ((popExpired now fuel heap).2.toList ++ (popExpired now fuel heap).1).Perm heap.toList := by
  induction fuel generalizing heap with
  | zero => simp [popExpired]
  | succ fuel ih =>
    unfold popExpired
    split
    · simp
    · rename_i top rest hpop
      obtain ⟨hperm, -⟩ := heap.pop_spec hpop
      split
      · simp
      · exact List.perm_middle.trans (((ih rest).cons _).trans hperm.symm)

theorem holds_of_armed {handler : Handler} {b : ℕ} (h : armed handler = some b) :
    handler.holds = some b := by
  cases handler <;> simp_all [armed, Handler.holds]

theorem emergePacket_of_fits {msg : AggregatorMsg} (hfits : Fits cfg msg) :
    emergePacket cfg msg ≠ .ok none := by
  unfold emergePacket
  generalize hbuff : (if sentAlone cfg msg then headerSize + 4 + 2 + msg.data.length
    else cfg.bufferSize) = buffSize
  have hroom : msg.data.length + 30 ≤ buffSize := by
    have hlen := hfits.2
    have hhead : headerSize = 24 := rfl
    split at hbuff
    all_goals omega
  obtain ⟨p, happ⟩ := append_new msg msg.userID hroom
  simp only [happ]
  cases p.serializeHead <;> simp [bind, Except.bind, pure, Except.pure]

end Functions

section Samples

/-- A small buffer and a timeout that leaves time to wait. -/
def smallBuffers : Config where
  bufferSize := 400
  batchTimeoutMs := 50
  batchNum := fun _ => none

/-- The route 10.0.1.1, 10.0.1.2, 10.0.1.3 with this port. -/
def routeTo (port : UInt16) (h : port ≠ 0) : Route where
  nodes := [0x0A000101, 0x0A000102]
  origin := 0x0A000103
  port := port
  long := by decide
  port_ne := h

/-- A request of 128 bytes by TCP. -/
def request (r : Route) (reqID : UInt32) : AggregatorMsg :=
  r.message false "tcp" reqID (List.replicate 128 10)

/-- Two messages are handled one after the other, and then the timer runs once. -/
def twoThenTimeout (m m' : AggregatorMsg) : List Action :=
  [.receive m, .handle 0, .handle 0, .handle 0, .handle 0, .handle 0, .receive m', .handle 0,
    .handle 0] ++ List.replicate 5 (.timeout 50000000)

/-- Two requests to one port of the origin. -/
def onePort : List Action :=
  twoThenTimeout (request (routeTo 80 eighty_ne_zero) 1) (request (routeTo 80 eighty_ne_zero) 2)

/-- Two requests to two ports of the origin. -/
def twoPorts : List Action :=
  twoThenTimeout (request (routeTo 80 eighty_ne_zero) 1) (request (routeTo 81 (by decide)) 2)

end Samples

end Arcturus.AggregatorParts
