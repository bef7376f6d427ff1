import Arcturus.EvictionRuns

/-!
What a step of `handleMsg` can do, and what it leaves of the packets in the store. The packet
of a batch holds the messages that were appended since it was last sent, of any length, in
every state that a worker can reach; its payload length is out of date while it rests.
-/

namespace Arcturus.HandlerMoves

open TunnelPacket TunnelHandler PacketCodec Routes BatchPacket GoMaps IndexedHeap Aggregator
open AggregatorParts Eviction
open StepRuns (run)

/-- The handler behind the section under the lock of a batch. -/
def Leaves (handler : Handler) (b : ℕ) (B : Batch) : Prop :=
  (B.heapItem = none ∧ ∃ deadline, handler = .push b deadline) ∨
    (B.heapItem ≠ none ∧ handler = .idle)

/-- Where a step leads while the message has not been given up: the handler moves on, enters
new batches, fills a batch, finds a new batch too small, pushes the heap item or notes it. -/
inductive HandlerMove (cfg : Config) (w : Worker) : Worker → Prop
  | goto {now : ℤ} {handler : Handler} {msg : AggregatorMsg} :
      w.handler.holds = none → handler.holds = none → inFlight w.handler = [msg] →
      inFlight handler = [msg] →
      (∀ b, handler = .append msg b → b ∈ w.batches.val msg.routingKey) →
      (handler = .create msg → w.batches.val msg.routingKey = []) →
      HandlerMove cfg w { w with now, handler }
  | enter {now : ℤ} {handler : Handler} {msg : AggregatorMsg} {fresh : List Batch} :
      w.handler.holds = none → inFlight w.handler = [msg] → inFlight handler = [msg] →
      fresh ≠ [] → (∀ B ∈ fresh, B = newBatch cfg msg now) →
      handler = .refill msg w.store.length ∨ (∃ b, handler = .append msg b ∧
        b ∈ w.batches.val msg.routingKey ++ List.range' w.store.length fresh.length) →
      HandlerMove cfg w { w with
        now, handler
        store := w.store ++ fresh
        batches := w.batches.set msg.routingKey
          (w.batches.val msg.routingKey ++ List.range' w.store.length fresh.length) }
  | fill {now : ℤ} {handler : Handler} {msg : AggregatorMsg} {b : ℕ} {B : Batch} {pkt : Packet} :
      w.handler = .append msg b ∧ ¬ (B.heapItem = none ∧ B.pkt.wp > headerSize) ∨
        w.handler = .refill msg b →
      w.store[b]? = some B → B.pkt.appendUserPacket msg.userID msg.data = (pkt, true) →
      Leaves handler b B →
      HandlerMove cfg w { w with now, handler, store := w.store.set b { B with pkt } }
  | refuse {now : ℤ} {handler : Handler} {msg : AggregatorMsg} {b : ℕ} {B : Batch} :
      w.handler = .refill msg b → w.store[b]? = some B →
      (B.pkt.appendUserPacket msg.userID msg.data).2 = false → Leaves handler b B →
      HandlerMove cfg w { w with now, handler }
  | push {b : ℕ} {deadline : ℤ} : w.handler = .push b deadline →
      HandlerMove cfg w { w with
        heap := w.heap.push { batch := b, deadline }
        handler := .finish b deadline }
  | note {b : ℕ} {deadline : ℤ} {B : Batch} : w.handler = .finish b deadline →
      w.store[b]? = some B →
      HandlerMove cfg w { w with
        store := w.store.set b { B with heapItem := some deadline }
        handler := .idle }

section Moves
variable {cfg : Config} {w w' : Worker} {t : ℤ}

theorem schedule_leaves (cfg : Config) (t : ℤ) (s : Worker) (b : ℕ) (B : Batch) :
    ∃ now handler, schedule cfg t s b B = { s with now, handler } ∧ Leaves handler b B := by
  obtain ⟨now, handler, heq, hnone | hsome⟩ := schedule_spec cfg t s b B
  · exact ⟨now, handler, heq, Or.inl ⟨hnone.1, _, hnone.2⟩⟩
  · exact ⟨now, handler, heq, Or.inr hsome⟩

/-- Before a batch is filled its message is in flight, and no other batch is armed. -/
theorem inFlight_of_fills {msg : AggregatorMsg} {b : ℕ} {ready : Prop}
    (h : w.handler = .append msg b ∧ ready ∨ w.handler = .refill msg b) :
    inFlight w.handler = [msg] ∧ armed w.handler = none ∧
      ∀ c, w.handler.holds = some c → c = b := by
  rcases h with ⟨hhandler, -⟩ | hhandler
  all_goals simp [hhandler, inFlight, armed, Handler.holds, eq_comm]

theorem pick_eq_none {bList : List ℕ} {userID : UInt32} (h : pick bList userID = none) :
    bList = [] := by
  unfold pick at h
  split at h
  · simpa using h
  · have hpos : 0 < bList.length := by omega
    rw [List.getElem?_eq_none_iff] at h
    have := Nat.mod_lt userID.toNat hpos
    omega

/-- The new batches are entered, or found to be there already. -/
theorem handlerMove_create {msg : AggregatorMsg}
    (hkeyed : ∀ key ∈ w.batches.keys, w.batches.val key ≠ [])
    (hhandler : w.handler = .create msg) (hs : handlerStep cfg t w = some w') :
    HandlerMove cfg w w' := by
  have hholds : w.handler.holds = none := by rw [hhandler]; rfl
  have hflight : inFlight w.handler = [msg] := by rw [hhandler]; rfl
  simp only [handlerStep, hhandler] at hs
  by_cases hkey : msg.routingKey ∈ w.batches.keys
  · simp only [if_pos hkey] at hs
    split at hs
    · cases hs
    · rename_i hpick
      obtain ⟨b, -, hb⟩ := pickLocked_cases (hkeyed _ hkey) hpick
      cases hb
    · rename_i b hpick
      obtain ⟨b', hmem, hb⟩ := pickLocked_cases (hkeyed _ hkey) hpick
      cases hb
      cases hs
      refine .goto hholds rfl hflight rfl ?_ (by simp)
      intro c hc
      cases hc
      exact hmem
  · have hnone : w.batches.val msg.routingKey = [] := w.batches.absent _ hkey
    have hne : List.range' w.store.length (numBatches cfg msg.port) ≠ [] := by
      simpa using numBatches_ne_zero cfg msg.port
    have hfresh : List.replicate (numBatches cfg msg.port) (newBatch cfg msg t) ≠ [] := by
      simpa using hne
    simp only [if_neg hkey, List.length_replicate, GoMap.set_val_same] at hs
    split at hs
    · cases hs
    · rename_i hpick
      obtain ⟨b, -, hb⟩ := pickLocked_cases hne hpick
      cases hb
    · rename_i b hpick
      obtain ⟨b', hmem, hb⟩ := pickLocked_cases hne hpick
      cases hb
      cases hs
      have hlist : List.range' w.store.length (numBatches cfg msg.port) =
          w.batches.val msg.routingKey ++ List.range' w.store.length
            (List.replicate (numBatches cfg msg.port) (newBatch cfg msg t)).length := by
        simp [hnone]
      rw [hlist] at hmem ⊢
      exact .enter hholds hflight rfl hfresh (fun B hB => List.eq_of_mem_replicate hB)
        (Or.inr ⟨b, rfl, hmem⟩)

/-- The loaded batch is looked up again under the lock; a full one leads to the overflow. -/
theorem handlerMove_append {msg : AggregatorMsg} {b : ℕ} (hhandler : w.handler = .append msg b)
    (hs : handlerStep cfg t w = some w') : HandlerMove cfg w w' := by
  have hfull : HandlerMove cfg w { w with handler := .overflow msg } := by
    refine .goto (by rw [hhandler]; rfl) rfl (by rw [hhandler]; rfl) rfl ?_ (by simp)
    intro c hc
    cases hc
  simp only [handlerStep, hhandler] at hs
  split at hs
  · cases hs
  rename_i B hB
  split at hs
  · exact Option.some.inj hs ▸ hfull
  rename_i hready
  split at hs
  · exact Option.some.inj hs ▸ hfull
  · rename_i pkt happ
    obtain ⟨now, handler, heq, hleaves⟩ := schedule_leaves cfg t
      { w with store := w.store.set b { B with pkt } } b B
    rw [← hhandler, heq] at hs
    exact Option.some.inj hs ▸ .fill (Or.inl ⟨hhandler, hready⟩) hB happ hleaves

/-- The overflow batch takes the message, or refuses it and stays as it is. -/
theorem handlerMove_refill {msg : AggregatorMsg} {b : ℕ} (hhandler : w.handler = .refill msg b)
    (hs : handlerStep cfg t w = some w') : HandlerMove cfg w w' := by
  simp only [handlerStep, hhandler] at hs
  split at hs
  · cases hs
  rename_i B hB
  cases happ : B.pkt.appendUserPacket msg.userID msg.data with
  | mk pkt accepted =>
    obtain ⟨now, handler, heq, hleaves⟩ := schedule_leaves cfg t
      { w with store := w.store.set b { B with pkt } } b B
    rw [happ, ← hhandler, heq] at hs
    cases hs
    cases accepted with
    | true => exact .fill (Or.inr hhandler) hB happ hleaves
    | false =>
      have hrefused : (B.pkt.appendUserPacket msg.userID msg.data).2 = false := by rw [happ]
      have hsame := appendUserPacket_refused hrefused
      rw [happ] at hsame
      subst hsame
      have hstore : w.store.set b { B with pkt := B.pkt } = w.store := set_same hB
      rw [hstore]
      exact .refuse hhandler hB hrefused hleaves

theorem handlerMove_of_step (hkeyed : ∀ key ∈ w.batches.keys, w.batches.val key ≠ [])
    (hs : handlerStep cfg t w = some w') : HandlerMove cfg w w' := by
  cases hhandler : w.handler with
  | idle => simp [handlerStep, hhandler] at hs
  | lookup msg =>
    have hholds : w.handler.holds = none := by rw [hhandler]; rfl
    have hflight : inFlight w.handler = [msg] := by rw [hhandler]; rfl
    simp only [handlerStep, hhandler] at hs
    split at hs
    · rename_i b hpick
      cases hs
      refine .goto hholds rfl hflight rfl ?_ (by simp)
      intro c hc
      cases hc
      exact mem_of_pick hpick
    · rename_i hpick
      cases hs
      refine .goto hholds rfl hflight rfl ?_ (fun _ => pick_eq_none hpick)
      intro c hc
      cases hc
  | create msg => exact handlerMove_create hkeyed hhandler hs
  | append msg b => exact handlerMove_append hhandler hs
  | overflow msg =>
    simp only [handlerStep, hhandler] at hs
    cases hs
    have hfresh : ∀ B ∈ [newBatch cfg msg t], B = newBatch cfg msg t :=
      fun B hB => List.mem_singleton.mp hB
    exact .enter (by rw [hhandler]; rfl) (by rw [hhandler]; rfl) rfl (by simp) hfresh (Or.inl rfl)
  | refill msg b => exact handlerMove_refill hhandler hs
  | push b deadline =>
    simp only [handlerStep, hhandler] at hs
    cases hs
    exact .push hhandler
  | finish b deadline =>
    simp only [handlerStep, hhandler] at hs
    split at hs
    · cases hs
    · rename_i B hB
      cases hs
      exact .note hhandler hB

end Moves

/-- The packet of a batch was made for the message and holds these sub-packets. Its payload
length counts them if the batch is on its way to be sent. -/
structure Contents (cfg : Config) (h : Handler) (b : ℕ) (B : Batch) (msg : AggregatorMsg)
    (subs : List SubPacket) : Prop where
  filled : Filled msg subs B.pkt
  size : B.pkt.buffSize = cfg.bufferSize
  loaded : B.heapItem ≠ none ∨ h.holds = some b → Loaded B.pkt subs

structure Kept (cfg : Config) (w : Worker) : Prop where
  stored : ∀ b B, w.store[b]? = some B → ∃ msg subs, Contents cfg w.handler b B msg subs
  flight : ∀ msg ∈ inFlight w.handler, emerges cfg msg = false
  keyed : ∀ key ∈ w.batches.keys, w.batches.val key ≠ []
  refilled : ∀ msg b, w.handler = .refill msg b → ∃ t, w.store[b]? = some (newBatch cfg msg t)

section Kept
variable {cfg : Config} {w w' : Worker} {t : ℤ}

theorem kept_start (cfg : Config) : Kept cfg Worker.start := by
  refine ⟨?_, ?_, ?_, ?_⟩
  · intro b B hB
    cases hB
  · intro msg hmsg
    cases hmsg
  · intro key hkey
    cases hkey
  · intro msg b hrefill
    cases hrefill

theorem Contents.pass {h h' : Handler} {b : ℕ} {B : Batch} {msg : AggregatorMsg}
    {subs : List SubPacket} (hc : Contents cfg h b B msg subs)
    (hh : h'.holds = some b → h.holds = some b) : Contents cfg h' b B msg subs :=
  ⟨hc.filled, hc.size, fun hwhy => hc.loaded (hwhy.imp_right hh)⟩

theorem contents_newBatch (h : Handler) (b : ℕ) (msg : AggregatorMsg) (t : ℤ) :
    Contents cfg h b (newBatch cfg msg t) msg [] where
  filled := .new cfg.bufferSize
  size := newBatchPacket_buffSize cfg.bufferSize msg
  loaded _ := Or.inr (newBatchPacket_payloadLen cfg.bufferSize msg)

theorem data_ne_nil_of_waits {msg : AggregatorMsg} (h : emerges cfg msg = false) :
    msg.data ≠ [] := by
  intro hnil
  simp [emerges, sentAlone, hnil] at h

theorem Leaves.holds {handler : Handler} {b : ℕ} {B : Batch} (h : Leaves handler b B) :
    inFlight handler = [] ∧ (∀ c, handler.holds = some c → c = b) ∧
      ∀ msg c, handler ≠ .refill msg c := by
  rcases h with ⟨-, deadline, rfl⟩ | ⟨-, rfl⟩
  · exact ⟨rfl, fun c hc => (Option.some.inj hc).symm, by simp⟩
  · exact ⟨rfl, by simp [Handler.holds], by simp⟩

/-- A step at one batch. -/
theorem Kept.set (h : Kept cfg w) {b : ℕ} {B B' : Batch} (hB : w.store[b]? = some B)
    (hstore : w'.store = w.store.set b B') (hbatches : w'.batches = w.batches)
    (hat : ∃ msg subs, Contents cfg w'.handler b B' msg subs)
    (hothers : ∀ c, c ≠ b → w'.handler.holds = some c → w.handler.holds = some c)
    (hflight : ∀ msg ∈ inFlight w'.handler, emerges cfg msg = false)
    (hrefill : ∀ msg c, w'.handler = .refill msg c → c ≠ b ∧ w.handler = .refill msg c) :
    Kept cfg w' := by
  obtain ⟨hlt, -⟩ := List.getElem?_eq_some_iff.mp hB
  refine ⟨?_, hflight, by rw [hbatches]; exact h.keyed, ?_⟩
  · intro c C hC
    rw [hstore] at hC
    by_cases hc : c = b
    · subst hc
      rw [List.getElem?_set_self hlt, Option.some.injEq] at hC
      exact hC ▸ hat
    · rw [List.getElem?_set_ne (Ne.symm hc)] at hC
      obtain ⟨msg, subs, hcontents⟩ := h.stored c C hC
      exact ⟨msg, subs, hcontents.pass (hothers c hc)⟩
  · intro msg c hc
    obtain ⟨hne, hold⟩ := hrefill msg c hc
    obtain ⟨t, ht⟩ := h.refilled msg c hold
    exact ⟨t, by rw [hstore, List.getElem?_set_ne (Ne.symm hne), ht]⟩

/-- A step that leaves the batches as they are. -/
theorem Kept.frame (h : Kept cfg w) (hstore : w'.store = w.store)
    (hkeyed : ∀ key ∈ w'.batches.keys, w'.batches.val key ≠ [])
    (hholds : ∀ c, w'.handler.holds = some c → w.handler.holds = some c)
    (hflight : ∀ msg ∈ inFlight w'.handler, emerges cfg msg = false)
    (hrefill : ∀ msg c, w'.handler = .refill msg c → w.handler = .refill msg c) :
    Kept cfg w' := by
  refine ⟨?_, hflight, hkeyed, ?_⟩
  · rw [hstore]
    intro b B hB
    obtain ⟨msg, subs, hcontents⟩ := h.stored b B hB
    exact ⟨msg, subs, hcontents.pass (hholds b)⟩
  · rw [hstore]
    exact fun msg c hc => h.refilled msg c (hrefill msg c hc)

theorem kept_enter (h : Kept cfg w) {now : ℤ} {handler : Handler} {msg : AggregatorMsg}
    {fresh : List Batch} (hflight₀ : inFlight w.handler = [msg])
    (hflight : inFlight handler = [msg])
    (hne : fresh ≠ []) (hfresh : ∀ B ∈ fresh, B = newBatch cfg msg now)
    (hnext : handler = .refill msg w.store.length ∨ ∃ b, handler = .append msg b)
    (hstore : w'.store = w.store ++ fresh)
    (hbatches : w'.batches = w.batches.set msg.routingKey
      (w.batches.val msg.routingKey ++ List.range' w.store.length fresh.length))
    (hhandler : w'.handler = handler) : Kept cfg w' := by
  have hholds : ∀ c, handler.holds = some c → c = w.store.length := by
    rcases hnext with rfl | ⟨b, rfl⟩
    · exact fun c hc => (Option.some.inj hc).symm
    · exact fun c hc => absurd hc (by simp [Handler.holds])
  refine ⟨?_, ?_, ?_, ?_⟩
  · rw [hstore, hhandler]
    intro b B hB
    by_cases hb : b < w.store.length
    · rw [List.getElem?_append_left hb] at hB
      obtain ⟨m, subs, hcontents⟩ := h.stored b B hB
      refine ⟨m, subs, hcontents.pass fun hc => ?_⟩
      have := hholds b hc
      omega
    · rw [List.getElem?_append_right (by omega)] at hB
      rw [hfresh B (List.mem_of_getElem? hB)]
      exact ⟨msg, [], contents_newBatch handler b msg now⟩
  · rw [hhandler, hflight, ← hflight₀]
    exact h.flight
  · rw [hbatches]
    intro key hkey
    by_cases hsame : key = msg.routingKey
    · subst hsame
      rw [GoMap.set_val_same]
      simpa using fun _ => hne
    · rw [GoMap.set_val_of_ne _ _ hsame]
      exact h.keyed key (((GoMap.mem_set_keys ..).mp hkey).resolve_left hsame)
  · rw [hhandler, hstore]
    intro m b hrefill
    rcases hnext with rfl | ⟨c, rfl⟩
    · cases hrefill
      obtain ⟨B, rest, rfl⟩ := List.exists_cons_of_ne_nil hne
      refine ⟨now, ?_⟩
      rw [List.getElem?_append_right le_rfl, Nat.sub_self]
      exact congrArg some (hfresh B List.mem_cons_self)
    · cases hrefill

theorem kept_handlerMove (h : Kept cfg w) (hm : HandlerMove cfg w w') : Kept cfg w' := by
  cases hm with
  | @goto now handler msg hfree hholds hflight₀ hflight hlisted hcreated =>
    refine h.frame rfl h.keyed (by simp [hholds]) ?_ ?_
    · change ∀ msg ∈ inFlight handler, _
      rw [hflight, ← hflight₀]
      exact h.flight
    · intro m c hc
      change handler = _ at hc
      rw [hc] at hholds
      cases hholds
  | enter hfree hflight₀ hflight hne hfresh hnext =>
    refine kept_enter h hflight₀ hflight hne hfresh ?_ rfl rfl rfl
    exact hnext.imp_right fun ⟨b, hb, _⟩ => ⟨b, hb⟩
  | @fill now handler msg b B pkt hwhere hB happ hleaves =>
    obtain ⟨hflight, hholds, hrefill⟩ := hleaves.holds
    have hmsg : msg.data ≠ [] :=
      data_ne_nil_of_waits (h.flight msg (by simp [(inFlight_of_fills hwhere).1]))
    obtain ⟨m, subs, hcontents⟩ := h.stored b B hB
    have hnew : Contents cfg handler b { B with pkt } m (subs ++ [⟨msg.userID, msg.data⟩]) := by
      refine ⟨hcontents.filled.append hmsg happ, ?_, fun _ => Or.inl (by simp)⟩
      exact (append_accepted happ).1.buffSize.trans hcontents.size
    refine h.set hB rfl rfl ⟨m, _, hnew⟩ ?_ ?_ ?_
    · exact fun c hc hheld => absurd (hholds c hheld) hc
    · change ∀ msg ∈ inFlight handler, _
      simp [hflight]
    · exact fun m c hc => absurd hc (hrefill m c)
  | @refuse now handler msg b B hhandler hB hrefused hleaves =>
    obtain ⟨hflight, hholds, hrefill⟩ := hleaves.holds
    refine h.frame rfl h.keyed ?_ ?_ (fun m c hc => absurd hc (hrefill m c))
    · intro c hc
      rw [hholds c hc, hhandler]
      rfl
    · change ∀ msg ∈ inFlight handler, _
      simp [hflight]
  | push hhandler =>
    refine h.frame rfl h.keyed ?_ (by simp [inFlight]) (by simp)
    intro c hc
    cases hc
    rw [hhandler]
    rfl
  | @note b deadline B hhandler hB =>
    obtain ⟨m, subs, hcontents⟩ := h.stored b B hB
    have hloaded := hcontents.loaded (Or.inr (by rw [hhandler]; rfl))
    refine h.set hB rfl rfl ⟨m, subs, hcontents.filled, hcontents.size, fun _ => hloaded⟩ ?_
      (by simp [inFlight]) (by simp)
    intro c _ hc
    cases hc

theorem kept_timerStep (h : Kept cfg w) (hs : timerStep t w = some w') : Kept cfg w' := by
  cases timerMove_of_step hs with
  | wait | pop => exact h.frame rfl h.keyed (fun _ hc => hc) h.flight (fun _ _ hc => hc)
  | @copy now item items copies B q htimer hfree hB hq =>
    obtain ⟨m, subs, hcontents⟩ := h.stored _ B hB
    have hsize : q.buffSize = cfg.bufferSize := by
      obtain ⟨-, rfl⟩ := serializeHead_eq hq
      exact hcontents.size
    refine h.set hB rfl rfl ⟨m, [], hcontents.filled.sent hq, hsize, ?_⟩ (fun _ _ hc => hc)
      h.flight ?_
    · rintro (hitem | hheld)
      · exact absurd rfl hitem
      · exact absurd hheld hfree
    · intro m c hc
      refine ⟨fun hsame => hfree ?_, hc⟩
      change w.handler = _ at hc
      rw [hc, hsame]
      rfl
  | send =>
    unfold flush
    split
    all_goals exact h.frame rfl h.keyed (fun _ hc => hc) h.flight (fun _ _ hc => hc)

theorem kept_flush (h : Kept cfg w) (f : Flush) : Kept cfg (flush w f) := by
  unfold flush
  split
  · exact h
  · exact h.frame rfl h.keyed (fun _ hc => hc) h.flight (fun _ _ hc => hc)

theorem kept_receiveStep {msg : AggregatorMsg} (h : Kept cfg w)
    (hs : receiveStep cfg msg w = some w') : Kept cfg w' := by
  unfold receiveStep at hs
  split at hs
  · split at hs
    · split at hs
      · cases hs
      · cases hs
        exact h
      · cases hs
        exact kept_flush h _
    · rename_i hwaits
      cases hs
      refine h.frame rfl h.keyed (by simp [Handler.holds]) ?_ (by simp)
      intro m hm
      rw [List.mem_singleton.mp hm]
      simpa using hwaits
  · cases hs

theorem kept_step {a : Aggregator.Action} (h : Kept cfg w)
    (hs : Aggregator.step cfg w a = some w') : Kept cfg w' := by
  unfold Aggregator.step at hs
  split at hs
  · exact kept_receiveStep h hs
  · split at hs
    · cases hs
    · exact kept_handlerMove h (handlerMove_of_step h.keyed hs)
  · split at hs
    · cases hs
    · exact kept_timerStep h hs

theorem kept_evictStep {i : ℕ} {s s' : Evicting} (h : Kept cfg s.worker)
    (hs : evictStep t i s = some s') : Kept cfg s'.worker := by
  rcases evictStep_worker hs with ⟨now, hworker⟩ | ⟨key, v, heap, -, hworker⟩
  all_goals rw [hworker]
  · exact h.frame rfl h.keyed (fun _ hc => hc) h.flight (fun _ _ hc => hc)
  · refine h.frame rfl ?_ (fun _ hc => hc) h.flight (fun _ _ hc => hc)
    intro k hk
    obtain ⟨hold, hne⟩ := (GoMap.mem_erase_keys ..).mp hk
    change (s.worker.batches.erase key).val k ≠ []
    rw [GoMap.erase_val_of_ne _ hne]
    exact h.keyed k hold

theorem kept_run {actions : List Eviction.Action} {s : Evicting}
    (hrun : run (Eviction.step cfg) Evicting.start actions = some s) : Kept cfg s.worker := by
  refine StepRuns.run_induction (motive := fun _ s => Kept cfg s.worker) (kept_start cfg) ?_ hrun
  intro _ s a s' _ h hs
  cases a with
  | work a =>
    obtain ⟨w', hw', rfl⟩ := Option.map_eq_some_iff.mp hs
    exact kept_step h hw'
  | evict t i =>
    simp only [Eviction.step] at hs
    split at hs
    · cases hs
    · exact kept_evictStep h hs

end Kept

end Arcturus.HandlerMoves
