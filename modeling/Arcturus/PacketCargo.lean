import Arcturus.HandlerMoves
import Arcturus.Tallies

/-!
Which messages each packet of a worker carries, in every run of its three goroutines. A
message that was taken from the input channel is in a packet that was sent or copied, in
the packet of a batch, on its way into one, or it was dropped because it does not fit; it
is never in two places. A packet carries messages of one routing key and goes to the next
hop of the message that it was made for. What was sent from a batch and what it holds are the
messages that were put into it, in order. Batches that were evicted keep what they hold.
-/

namespace Arcturus.PacketCargo

open TunnelPacket TunnelHandler TunnelSafety PacketCodec Routes BatchPacket GoMaps Aggregator
open AggregatorParts Eviction EvictionInvariant EvictionRuns HandlerMoves
open Tallies
open StepRuns (run)

/-- The messages that a worker took, with the batches that it put them into, those in the
packets that it sent, in the copies that are still to be sent and in its batches, and those
that it dropped. -/
structure Account where
  taken : List AggregatorMsg
  placed : List (Option ℕ × AggregatorMsg)
  sent : List (List AggregatorMsg)
  copied : List (List AggregatorMsg)
  stored : List (List AggregatorMsg)
  dropped : List AggregatorMsg

def Account.start : Account := ⟨[], [], [], [], [], []⟩

/-- What has not left the worker in a packet. -/
def Account.kept (g : Account) (handler : Handler) : Multiset AggregatorMsg :=
  tally g.copied + tally g.stored + (inFlight handler : Multiset _) + (g.dropped : Multiset _)

/-- The messages in those of the packets that were filled from the batch. -/
def sentBy (b : ℕ) (fs : List Flush) (mss : List (List AggregatorMsg)) : List AggregatorMsg :=
  ((fs.zip mss).filter fun x => x.1.source = some b).flatMap Prod.snd

/-- Messages with this routing key that wait. -/
def Mates (cfg : Config) (key : String) (ms : List AggregatorMsg) : Prop :=
  ∀ m ∈ ms, emerges cfg m = false ∧ m.routingKey = key

/-- The size of a packet that was made for the message. -/
def Roomy (cfg : Config) (first : AggregatorMsg) (p : Packet) : Prop :=
  p.buffSize = cfg.bufferSize ∨
    emerges cfg first = true ∧ p.buffSize = headerSize + 4 + 2 + first.data.length

/-- A packet that was made for the message `first`: one without a readable sub-packet, or one
that is filled with its mates or with it alone, and sent to its next hop. -/
inductive Carries (cfg : Config) (taken : List AggregatorMsg) (f : Flush) :
    List AggregatorMsg → Prop
  | hollow {first : AggregatorMsg} : first ∈ taken → TunnelBytes first f.buf →
      (header f.buf).payloadLen.toNat < 7 → Carries cfg taken f []
  | filled {first : AggregatorMsg} {ms : List AggregatorMsg} {p q : Packet} : first ∈ taken →
      ms ≠ [] → ms = [first] ∨ Mates cfg first.routingKey (first :: ms) →
      Filled first (ms.map toSub) p → Roomy cfg first p → p.serializeHead = .ok q →
      f.buf = q.buf.take q.totalBytes → f.nextHop = first.nextHop → Carries cfg taken f ms

/-- A batch that was made for a message and holds these ones; it is empty unless it notes a
heap item or is about to. -/
def Holding (cfg : Config) (taken : List AggregatorMsg) (handler : Handler) (b : ℕ) (B : Batch)
    (ms : List AggregatorMsg) : Prop :=
  (B.heapItem = none → handler.holds ≠ some b → ms = []) ∧
    ∃ first ∈ taken, Mates cfg B.routingKey (first :: ms) ∧ B.nextHop = first.nextHop ∧
      Contents cfg handler b B first (ms.map toSub)

structure Ledger (cfg : Config) (g : Account) (w : Worker) : Prop where
  sent : List.Forall₂ (Carries cfg g.taken) w.flushed g.sent
  copied : List.Forall₂ (Carries cfg g.taken) (toSend w.timer) g.copied
  length : g.stored.length = w.store.length
  stored : ∀ b B ms, w.store[b]? = some B → g.stored[b]? = some ms →
    Holding cfg g.taken w.handler b B ms
  located : ∀ msg b, w.handler = .append msg b →
    ∃ B, w.store[b]? = some B ∧ B.routingKey = msg.routingKey
  account : (g.taken : Multiset AggregatorMsg) = tally g.sent + g.kept w.handler
  unfit : ∀ m ∈ g.dropped, ¬ Fits cfg m
  order : ∀ b, placedAt g.placed (some b) = sentBy b w.flushed g.sent ++
    sentBy b (toSend w.timer) g.copied ++ g.stored[b]?.getD []
  arrived : g.dropped = [] → g.placed.map Prod.snd ++ inFlight w.handler = g.taken

theorem ledger_start (cfg : Config) : Ledger cfg .start Worker.start where
  sent := .nil
  copied := .nil
  length := rfl
  stored := by
    intro b B ms hB
    cases hB
  located := by
    intro msg b h
    cases h
  account := rfl
  unfit := by
    intro m hm
    cases hm
  order _ := rfl
  arrived _ := rfl

section Steps
variable {cfg : Config} {g g' : Account} {w w' : Worker}

theorem sentBy_nil (b : ℕ) (mss : List (List AggregatorMsg)) : sentBy b [] mss = [] := rfl

theorem sentBy_append {fs fs' : List Flush} {mss mss' : List (List AggregatorMsg)}
    (h : fs.length = mss.length) (b : ℕ) :
    sentBy b (fs ++ fs') (mss ++ mss') = sentBy b fs mss ++ sentBy b fs' mss' := by
  simp [sentBy, List.zip_append h]

theorem sentBy_cons (b : ℕ) (f : Flush) (fs : List Flush) (ms : List AggregatorMsg)
    (mss : List (List AggregatorMsg)) :
    sentBy b (f :: fs) (ms :: mss) = (if f.source = some b then ms else []) ++ sentBy b fs mss := by
  simp only [sentBy, List.zip_cons_cons, List.filter_cons]
  split <;> simp_all

theorem sentBy_alone {fs : List Flush} (h : ∀ f ∈ fs, f.source = none) (b : ℕ)
    (mss : List (List AggregatorMsg)) : sentBy b fs mss = [] := by
  have hfilter : (fs.zip mss).filter (fun x => x.1.source = some b) = [] :=
    List.filter_eq_nil_iff.mpr fun x hx => by simp [h x.1 (List.of_mem_zip hx).1]
  rw [sentBy, hfilter]
  rfl

theorem Carries.mono {taken taken' : List AggregatorMsg} {f : Flush} {ms : List AggregatorMsg}
    (hsub : taken ⊆ taken') (h : Carries cfg taken f ms) : Carries cfg taken' f ms := by
  cases h with
  | hollow hfirst hbytes hshort => exact .hollow (hsub hfirst) hbytes hshort
  | filled hfirst hne halike hp hroom hq hbuf hnext =>
    exact .filled (hsub hfirst) hne halike hp hroom hq hbuf hnext

/-- The message that the packet was made for, and what the others have in common with it. -/
theorem Carries.maker {taken ms : List AggregatorMsg} {f : Flush} (h : Carries cfg taken f ms) :
    ∃ first ∈ taken, TunnelBytes first f.buf ∧ ∀ m ∈ ms, m = first ∨
      emerges cfg first = false ∧ emerges cfg m = false ∧ m.routingKey = first.routingKey := by
  cases h with
  | hollow hfirst hbytes _ => exact ⟨_, hfirst, hbytes, fun m hm => absurd hm List.not_mem_nil⟩
  | @filled first _ p q hfirst _ halike hp _ hq hbuf _ =>
    refine ⟨first, hfirst, ⟨p, q, hp.sameRoute, hq, hbuf⟩, ?_⟩
    intro m hm
    rcases halike with rfl | hmates
    · exact Or.inl (List.mem_singleton.mp hm)
    · obtain ⟨hwaits, hkey⟩ := hmates m (List.mem_cons_of_mem _ hm)
      exact Or.inr ⟨(hmates first List.mem_cons_self).1, hwaits, hkey⟩

theorem Carries.headerSize_le {taken ms : List AggregatorMsg} {f : Flush}
    (h : Carries cfg taken f ms) : headerSize ≤ f.buf.length := by
  cases h with
  | hollow _ hbytes _ =>
    obtain ⟨p, q, -, hq, hbuf⟩ := hbytes
    rw [hbuf]
    exact headerSize_le_serialized hq
  | filled _ _ _ _ _ hq hbuf _ =>
    rw [hbuf]
    exact headerSize_le_serialized hq

theorem Carries.flush_eq {taken ms : List AggregatorMsg} {f : Flush} (h : Carries cfg taken f ms)
    (w : Worker) : flush w f = { w with flushed := w.flushed ++ [f] } := by
  have hlen := h.headerSize_le
  have hpos : headerSize = 24 := rfl
  unfold flush
  rw [if_neg (by omega)]

theorem Holding.pass {taken ms : List AggregatorMsg} {h h' : Handler} {b : ℕ} {B : Batch}
    (hold : Holding cfg taken h b B ms) (hh : h'.holds = some b ↔ h.holds = some b) :
    Holding cfg taken h' b B ms := by
  obtain ⟨hrest, first, hfirst, hmates, hnext, hcontents⟩ := hold
  exact ⟨fun hnone hfree => hrest hnone fun hheld => hfree (hh.mpr hheld), first, hfirst, hmates,
    hnext, hcontents.pass hh.mp⟩

theorem Ledger.mem_taken (h : Ledger cfg g w) {msg : AggregatorMsg}
    (hmsg : inFlight w.handler = [msg]) : msg ∈ g.taken := by
  rw [← Multiset.mem_coe, h.account]
  simp [Account.kept, hmsg]

theorem Ledger.exists_stored (h : Ledger cfg g w) {b : ℕ} {B : Batch}
    (hB : w.store[b]? = some B) : ∃ ms, g.stored[b]? = some ms := by
  obtain ⟨hlt, -⟩ := List.getElem?_eq_some_iff.mp hB
  exact ⟨_, List.getElem?_eq_getElem (h.length ▸ hlt)⟩

theorem Ledger.maker (h : Ledger cfg g w) {f : Flush} (hf : f ∈ w.flushed) :
    ∃ first ∈ g.taken, TunnelBytes first f.buf := by
  obtain ⟨i, hi⟩ := List.mem_iff_getElem?.mp hf
  obtain ⟨ms, -, hcarries⟩ := forall₂_getElem? h.sent hi
  obtain ⟨first, hfirst, hbytes, -⟩ := hcarries.maker
  exact ⟨first, hfirst, hbytes⟩

/-- A step that changes neither the packets nor the message in flight. -/
theorem Ledger.frame (h : Ledger cfg g w) (hflushed : w'.flushed = w.flushed)
    (hcopies : toSend w'.timer = toSend w.timer) (hstore : w'.store = w.store)
    (hholds : w'.handler.holds = w.handler.holds)
    (hflight : inFlight w'.handler = inFlight w.handler)
    (hlocated : ∀ msg b, w'.handler = .append msg b →
      ∃ B, w.store[b]? = some B ∧ B.routingKey = msg.routingKey) : Ledger cfg g w' where
  sent := hflushed ▸ h.sent
  copied := hcopies ▸ h.copied
  length := hstore ▸ h.length
  stored := by
    intro b B ms hB hms
    exact (h.stored b B ms (hstore ▸ hB) hms).pass (by rw [hholds])
  located := hstore ▸ hlocated
  account := by
    rw [h.account, Account.kept, Account.kept, hflight]
  unfit := h.unfit
  order := by
    rw [hflushed, hcopies]
    exact h.order
  arrived := hflight ▸ h.arrived

/-- A step at one batch, which afterwards holds other messages. -/
theorem Ledger.set (h : Ledger cfg g w) {b : ℕ} {B' : Batch} {ms' : List AggregatorMsg}
    (hb : b < w.store.length) (htaken : g'.taken = g.taken)
    (hstored : g'.stored = g.stored.set b ms') (hdropped : g'.dropped = g.dropped)
    (hstore : w'.store = w.store.set b B')
    (hsent : List.Forall₂ (Carries cfg g.taken) w'.flushed g'.sent)
    (hcopied : List.Forall₂ (Carries cfg g.taken) (toSend w'.timer) g'.copied)
    (hat : Holding cfg g.taken w'.handler b B' ms')
    (hothers : ∀ c, c ≠ b → (w'.handler.holds = some c ↔ w.handler.holds = some c))
    (hlocated : ∀ msg c, w'.handler = .append msg c →
      ∃ B, (w.store.set b B')[c]? = some B ∧ B.routingKey = msg.routingKey)
    (haccount : tally g'.sent + g'.kept w'.handler = tally g.sent + g.kept w.handler)
    (horder : ∀ c, placedAt g'.placed (some c) = sentBy c w'.flushed g'.sent ++
      sentBy c (toSend w'.timer) g'.copied ++ (g.stored.set b ms')[c]?.getD [])
    (harrived : g.dropped = [] → g'.placed.map Prod.snd ++ inFlight w'.handler = g.taken) :
    Ledger cfg g' w' where
  sent := htaken ▸ hsent
  copied := htaken ▸ hcopied
  length := by
    rw [hstored, hstore, List.length_set, List.length_set, h.length]
  stored := by
    intro c C ms hC hms
    rw [hstore] at hC
    rw [hstored] at hms
    rw [htaken]
    by_cases hc : c = b
    · subst hc
      rw [List.getElem?_set_self hb, Option.some.injEq] at hC
      rw [List.getElem?_set_self (h.length ▸ hb), Option.some.injEq] at hms
      exact hC ▸ hms ▸ hat
    · rw [List.getElem?_set_ne (Ne.symm hc)] at hC hms
      exact (h.stored c C ms hC hms).pass (hothers c hc)
  located := by
    rw [hstore]
    exact hlocated
  account := by
    rw [htaken, h.account, haccount]
  unfit := hdropped ▸ h.unfit
  order := hstored ▸ horder
  arrived := by
    rw [hdropped, htaken]
    exact harrived

/-- New batches are empty and made for the message in flight. -/
theorem ledger_enter (h : Ledger cfg g w) {msg : AggregatorMsg} {fresh : List Batch} {now : ℤ}
    (hwaits : emerges cfg msg = false) (hfree : w.handler.holds = none)
    (hflight₀ : inFlight w.handler = [msg]) (hflight : inFlight w'.handler = [msg])
    (hfresh : ∀ B ∈ fresh, B = newBatch cfg msg now)
    (hholds : ∀ c, w'.handler.holds = some c → c = w.store.length)
    (hflushed : w'.flushed = w.flushed) (htimer : w'.timer = w.timer)
    (hstore : w'.store = w.store ++ fresh)
    (hlocated : ∀ m b, w'.handler = .append m b →
      ∃ B, w'.store[b]? = some B ∧ B.routingKey = m.routingKey) :
    Ledger cfg { g with stored := g.stored ++ List.replicate fresh.length [] } w' where
  sent := hflushed ▸ h.sent
  copied := htimer ▸ h.copied
  length := by
    rw [hstore, List.length_append, List.length_append, List.length_replicate, h.length]
  stored := by
    intro b B ms hB hms
    rw [hstore] at hB
    by_cases hb : b < w.store.length
    · rw [List.getElem?_append_left hb] at hB
      rw [List.getElem?_append_left (h.length ▸ hb)] at hms
      refine (h.stored b B ms hB hms).pass (iff_of_false (fun hc => ?_) (by simp [hfree]))
      have := hholds b hc
      omega
    · rw [List.getElem?_append_right (by omega)] at hB
      rw [List.getElem?_append_right (by have := h.length; omega)] at hms
      obtain rfl : ms = [] := (List.mem_replicate.mp (List.mem_of_getElem? hms)).2
      rw [hfresh B (List.mem_of_getElem? hB)]
      refine ⟨fun _ _ => rfl, msg, h.mem_taken hflight₀, ?_, rfl,
        contents_newBatch w'.handler b msg now⟩
      intro m hm
      rw [List.mem_singleton.mp hm]
      exact ⟨hwaits, rfl⟩
  located := hlocated
  account := by
    rw [h.account, Account.kept, Account.kept, hflight, hflight₀]
    simp [tally_replicate_nil]
  unfit := h.unfit
  order := by
    intro b
    have hsame : (g.stored ++ List.replicate fresh.length [])[b]?.getD [] =
        g.stored[b]?.getD [] := by
      rw [List.getElem?_append, List.getElem?_replicate]
      split
      · rfl
      · rename_i hb
        rw [List.getElem?_eq_none (by omega)]
        split <;> rfl
    rw [hflushed, htimer, hsame]
    exact h.order b
  arrived := by
    rw [hflight, ← hflight₀]
    exact h.arrived

/-- The message in flight is put into a batch with its routing key. -/
theorem ledger_fill (h : Ledger cfg g w) {msg : AggregatorMsg} {b : ℕ} {B : Batch} {pkt : Packet}
    {now : ℤ} {handler : Handler} (hwaits : emerges cfg msg = false)
    (hheld : ∀ c, w.handler.holds = some c → c = b) (hflight₀ : inFlight w.handler = [msg])
    (hkey : B.routingKey = msg.routingKey)
    (hB : w.store[b]? = some B) (happ : B.pkt.appendUserPacket msg.userID msg.data = (pkt, true))
    (hleaves : Leaves handler b B) :
    ∃ ms, Ledger cfg { g with
        stored := g.stored.set b (ms ++ [msg])
        placed := g.placed ++ [(some b, msg)] }
      { w with now, handler, store := w.store.set b { B with pkt } } := by
  obtain ⟨hflight, hholds, -⟩ := hleaves.holds
  obtain ⟨hb, -⟩ := List.getElem?_eq_some_iff.mp hB
  obtain ⟨ms, hms⟩ := h.exists_stored hB
  obtain ⟨-, first, hfirst, hmates, hnext, hcontents⟩ := h.stored b B ms hB hms
  refine ⟨ms, h.set hb rfl rfl rfl rfl h.sent h.copied ?_ ?_ ?_ ?_ ?_ ?_⟩
  · refine ⟨?_, first, hfirst, ?_, hnext, ?_⟩
    · intro hnone hfree
      rcases hleaves with ⟨-, deadline, rfl⟩ | ⟨hsome, -⟩
      · exact absurd rfl hfree
      · exact absurd hnone hsome
    · intro m hm
      rw [← List.cons_append, List.mem_append, List.mem_singleton] at hm
      rcases hm with hm | rfl
      · exact hmates m hm
      · exact ⟨hwaits, hkey.symm⟩
    · rw [List.map_append]
      refine ⟨hcontents.filled.append (data_ne_nil_of_waits hwaits) happ, ?_,
        fun _ => Or.inl (by simp)⟩
      exact (append_accepted happ).1.buffSize.trans hcontents.size
  · exact fun c hc => iff_of_false (fun hnow => hc (hholds c hnow)) fun hold => hc (hheld c hold)
  · intro m c hc
    change handler = _ at hc
    rw [hc] at hflight
    cases hflight
  · have htally := tally_set hms (ms ++ [msg])
    rw [← Multiset.coe_add, ← add_assoc, add_right_comm, add_left_inj] at htally
    simp only [Account.kept, hflight, hflight₀, htally, Multiset.coe_nil, add_zero]
    abel
  · intro c
    have hold := h.order c
    by_cases hc : c = b
    · subst hc
      rw [hms, Option.getD_some] at hold
      rw [placedAt_append_same, hold, List.getElem?_set_self (h.length ▸ hb), Option.getD_some,
        List.append_assoc _ ms]
    · rw [placedAt_append_of_ne _ _ fun heq => hc (Option.some.inj heq).symm, hold,
        List.getElem?_set_ne (Ne.symm hc)]
  · intro hdropped
    have hold := h.arrived hdropped
    rw [hflight₀] at hold
    simp only [hflight, List.map_append, List.map_cons, List.map_nil, List.append_nil, hold]

/-- A message that even a new batch has no room for is dropped. -/
theorem ledger_refuse (h : Ledger cfg g w) {msg : AggregatorMsg} {b : ℕ} {t now : ℤ}
    {handler : Handler} (hhandler : w.handler = .refill msg b)
    (hB : w.store[b]? = some (newBatch cfg msg t))
    (hrefused : ((newBatch cfg msg t).pkt.appendUserPacket msg.userID msg.data).2 = false)
    (hleaves : Leaves handler b (newBatch cfg msg t)) :
    Ledger cfg { g with dropped := g.dropped ++ [msg] } { w with now, handler } := by
  obtain ⟨hflight, -, -⟩ := hleaves.holds
  refine ⟨h.sent, h.copied, h.length, ?_, ?_, ?_, ?_, h.order, by simp⟩
  · intro c C ms hC hms
    refine (h.stored c C ms hC hms).pass ?_
    rcases hleaves with ⟨-, deadline, rfl⟩ | ⟨hsome, -⟩
    · rw [hhandler]
      rfl
    · exact absurd rfl hsome
  · intro m c hc
    change handler = _ at hc
    rw [hc] at hflight
    cases hflight
  · have hflight₀ : inFlight w.handler = [msg] := by rw [hhandler]; rfl
    rw [h.account]
    simp only [Account.kept, hflight, hflight₀, ← Multiset.coe_add, Multiset.coe_nil, add_zero]
    abel
  · intro m hm
    rw [List.mem_append, List.mem_singleton] at hm
    rcases hm with hm | rfl
    · exact h.unfit m hm
    · intro hfits
      obtain ⟨p, happ⟩ := append_new m m.userID hfits.2
      change ((newBatchPacket cfg.bufferSize m).appendUserPacket m.userID m.data).2 = false
        at hrefused
      rw [happ] at hrefused
      cases hrefused

/-- The batch that was pushed notes its place in the heap. -/
theorem ledger_note (h : Ledger cfg g w) {b : ℕ} {B : Batch} {deadline : ℤ}
    (hhandler : w.handler = .finish b deadline) (hB : w.store[b]? = some B) :
    Ledger cfg g { w with
      handler := .idle
      store := w.store.set b { B with heapItem := some deadline } } := by
  obtain ⟨hb, -⟩ := List.getElem?_eq_some_iff.mp hB
  obtain ⟨ms, hms⟩ := h.exists_stored hB
  obtain ⟨-, first, hfirst, hmates, hnext, hcontents⟩ := h.stored b B ms hB hms
  have hloaded := hcontents.loaded (Or.inr (by rw [hhandler]; rfl))
  have hsame : g.stored = g.stored.set b ms := by
    obtain ⟨hlt, rfl⟩ := List.getElem?_eq_some_iff.mp hms
    exact (List.set_getElem_self hlt).symm
  refine h.set hb rfl hsame rfl rfl h.sent h.copied ?_ ?_ (by simp) ?_ (hsame ▸ h.order) ?_
  · exact ⟨by simp, first, hfirst, hmates, hnext, hcontents.filled, hcontents.size,
      fun _ => hloaded⟩
  · intro c hc
    rw [hhandler]
    exact iff_of_false (by simp [Handler.holds]) fun heq => hc (Option.some.inj heq).symm
  · rw [hhandler]
    rfl
  · have hold := h.arrived
    rw [hhandler] at hold
    exact hold

/-- What `handleMsg` does under its locks. -/
theorem ledger_handlerMove {e : Evictor} (h : Ledger cfg g w) (hlinked : Linked ⟨w, e⟩)
    (hkept : Kept cfg w) (hm : HandlerMove cfg w w') :
    ∃ g', Ledger cfg g' w' ∧ g'.taken = g.taken ∧ g'.sent = g.sent ∧ w'.flushed = w.flushed := by
  have hlisted : ∀ key, ∀ b ∈ w.batches.val key, ∃ B, w.store[b]? = some B ∧
      B.routingKey = key := by
    intro key b hb
    obtain ⟨B, hB, hkey, -⟩ := (hlinked.listed key _ (Or.inl rfl)).2 b hb
    exact ⟨B, hB, hkey⟩
  cases hm with
  | @goto now handler msg hfree hholds hflight₀ hflight hentered hcreated =>
    refine ⟨g, h.frame rfl rfl rfl (hholds.trans hfree.symm) (hflight.trans hflight₀.symm) ?_, rfl,
      rfl, rfl⟩
    intro m b hb
    change handler = _ at hb
    subst hb
    obtain rfl : m = msg := List.singleton_inj.mp hflight
    exact hlisted _ b (hentered b rfl)
  | @enter now handler msg fresh hfree hflight₀ hflight hne hfresh hnext =>
    have hwaits := hkept.flight msg (by rw [hflight₀]; exact List.mem_singleton.mpr rfl)
    refine ⟨_, ledger_enter h hwaits hfree hflight₀ hflight hfresh ?_ rfl rfl rfl ?_, rfl, rfl, rfl⟩
    · rcases hnext with rfl | ⟨b, rfl, -⟩
      · exact fun c hc => (Option.some.inj hc).symm
      · exact fun c hc => absurd hc (by simp [Handler.holds])
    · intro m b hb
      change handler = _ at hb
      subst hb
      obtain rfl : m = msg := List.singleton_inj.mp hflight
      rcases hnext with hrefill | ⟨c, hc, hmem⟩
      · cases hrefill
      · cases hc
        rcases List.mem_append.mp hmem with hold | hnew
        · obtain ⟨B, hB, hkey⟩ := hlisted _ b hold
          exact ⟨B, by rw [List.getElem?_append_left (List.getElem?_eq_some_iff.mp hB).1, hB], hkey⟩
        · obtain ⟨i, hi, rfl⟩ := List.mem_range'.mp hnew
          have hlt : i < fresh.length := hi
          refine ⟨fresh[i], ?_, by rw [hfresh _ (List.getElem_mem hlt)]; rfl⟩
          rw [List.getElem?_append_right (by omega), List.getElem?_eq_some_iff]
          exact ⟨by omega, by congr 1; omega⟩
  | @fill now handler msg b B pkt hwhere hB happ hleaves =>
    obtain ⟨hflight₀, -, hheld⟩ := inFlight_of_fills hwhere
    have hkey : B.routingKey = msg.routingKey := by
      rcases hwhere with ⟨hhandler, -⟩ | hhandler
      · obtain ⟨C, hC, hkey⟩ := h.located msg b hhandler
        rw [hB, Option.some.injEq] at hC
        exact hC ▸ hkey
      · obtain ⟨t, ht⟩ := hkept.refilled msg b hhandler
        rw [hB, Option.some.injEq] at ht
        rw [ht]
        rfl
    have hwaits := hkept.flight msg (by rw [hflight₀]; exact List.mem_singleton.mpr rfl)
    obtain ⟨ms, hms⟩ := ledger_fill h hwaits hheld hflight₀ hkey hB happ hleaves
    exact ⟨_, hms, rfl, rfl, rfl⟩
  | @refuse now handler msg b B hhandler hB hrefused hleaves =>
    obtain ⟨t, ht⟩ := hkept.refilled msg b hhandler
    obtain rfl : B = newBatch cfg msg t := Option.some.inj (hB.symm.trans ht)
    exact ⟨_, ledger_refuse h hhandler hB hrefused hleaves, rfl, rfl, rfl⟩
  | push hhandler =>
    exact ⟨g, h.frame rfl rfl rfl (by rw [hhandler]; rfl) (by rw [hhandler]; rfl) (by simp), rfl,
      rfl, rfl⟩
  | note hhandler hB =>
    exact ⟨g, ledger_note h hhandler hB, rfl, rfl, rfl⟩

/-- A queued batch whose lock is free was filled, or never counted anything. -/
theorem Ledger.loaded {e : Evictor} (hlinked : Linked ⟨w, e⟩) {b : ℕ} {B : Batch}
    {first : AggregatorMsg} {subs : List SubPacket} (hB : w.store[b]? = some B)
    (hqueued : b ∈ queued w) (hfree : w.handler.holds ≠ some b)
    (hcontents : Contents cfg w.handler b B first subs) : Loaded B.pkt subs := by
  refine hcontents.loaded (Or.inl fun hnone => ?_)
  have hpos := List.count_pos_iff.mpr hqueued
  cases hlinked.link b B hB with
  | resting _ _ htimes => exact absurd htimes hpos.ne'
  | waiting _ hsome _ => exact hsome hnone
  | filled _ _ _ htimes => exact absurd htimes hpos.ne'
  | pushed _ hfinish =>
    apply hfree
    change w.handler = _ at hfinish
    rw [hfinish]
    rfl

/-- The copy of an expired batch carries what the batch held. -/
theorem carries_copy {b : ℕ} {B : Batch} {first : AggregatorMsg}
    {taken ms : List AggregatorMsg} {q : Packet} {f : Flush} {handler : Handler}
    (hfirst : first ∈ taken) (hmates : Mates cfg B.routingKey (first :: ms))
    (hnext : B.nextHop = first.nextHop) (hcontents : Contents cfg handler b B first (ms.map toSub))
    (hload : Loaded B.pkt (ms.map toSub)) (hq : B.pkt.serializeHead = .ok q)
    (hbuf : f.buf = q.buf.take q.totalBytes) (hhop : f.nextHop = B.nextHop) :
    Carries cfg taken f ms := by
  by_cases hne : ms = []
  · subst hne
    have hzero := hload.resolve_left (by simp)
    refine .hollow hfirst ⟨B.pkt, q, hcontents.filled.sameRoute, hq, hbuf⟩ ?_
    rw [hbuf, (header_serialized hq).payloadLen, hzero]
    decide
  · have hkey := (hmates first List.mem_cons_self).2
    exact .filled hfirst hne (Or.inr (hkey.symm ▸ hmates)) hcontents.filled
      (Or.inl hcontents.size) hq hbuf (hhop.trans hnext)

/-- An expired batch is copied and empty afterwards. -/
theorem ledger_copy {e : Evictor} {now : ℤ} {item : HeapItem} {items : List HeapItem}
    {copies : List Flush} {B : Batch} {q : Packet} (h : Ledger cfg g w) (hlinked : Linked ⟨w, e⟩)
    (htimer : w.timer = .drain now (item :: items) copies)
    (hfree : w.handler.holds ≠ some item.batch) (hB : w.store[item.batch]? = some B)
    (hq : B.pkt.serializeHead = .ok q) :
    ∃ ms, Ledger cfg { g with copied := g.copied ++ [ms], stored := g.stored.set item.batch [] }
      { w with
        store := w.store.set item.batch
          { B with pkt := { q with wp := headerSize }, createTime := now, heapItem := none }
        timer := .drain now items
          (copies ++ [⟨q.buf.take q.totalBytes, B.routingKey, B.nextHop, some item.batch⟩]) } := by
  obtain ⟨hb, -⟩ := List.getElem?_eq_some_iff.mp hB
  obtain ⟨ms, hms⟩ := h.exists_stored hB
  obtain ⟨-, first, hfirst, hmates, hnext, hcontents⟩ := h.stored _ B ms hB hms
  have hqueued : item.batch ∈ queued w := by
    simp [queued, htimer, expired]
  have hload := Ledger.loaded hlinked hB hqueued hfree hcontents
  have hcopied := h.copied
  rw [htimer] at hcopied
  refine ⟨ms, h.set hb rfl rfl rfl rfl h.sent ?_ ?_ (fun _ _ => Iff.rfl) ?_ ?_ ?_ h.arrived⟩
  · exact List.rel_append hcopied (.cons
      (carries_copy hfirst hmates hnext hcontents hload hq rfl rfl) .nil)
  · refine ⟨fun _ _ => rfl, first, hfirst, ?_, hnext, hcontents.filled.sent hq, ?_, ?_⟩
    · exact fun m hm => hmates m (List.mem_cons.mpr (Or.inl (List.mem_singleton.mp hm)))
    · obtain ⟨-, rfl⟩ := serializeHead_eq hq
      exact hcontents.size
    · rintro (hitem | hheld)
      · exact absurd rfl hitem
      · exact absurd hheld hfree
  · intro m c hc
    obtain ⟨C, hC, hkey⟩ := h.located m c hc
    by_cases hsame : c = item.batch
    · subst hsame
      obtain rfl : B = C := Option.some.inj (hB.symm.trans hC)
      exact ⟨_, List.getElem?_set_self hb, hkey⟩
    · exact ⟨C, by rw [List.getElem?_set_ne (Ne.symm hsame), hC], hkey⟩
  · have htally := tally_set hms []
    rw [Multiset.coe_nil, add_zero] at htally
    simp only [Account.kept, tally_append, tally_cons, tally_nil, add_zero, ← htally]
    abel
  · intro c
    have hold := h.order c
    rw [htimer] at hold
    change placedAt g.placed (some c) = sentBy c w.flushed g.sent ++
      sentBy c (copies ++ [_]) (g.copied ++ [ms]) ++ _
    have hlen : copies.length = g.copied.length := hcopied.length_eq
    rw [hold, sentBy_append hlen, sentBy_cons, sentBy_nil]
    by_cases hc : c = item.batch
    · subst hc
      simp [hms, toSend, List.getElem?_set_self (h.length ▸ hb)]
    · simp [toSend, List.getElem?_set_ne (Ne.symm hc), Ne.symm hc]

/-- The first of the copies is sent. -/
theorem ledger_flush {now : ℤ} {f : Flush} {copies : List Flush} (h : Ledger cfg g w)
    (htimer : w.timer = .drain now [] (f :: copies)) :
    ∃ ms rest, Ledger cfg { g with sent := g.sent ++ [ms], copied := rest }
        { flush w f with timer := .drain now [] copies } ∧
      w.flushed <+: (flush w f).flushed := by
  have hcopied := h.copied
  rw [htimer] at hcopied
  obtain ⟨ms, rest, hf, hrest, hlist⟩ := List.forall₂_cons_left_iff.mp hcopied
  rw [hf.flush_eq]
  refine ⟨ms, rest, ⟨?_, hrest, h.length, h.stored, h.located, ?_, h.unfit, ?_, h.arrived⟩,
    List.prefix_append _ _⟩
  · exact List.rel_append h.sent (.cons hf .nil)
  · rw [h.account]
    simp only [Account.kept, hlist, tally_append, tally_cons, tally_nil, add_zero]
    abel
  · intro b
    have hold := h.order b
    rw [htimer, hlist] at hold
    rw [hold, sentBy_append h.sent.length_eq]
    simp [toSend, sentBy_cons, sentBy_nil]

/-- What `checkTimeout` does: it copies expired batches and sends the copies. -/
theorem ledger_timerStep {e : Evictor} {t : ℤ} (h : Ledger cfg g w) (hlinked : Linked ⟨w, e⟩)
    (hs : timerStep t w = some w') :
    ∃ g', Ledger cfg g' w' ∧ g'.taken = g.taken ∧ g.sent <+: g'.sent ∧
      w.flushed <+: w'.flushed := by
  cases timerMove_of_step hs with
  | wait _ hsend =>
    exact ⟨g, h.frame rfl hsend rfl rfl rfl h.located, rfl, List.prefix_rfl, List.prefix_rfl⟩
  | pop htimer _ =>
    exact ⟨g, h.frame rfl (by rw [htimer]; rfl) rfl rfl rfl h.located, rfl, List.prefix_rfl,
      List.prefix_rfl⟩
  | copy htimer hfree hB hq =>
    obtain ⟨ms, hms⟩ := ledger_copy h hlinked htimer hfree hB hq
    exact ⟨_, hms, rfl, List.prefix_rfl, List.prefix_rfl⟩
  | send htimer =>
    obtain ⟨ms, rest, hms, hflushed⟩ := ledger_flush h htimer
    exact ⟨_, hms, rfl, List.prefix_append _ _, hflushed⟩

/-- The packet of a message that is sent alone. -/
theorem emergePacket_spec {msg : AggregatorMsg} {buf : List UInt8}
    (h : emergePacket cfg msg = .ok (some buf)) :
    ∃ buffSize p q, (newBatchPacket buffSize msg).appendUserPacket msg.userID msg.data = (p, true) ∧
      p.serializeHead = .ok q ∧ buf = q.buf.take q.totalBytes ∧
      buffSize = (if sentAlone cfg msg then headerSize + 4 + 2 + msg.data.length
        else cfg.bufferSize) := by
  unfold emergePacket at h
  generalize hbuff : (if sentAlone cfg msg then headerSize + 4 + 2 + msg.data.length
    else cfg.bufferSize) = buffSize at h
  simp only at h
  split at h
  · simp at h
  · rename_i p happ
    cases hq : p.serializeHead with
    | error e => simp [hq, bind, Except.bind] at h
    | ok q =>
      simp only [hq, bind, Except.bind, pure, Except.pure, Except.ok.injEq, Option.some.injEq] at h
      exact ⟨buffSize, p, q, happ, hq, h.symm, rfl⟩

/-- A message that is sent alone is in its packet, unless it is empty. -/
theorem carries_alone {msg : AggregatorMsg} (halone : emerges cfg msg = true)
    {taken : List AggregatorMsg} (hmem : msg ∈ taken) {f : Flush}
    (hbuf : emergePacket cfg msg = .ok (some f.buf)) (hhop : f.nextHop = msg.nextHop) :
    Carries cfg taken f (if msg.data = [] then [] else [msg]) := by
  obtain ⟨buffSize, p, q, happ, hq, hbytes, hroom⟩ := emergePacket_spec hbuf
  obtain ⟨hroute, hwp, -⟩ := append_accepted happ
  split
  · rename_i hdata
    have hmade : SameRoute p (newBatchPacket p.buffSize msg) := by
      rw [hroute.buffSize, newBatchPacket_buffSize]
      exact hroute
    refine .hollow hmem ⟨p, q, hmade, hq, hbytes⟩ ?_
    rw [hbytes, (header_serialized hq).payloadLen, append_payloadLen happ, hwp,
      newBatchPacket_wp, hdata]
    decide
  · rename_i hdata
    have hnew : Filled msg [] (newBatchPacket buffSize msg) := .new buffSize
    refine .filled hmem (by simp) (Or.inl rfl) (hnew.append hdata happ) ?_ hq hbytes hhop
    rw [Roomy, hroute.buffSize, newBatchPacket_buffSize, hroom]
    split
    · exact Or.inr ⟨halone, rfl⟩
    · exact Or.inl rfl

/-- Another message is taken from the channel. -/
theorem Ledger.take (h : Ledger cfg g w) (msg : AggregatorMsg) (fs : List Flush)
    (sent : List (List AggregatorMsg)) (alone dropped : List AggregatorMsg)
    (hidle : w.handler = .idle) (hstore : w'.store = w.store) (htimer : w'.timer = w.timer)
    (hfree : w'.handler.holds = none) (hlocated : ∀ m b, w'.handler ≠ .append m b)
    (hflushed : w'.flushed = w.flushed ++ fs) (hsource : ∀ f ∈ fs, f.source = none)
    (hcarries : List.Forall₂ (Carries cfg (g.taken ++ [msg])) fs sent)
    (hunfit : ∀ m ∈ dropped, ¬ Fits cfg m)
    (haccount : ([msg] : Multiset AggregatorMsg) = tally sent + (inFlight w'.handler : Multiset _) +
      (dropped : Multiset _))
    (harrived : dropped = [] → alone ++ inFlight w'.handler = [msg]) :
    Ledger cfg { g with
      taken := g.taken ++ [msg]
      placed := g.placed ++ alone.map fun m => (none, m)
      sent := g.sent ++ sent
      dropped := g.dropped ++ dropped } w' := by
  have hsub : g.taken ⊆ g.taken ++ [msg] := List.subset_append_left _ _
  refine ⟨?_, ?_, hstore ▸ h.length, ?_, fun m b hb => absurd hb (hlocated m b), ?_, ?_, ?_, ?_⟩
  · rw [hflushed]
    exact List.rel_append (h.sent.imp fun _ _ => Carries.mono hsub) hcarries
  · rw [htimer]
    exact h.copied.imp fun _ _ => Carries.mono hsub
  · intro b B ms hB hms
    obtain ⟨hrest, first, hfirst, hmates, hnext, hcontents⟩ :=
      (h.stored b B ms (hstore ▸ hB) hms).pass (by rw [hfree, hidle]; rfl)
    exact ⟨hrest, first, hsub hfirst, hmates, hnext, hcontents⟩
  · have hold := h.account
    simp only [Account.kept, hidle, inFlight, Multiset.coe_nil, add_zero] at hold
    simp only [Account.kept, ← Multiset.coe_add, tally_append, hold, haccount]
    abel
  · intro m hm
    exact (List.mem_append.mp hm).elim (h.unfit m) (hunfit m)
  · intro b
    have hsame : placedAt (g.placed ++ alone.map fun m => (none, m)) (some b) =
        placedAt g.placed (some b) := by simp [placedAt]
    rw [hsame, hflushed, htimer, sentBy_append h.sent.length_eq, sentBy_alone hsource,
      List.append_nil]
    exact h.order b
  · intro hnone
    obtain ⟨hdropped, hnew⟩ := List.append_eq_nil_iff.mp hnone
    have hold := h.arrived hdropped
    rw [hidle, inFlight, List.append_nil] at hold
    have hsnd : (alone.map fun m => ((none : Option ℕ), m)).map Prod.snd = alone := by simp
    rw [List.map_append, hold, hsnd, List.append_assoc, harrived hnew]

/-- What `handleMsg` does before it takes a lock. -/
theorem ledger_receiveStep {msg : AggregatorMsg} (h : Ledger cfg g w)
    (hs : receiveStep cfg msg w = some w') :
    ∃ g', Ledger cfg g' w' ∧ g'.taken = g.taken ++ [msg] ∧ g.sent <+: g'.sent ∧
      w.flushed <+: w'.flushed := by
  unfold receiveStep at hs
  split at hs
  swap
  · cases hs
  rename_i hidle
  split at hs
  · rename_i halone
    split at hs
    · cases hs
    · rename_i hnone
      cases hs
      refine ⟨_, h.take msg [] [] [] [msg] hidle rfl rfl (by rw [hidle]; rfl) (by simp [hidle])
        (by simp) (by simp) .nil ?_ (by simp [hidle, inFlight]) (by simp), rfl, by simp,
        List.prefix_rfl⟩
      intro m hm
      rw [List.mem_singleton.mp hm]
      exact fun hfits => emergePacket_of_fits hfits hnone
    · rename_i buf hbuf
      cases hs
      have hf := carries_alone (f := ⟨buf, msg.routingKey, msg.nextHop, none⟩) halone
        (List.mem_append_right g.taken (List.mem_singleton.mpr rfl)) hbuf rfl
      rw [hf.flush_eq]
      refine ⟨_, h.take msg _ _ [msg] (if msg.data = [] then [msg] else []) hidle rfl rfl
        (by rw [hidle]; rfl) (by simp [hidle]) rfl (by simp) (.cons hf .nil) ?_ ?_
        (by simp [hidle, inFlight]), rfl, List.prefix_append _ _, List.prefix_append _ _⟩
      · intro m hm hfits
        split at hm
        · rename_i hdata
          rw [List.mem_singleton.mp hm] at hfits
          exact hfits.1 hdata
        · cases hm
      · simp only [hidle, inFlight]
        split
        all_goals simp
  · cases hs
    exact ⟨_, h.take msg [] [] [] [] hidle rfl rfl rfl (by simp) (by simp) (by simp) .nil (by simp)
      (by simp [inFlight]) (by simp [inFlight]), rfl, by simp, List.prefix_rfl⟩

end Steps

/-- The messages that a step takes from the input channel. -/
def takes : Eviction.Action → List AggregatorMsg
  | .work (.receive msg) => [msg]
  | _ => []

section Runs
variable {cfg : Config} {g : Account} {s s' : Evicting}

/-- Every step of a worker keeps an account of its messages: what was in a packet that
has been sent stays there. -/
theorem ledger_step {a : Eviction.Action}
    (h : Ledger cfg g s.worker) (hlinked : Linked s) (hkept : Kept cfg s.worker)
    (hs : Eviction.step cfg s a = some s') :
    ∃ g', Ledger cfg g' s'.worker ∧ g'.taken = g.taken ++ takes a ∧ g.sent <+: g'.sent ∧
      s.worker.flushed <+: s'.worker.flushed := by
  cases a with
  | work a =>
    obtain ⟨w', hw', rfl⟩ := Option.map_eq_some_iff.mp hs
    cases a with
    | receive msg =>
      exact ledger_receiveStep h hw'
    | handle t =>
      simp only [Aggregator.step] at hw'
      split at hw'
      · cases hw'
      obtain ⟨g', hg', htaken, hsent, hflushed⟩ :=
        ledger_handlerMove h hlinked hkept (handlerMove_of_step hkept.keyed hw')
      refine ⟨g', hg', by rw [htaken]; exact (List.append_nil _).symm, ?_, ?_⟩
      · rw [hsent]
      · rw [hflushed]
    | timeout t =>
      simp only [Aggregator.step] at hw'
      split at hw'
      · cases hw'
      obtain ⟨g', hg', htaken, hsent, hflushed⟩ := ledger_timerStep h hlinked hw'
      exact ⟨g', hg', by rw [htaken]; exact (List.append_nil _).symm, hsent, hflushed⟩
  | evict t i =>
    -- An eviction changes the heap and the map only.
    simp only [Eviction.step] at hs
    split at hs
    · cases hs
    refine ⟨g, ?_, (List.append_nil _).symm, List.prefix_rfl, ?_⟩
    all_goals rcases evictStep_worker hs with ⟨now, hworker⟩ | ⟨key, v, heap, -, hworker⟩
    all_goals rw [hworker]
    all_goals exact h.frame rfl rfl rfl rfl rfl h.located

/-- In every run of its goroutines a worker keeps an account of the messages it took. -/
theorem ledger_run {actions : List Eviction.Action}
    (hrun : run (Eviction.step cfg) Evicting.start actions = some s) :
    ∃ g, Ledger cfg g s.worker ∧ g.taken = actions.flatMap takes := by
  refine StepRuns.run_induction
    (motive := fun actions s => ∃ g, Ledger cfg g s.worker ∧ g.taken = actions.flatMap takes)
    ⟨_, ledger_start cfg, rfl⟩ ?_ hrun
  intro before s a s' hbefore h hs
  obtain ⟨g, hledger, htaken⟩ := h
  obtain ⟨g', hledger', htaken', -⟩ :=
    ledger_step hledger (linked_run hbefore) (kept_run hbefore) hs
  exact ⟨g', hledger', by simp [htaken', htaken]⟩

end Runs

end Arcturus.PacketCargo
