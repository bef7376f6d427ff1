import Arcturus.HandlerMoves

/-!
Which messages a call of `handleMsg` settles. What can be recovered from a worker is what the
parser finds in the buffers that were sent and in the batches that wait to be sent; a call
settles a message if it adds the message to that once and changes nothing else, or ends with
an error. The call may be interleaved with `checkTimeout` in any way.
-/

namespace Arcturus.SettledMessages

open TunnelPacket TunnelHandler PacketCodec Routes BatchPacket GoMaps IndexedHeap Aggregator
open AggregatorParts Eviction EvictionInvariant HandlerMoves
open StepRuns (run AllSteps)

/-- What the parser finds in the bytes of a batch, once its header is written. -/
def sendable (B : Batch) : List SubPacket :=
  match B.pkt.serializeHead with
  | .ok q => decode (q.buf.take q.totalBytes)
  | .error _ => []

def content (w : Worker) (b : ℕ) : List SubPacket :=
  match w.store[b]? with
  | some B => sendable B
  | none => []

/-- The batch whose heap item is about to be pushed. -/
def pushing : Handler → List ℕ
  | .push b _ => [b]
  | _ => []

/-- The batches that are on their way to be sent. -/
def leaving (w : Worker) : List ℕ := queued w ++ pushing w.handler

/-- The sub-packets in the buffers that were sent or copied, and in the batches that are on
their way. -/
def recovered (w : Worker) : List SubPacket :=
  ((outgoing w).flatMap fun f => decode f.buf) ++ (leaving w).flatMap (content w)

/-- A worker during a call, with the eviction at rest: the batch that the handler is about
to lock is still entered, and new batches are only made for a key that has none. -/
structure InCall (cfg : Config) (e : Evictor) (w : Worker) : Prop where
  linked : Linked ⟨w, e⟩
  kept : Kept cfg w
  listed : ∀ msg b, w.handler = .append msg b → b ∈ w.batches.val msg.routingKey
  created : ∀ msg, w.handler = .create msg → w.batches.val msg.routingKey = []

/-- The handler has locked a batch that has room, and is about to put the message into it. -/
def Takes (w : Worker) (msg : AggregatorMsg) (B : Batch) : Prop :=
  ∃ b, w.store[b]? = some B ∧
    (w.handler = .append msg b ∧ ¬ (B.heapItem = none ∧ B.pkt.wp > headerSize) ∨
      w.handler = .refill msg b) ∧ (B.pkt.appendUserPacket msg.userID msg.data).2 = true

/-- A step that puts a message into a batch does so under this condition on the two. -/
def Puts (P : AggregatorMsg → Batch → Prop) (w : Worker) : Aggregator.Action → Prop
  | .handle _ => ∀ msg B, Takes w msg B → P msg B
  | _ => True

/-- The parser finds in the batch what it found there before, and the message. A batch that
is not on its way counts for nothing before. -/
def Shows : Worker → Aggregator.Action → Prop :=
  Puts fun msg B =>
    (sendable { B with pkt := (B.pkt.appendUserPacket msg.userID msg.data).1 }).Perm
      ((if B.heapItem = none then [] else sendable B) ++ [toSub msg])

/-- The payload length counts what is in the batch. -/
def Uncrowded : Worker → Aggregator.Action → Prop :=
  Puts fun _ B => B.pkt.wp - headerSize ≤ 65535

/-- The payload length counts the message too. -/
def Counts : Worker → Aggregator.Action → Prop :=
  Puts fun msg B => B.pkt.wp - headerSize + (6 + msg.data.length) ≤ 65535

/-- Part of a call: the message is still on its way, or it has been put into a batch, where
it is found if there was room and the batch shows it. -/
inductive Advances (cfg : Config) (shows : Prop) (w w' : Worker) : Prop
  | keeps : inFlight w'.handler = inFlight w.handler → (recovered w').Perm (recovered w) →
      shows → Advances cfg shows w w'
  | settles (msg : AggregatorMsg) : inFlight w.handler = [msg] → inFlight w'.handler = [] →
      ((recovered w').Perm (toSub msg :: recovered w) ↔
        msg.data.length + 30 ≤ cfg.bufferSize ∧ shows) → Advances cfg shows w w'

section Parts
variable {cfg : Config} {e : Evictor} {w w' w'' : Worker} {shows shows' : Prop}

theorem Advances.trans (h : Advances cfg shows w w') (h' : Advances cfg shows' w' w'') :
    Advances cfg (shows ∧ shows') w w'' := by
  cases h with
  | keeps hflight hperm hshows =>
    cases h' with
    | keeps hflight' hperm' hshows' =>
      exact .keeps (hflight'.trans hflight) (hperm'.trans hperm) ⟨hshows, hshows'⟩
    | settles msg hbefore hafter hiff =>
      refine .settles msg (hflight ▸ hbefore) hafter ?_
      rw [and_iff_right hshows, ← hiff]
      exact (hperm.cons (toSub msg)).congr_right _ |>.symm
  | settles msg hbefore hafter hiff =>
    cases h' with
    | keeps hflight' hperm' hshows' =>
      refine .settles msg hbefore (hflight'.trans hafter) ?_
      rw [and_iff_left hshows', ← hiff]
      exact hperm'.congr_left _
    | settles msg' hbefore' =>
      rw [hafter] at hbefore'
      cases hbefore'

section Packets
variable {h : Handler} {b : ℕ} {B : Batch} {msg : AggregatorMsg} {subs : List SubPacket}

theorem payload_eq (hc : Contents cfg h b B msg subs) (hhead : headerSize ≤ cfg.bufferSize) :
    B.pkt.wp - headerSize = (encode subs).length := by
  rw [(hc.filled.holds (hc.size ▸ hhead)).wp, Nat.add_sub_cancel_left]

theorem sendable_eq (hc : Contents cfg h b B msg subs) (hhead : headerSize ≤ cfg.bufferSize)
    (hsmall : (encode subs).length ≤ 65535) (hload : Loaded B.pkt subs) : sendable B = subs := by
  have hok := serializeHead_ok (hc.filled.holds (hc.size ▸ hhead))
  unfold sendable
  rw [hok]
  exact hc.filled.decode_of_le hsmall hload hok

/-- What a batch holds is found in it exactly if the payload length counts it. -/
theorem sendable_perm_iff (hc : Contents cfg h b B msg subs) (hhead : headerSize ≤ cfg.bufferSize)
    (hne : subs ≠ []) : (sendable B).Perm subs ↔ (encode subs).length ≤ 65535 := by
  have hok := serializeHead_ok (hc.filled.holds (hc.size ▸ hhead))
  refine ⟨fun hperm => ?_, fun hsmall =>
    List.Perm.of_eq (sendable_eq hc hhead hsmall (Or.inl hne))⟩
  unfold sendable at hperm
  rw [hok] at hperm
  exact hc.filled.encode_le_of_perm hne hok hperm

end Packets

theorem mem_pushing {h : Handler} {b : ℕ} : b ∈ pushing h ↔ ∃ deadline, h = .push b deadline := by
  cases h <;> simp [pushing, eq_comm]

theorem pushing_of_armed {h : Handler} (harmed : armed h = none) : pushing h = [] := by
  cases h <;> first | rfl | cases harmed

theorem pushing_of_holds {h : Handler} (hholds : h.holds = none) : pushing h = [] := by
  cases h <;> first | rfl | cases hholds

theorem lt_of_leaving (h : Linked ⟨w, e⟩) {b : ℕ} (hb : b ∈ leaving w) : b < w.store.length := by
  rcases List.mem_append.mp hb with hqueued | hpushing
  · exact h.queued_lt b hqueued
  · obtain ⟨deadline, hpush⟩ := mem_pushing.mp hpushing
    exact h.armed_lt b (by rw [hpush]; rfl)

/-- No batch is on its way twice. -/
theorem nodup_leaving (h : Linked ⟨w, e⟩) : (leaving w).Nodup := by
  have hlink (b : ℕ) (hb : b ∈ leaving w) : ∃ B, Link w.handler b ((queued w).count b) B :=
    ⟨_, h.link b _ (List.getElem?_eq_getElem (lt_of_leaving h hb))⟩
  refine List.nodup_append.mpr ⟨?_, ?_, ?_⟩
  · rw [List.nodup_iff_count_le_one]
    intro b
    by_cases hb : b ∈ queued w
    · obtain ⟨B, hB⟩ := hlink b (List.mem_append_left _ hb)
      exact hB.times_le
    · rw [List.count_eq_zero.mpr hb]
      omega
  · cases w.handler <;> simp [pushing]
  · rintro b hqueued c hpushing rfl
    obtain ⟨deadline, hpush⟩ := mem_pushing.mp hpushing
    have harmed : armed w.handler = some b := by rw [hpush]; rfl
    obtain ⟨B, hB⟩ := hlink b (List.mem_append_left _ hqueued)
    have hpos := List.count_pos_iff.mpr hqueued
    cases hB with
    | resting hno => exact hno harmed
    | waiting hno => exact hno harmed
    | filled _ _ _ htimes => omega
    | pushed _ hfinish =>
      rw [hpush] at hfinish
      cases hfinish

/-- Steps that leave the sent buffers and the packets of the batches on their way. -/
theorem recovered_perm
    (hout : ((outgoing w').flatMap fun f => decode f.buf) =
      (outgoing w).flatMap fun f => decode f.buf)
    (hleaving : (leaving w').Perm (leaving w))
    (hcontent : ∀ b ∈ leaving w, content w' b = content w b) :
    (recovered w').Perm (recovered w) := by
  unfold recovered
  rw [hout]
  refine List.Perm.append_left _ ?_
  refine (hleaving.flatMap_right _).trans ?_
  exact List.Perm.of_eq (List.flatMap_congr hcontent)

theorem content_eq_of_store {b : ℕ} (h : w'.store[b]? = w.store[b]?) :
    content w' b = content w b := by
  unfold content
  rw [h]

theorem content_eq_sendable {b : ℕ} {B : Batch} (h : w.store[b]? = some B) :
    content w b = sendable B := by
  unfold content
  rw [h]

/-- The copy of a batch takes the place of the batch. -/
theorem recovered_copied {b : ℕ} {copy : Flush} (hout : outgoing w' = outgoing w ++ [copy])
    (hleaving : (leaving w).Perm (b :: leaving w')) (hnodup : (leaving w).Nodup)
    (hcopy : decode copy.buf = content w b) (hothers : ∀ c, c ≠ b → content w' c = content w c) :
    (recovered w').Perm (recovered w) := by
  have hgone : b ∉ leaving w' := (List.nodup_cons.mp (hleaving.nodup_iff.mp hnodup)).1
  have hsame : (leaving w').flatMap (content w') = (leaving w').flatMap (content w) :=
    List.flatMap_congr fun c hc => hothers c fun heq => hgone (heq ▸ hc)
  have hperm := hleaving.flatMap_right (content w)
  rw [List.flatMap_cons] at hperm
  unfold recovered
  rw [hout, List.flatMap_append, List.flatMap_singleton, hcopy, hsame, List.append_assoc]
  exact hperm.symm.append_left _

/-- A step of `checkTimeout` keeps what can be recovered. -/
theorem recovered_timerStep {t : ℤ} (h : Linked ⟨w, e⟩) (hs : timerStep t w = some w') :
    (recovered w').Perm (recovered w) := by
  cases timerMove_of_step hs with
  | wait hexpired hsend =>
    refine recovered_perm (by simp [outgoing, hsend]) ?_ fun _ _ => rfl
    simp [leaving, queued, hexpired]
  | @pop now r htimer hr =>
    refine recovered_perm (by simp [outgoing, htimer, toSend]) ?_ fun _ _ => rfl
    refine List.Perm.append_right _ ?_
    simpa [queued, htimer, expired, ← hr] using (popExpired_perm now _ w.heap).map HeapItem.batch
  | @copy now item items copies B q htimer _ hB hq =>
    refine recovered_copied (b := item.batch) (by simp [outgoing, htimer, toSend]; rfl) ?_
      (nodup_leaving h) ?_ ?_
    · simp [leaving, queued, htimer, expired, List.perm_middle]
    · rw [content_eq_sendable hB, sendable, hq]
    · intro c hc
      exact content_eq_of_store (List.getElem?_set_ne (Ne.symm hc))
  | @send now f copies htimer =>
    have hleaving : ∀ flushed, (leaving { w with timer := .drain now [] copies, flushed }).Perm
        (leaving w) := by
      simp [leaving, queued, htimer, expired]
    unfold flush
    split
    · rename_i hempty
      have hnone : decode f.buf = [] := by
        rw [List.length_eq_zero_iff.mp hempty]
        rfl
      exact recovered_perm (by simp [outgoing, htimer, toSend, hnone]) (hleaving _) fun _ _ => rfl
    · exact recovered_perm (by simp [outgoing, htimer, toSend]) (hleaving _) fun _ _ => rfl

theorem timerStep_frame {t : ℤ} (hs : timerStep t w = some w') :
    w'.handler = w.handler ∧ w'.batches = w.batches := by
  cases timerMove_of_step hs with
  | wait | pop | copy => exact ⟨rfl, rfl⟩
  | send =>
    unfold flush
    split <;> exact ⟨rfl, rfl⟩

/-- A message in a packet of its own adds what the parser finds in it. -/
theorem recovered_flush (w : Worker) (f : Flush) :
    (recovered (flush w f)).Perm (decode f.buf ++ recovered w) := by
  unfold flush
  split
  · rename_i hempty
    have hnone : decode f.buf = [] := by
      rw [List.length_eq_zero_iff.mp hempty]
      rfl
    rw [hnone]
    exact List.Perm.refl _
  · change (((w.flushed ++ [f] ++ toSend w.timer).flatMap fun f => decode f.buf) ++
      (leaving w).flatMap (content w)).Perm _
    unfold recovered outgoing
    simp only [List.flatMap_append, List.flatMap_singleton, List.append_assoc]
    exact List.perm_append_comm_assoc _ _ _

end Parts

section Calls
variable {cfg : Config} {e : Evictor} {w w' : Worker}

/-- A batch at rest takes the message as its first. -/
theorem recovered_first {b : ℕ} (hfree : pushing w.handler = []) (hlink : b ∉ queued w)
    (hout : outgoing w' = outgoing w) (hqueued : queued w' = queued w)
    (hpushing : pushing w'.handler = [b]) (hothers : ∀ c, c ≠ b → content w' c = content w c) :
    (recovered w').Perm (content w' b ++ recovered w) := by
  have hsame : (queued w).flatMap (content w') = (queued w).flatMap (content w) :=
    List.flatMap_congr fun c hc => hothers c fun heq => hlink (heq ▸ hc)
  unfold recovered leaving
  rw [hout, hqueued, hpushing, hfree, List.append_nil, List.flatMap_append, hsame,
    List.flatMap_singleton, ← List.append_assoc]
  exact List.perm_append_comm

/-- A batch on its way is changed, and everything else stays. -/
theorem recovered_next {b : ℕ} (hnodup : (leaving w).Nodup) (hb : b ∈ leaving w)
    (hout : outgoing w' = outgoing w) (hleaving : leaving w' = leaving w)
    (hothers : ∀ c, c ≠ b → content w' c = content w c) :
    ∃ rest, (recovered w).Perm (content w b ++ rest) ∧
      (recovered w').Perm (content w' b ++ rest) := by
  obtain ⟨front, back, hsplit⟩ := List.append_of_mem hb
  have hb' : b ∉ front ∧ b ∉ back := by
    rw [hsplit] at hnodup
    have hcons := List.nodup_middle.mp hnodup
    exact ⟨fun h => (List.nodup_cons.mp hcons).1 (List.mem_append_left _ h),
      fun h => (List.nodup_cons.mp hcons).1 (List.mem_append_right _ h)⟩
  have hsame {l : List ℕ} (hl : b ∉ l) : l.flatMap (content w') = l.flatMap (content w) :=
    List.flatMap_congr fun c hc => hothers c fun heq => hl (heq ▸ hc)
  refine ⟨((outgoing w).flatMap fun f => decode f.buf) ++
    (front.flatMap (content w) ++ back.flatMap (content w)), ?_, ?_⟩
  · unfold recovered
    rw [hsplit, List.flatMap_append, List.flatMap_cons]
    exact ((List.perm_append_comm_assoc _ _ _).append_left _).trans
      (List.perm_append_comm_assoc _ _ _)
  · unfold recovered
    rw [hout, hleaving, hsplit, List.flatMap_append, List.flatMap_cons, hsame hb'.1, hsame hb'.2]
    exact ((List.perm_append_comm_assoc _ _ _).append_left _).trans
      (List.perm_append_comm_assoc _ _ _)

/-- A batch that notes no heap item is not on its way. -/
theorem not_queued_of_heapItem (h : Linked ⟨w, e⟩) {b : ℕ} {B : Batch} (hB : w.store[b]? = some B)
    (harmed : armed w.handler = none) (hnone : B.heapItem = none) : b ∉ queued w := by
  rw [← List.count_eq_zero]
  cases h.link b B hB with
  | resting _ _ htimes => exact htimes
  | waiting _ hsome => exact absurd hnone hsome
  | filled _ hpush =>
    change w.handler = _ at hpush
    rw [hpush] at harmed
    cases harmed
  | pushed _ hfinish =>
    change w.handler = _ at hfinish
    rw [hfinish] at harmed
    cases harmed

theorem nil_of_wp {h : Handler} {b : ℕ} {B : Batch} {msg : AggregatorMsg}
    {subs : List SubPacket} (hc : Contents cfg h b B msg subs)
    (hhead : headerSize ≤ cfg.bufferSize) (hwp : B.pkt.wp ≤ headerSize) : subs = [] := by
  have hlen := (hc.filled.holds (hc.size ▸ hhead)).wp
  rw [List.eq_nil_iff_forall_not_mem]
  intro sub hsub
  have := length_data_le hsub
  omega

theorem perm_append_iff {subs r : List SubPacket} {sub : SubPacket} {subs' : List SubPacket} :
    (subs' ++ r).Perm (sub :: (subs ++ r)) ↔ subs'.Perm (subs ++ [sub]) := by
  rw [← List.cons_append, List.perm_append_right_iff]
  exact (List.perm_append_singleton sub subs).symm.congr_right _

/-- The message is put into a batch. -/
theorem advances_fill {now : ℤ} {handler : Handler} {msg : AggregatorMsg} {b : ℕ} {B : Batch}
    {pkt : Packet} (h : InCall cfg e w)
    (hwhere : w.handler = .append msg b ∧ ¬ (B.heapItem = none ∧ B.pkt.wp > headerSize) ∨
      w.handler = .refill msg b)
    (hB : w.store[b]? = some B) (happ : B.pkt.appendUserPacket msg.userID msg.data = (pkt, true))
    (hleaves : Leaves handler b B)
    (hw' : w' = { w with now, handler, store := w.store.set b { B with pkt } }) :
    Advances cfg ((sendable { B with pkt }).Perm
      ((if B.heapItem = none then [] else sendable B) ++ [toSub msg])) w w' := by
  obtain ⟨m, subs, hc⟩ := h.kept.stored b B hB
  obtain ⟨hlt, -⟩ := List.getElem?_eq_some_iff.mp hB
  obtain ⟨hflight, harmed, -⟩ := inFlight_of_fills hwhere
  have hfree := pushing_of_armed harmed
  have hafter : content w' b = sendable { B with pkt } := by
    rw [hw']
    exact content_eq_sendable (List.getElem?_set_self hlt)
  have hothers : ∀ c, c ≠ b → content w' c = content w c := fun c hc =>
    content_eq_of_store (by rw [hw']; exact List.getElem?_set_ne (Ne.symm hc))
  have hout : outgoing w' = outgoing w := by rw [hw']; rfl
  have hqueues : queued w' = queued w := by rw [hw']; rfl
  have hhandler' : w'.handler = handler := by rw [hw']
  have hroom : msg.data.length + 30 ≤ cfg.bufferSize := by
    obtain ⟨-, hwp, hroom⟩ := append_accepted happ
    have hlow := hc.filled.low
    have hsize := hc.size
    simp only [headerSize] at hlow
    omega
  refine .settles msg hflight (hhandler' ▸ hleaves.holds.1) ?_
  rw [and_iff_right hroom, ← hafter]
  rcases hleaves with ⟨hnone, deadline, rfl⟩ | ⟨hsome, rfl⟩
  · have hrests := not_queued_of_heapItem h.linked hB harmed hnone
    have hpushing : pushing w'.handler = [b] := by rw [hhandler']; rfl
    rw [(recovered_first hfree hrests hout hqueues hpushing hothers).congr_left, if_pos hnone]
    exact @perm_append_iff [] _ _ _
  · have hqueued : b ∈ queued w := by
      rcases hwhere with ⟨hhandler, -⟩ | hhandler
      · obtain ⟨B', hB', -, hqueued⟩ :=
          (h.linked.listed msg.routingKey _ (Or.inl rfl)).2 b (h.listed msg b hhandler)
        cases Option.some.inj (hB.symm.trans hB')
        exact hqueued hsome
      · obtain ⟨t, ht⟩ := h.kept.refilled msg b hhandler
        cases Option.some.inj (hB.symm.trans ht)
        exact absurd rfl hsome
    have hleaving : leaving w' = leaving w := by
      unfold leaving
      rw [hfree, hhandler', hqueues]
      rfl
    obtain ⟨rest, hold, hnew⟩ := recovered_next (nodup_leaving h.linked)
      (List.mem_append_left _ hqueued) hout hleaving hothers
    rw [content_eq_sendable hB] at hold
    rw [hnew.congr_left, (hold.cons (toSub msg)).congr_right, if_neg hsome]
    exact perm_append_iff

/-- The overflow batch refuses only a message that no packet can take. -/
theorem advances_refuse (hhead : headerSize ≤ cfg.bufferSize) (h : InCall cfg e w) {now : ℤ}
    {handler : Handler} {msg : AggregatorMsg} {b : ℕ} {B : Batch}
    (hhandler : w.handler = .refill msg b) (hB : w.store[b]? = some B)
    (hrefused : (B.pkt.appendUserPacket msg.userID msg.data).2 = false)
    (hleaves : Leaves handler b B) (shows : Prop) :
    Advances cfg shows w { w with now, handler } := by
  obtain ⟨t, ht⟩ := h.kept.refilled msg b hhandler
  cases Option.some.inj (hB.symm.trans ht)
  have hlong : ¬ msg.data.length + 30 ≤ cfg.bufferSize := by
    intro hfits
    obtain ⟨q, hq⟩ := append_new msg msg.userID hfits
    change ((newBatchPacket cfg.bufferSize msg).appendUserPacket _ _).2 = false at hrefused
    rw [hq] at hrefused
    cases hrefused
  have hempty : content w b = [] := by
    have hc : Contents cfg w.handler b (newBatch cfg msg t) msg [] :=
      contents_newBatch w.handler b msg t
    rw [content_eq_sendable hB]
    exact sendable_eq hc hhead (Nat.zero_le _) (hc.loaded (Or.inr (by rw [hhandler]; rfl)))
  refine .settles msg (by rw [hhandler]; rfl) hleaves.holds.1 ?_
  refine iff_of_false (fun hperm => ?_) fun hboth => hlong hboth.1
  rcases hleaves with ⟨hnone, deadline, rfl⟩ | ⟨hsome, -⟩
  · have hrests := not_queued_of_heapItem h.linked hB (by rw [hhandler]; rfl) hnone
    have hsame : (recovered { w with now, handler := .push b deadline }).Perm
        (content w b ++ recovered w) :=
      recovered_first (by rw [hhandler]; rfl) hrests rfl rfl rfl fun _ _ => rfl
    have hlength := (hsame.symm.trans hperm).length_eq
    simp [hempty] at hlength
  · exact absurd rfl hsome

theorem inFlight_schedule (cfg : Config) (t : ℤ) (s : Worker) (b : ℕ) (B : Batch) :
    inFlight (schedule cfg t s b B).handler = [] := by
  obtain ⟨now, handler, heq, hleaves⟩ := schedule_leaves cfg t s b B
  rw [heq]
  exact hleaves.holds.1

/-- A handler that stays on the way has not found a batch with room. -/
theorem not_takes_of_inFlight {t : ℤ} (hs : handlerStep cfg t w = some w')
    (hflight : inFlight w'.handler ≠ []) (msg : AggregatorMsg) (B : Batch) : ¬ Takes w msg B := by
  rintro ⟨b, hB, ⟨hhandler, hready⟩ | hhandler, happ⟩
  · cases hr : B.pkt.appendUserPacket msg.userID msg.data with
    | mk pkt ok =>
      rw [hr] at happ
      cases happ
      simp only [handlerStep, hhandler, hB, if_neg hready, hr] at hs
      cases hs
      exact hflight (inFlight_schedule ..)
  · simp only [handlerStep, hhandler, hB] at hs
    cases hs
    exact hflight (inFlight_schedule ..)

/-- A batch that takes the message is the only one that does. -/
theorem puts_iff_of_takes {P : AggregatorMsg → Batch → Prop} {t : ℤ} {msg : AggregatorMsg}
    {B : Batch} (h : Takes w msg B) : Puts P w (.handle t) ↔ P msg B := by
  refine ⟨fun hputs => hputs msg B h, fun hP msg' B' h' => ?_⟩
  obtain ⟨b, hB, hwhere, -⟩ := h
  obtain ⟨b', hB', hwhere', -⟩ := h'
  have hsame : msg' = msg ∧ b' = b := by
    rcases hwhere with ⟨hhandler, -⟩ | hhandler <;> rcases hwhere' with ⟨hhandler', -⟩ | hhandler'
    all_goals
      rw [hhandler] at hhandler'
      cases hhandler'
    · exact ⟨rfl, rfl⟩
    · exact ⟨rfl, rfl⟩
  obtain ⟨rfl, rfl⟩ := hsame
  cases Option.some.inj (hB.symm.trans hB')
  exact hP

/-- A batch whose payload length counts what is in it shows the message exactly if the payload
length counts the message too. -/
theorem shows_iff_counts {t : ℤ} (hhead : headerSize ≤ cfg.bufferSize) (h : InCall cfg e w)
    (hsmall : Uncrowded w (.handle t)) : Shows w (.handle t) ↔ Counts w (.handle t) := by
  refine forall₂_congr fun msg B => forall_congr' fun htakes => ?_
  obtain ⟨b, hB, hwhere, hfits⟩ := id htakes
  obtain ⟨m, subs, hc⟩ := h.kept.stored b B hB
  obtain ⟨hflight, -⟩ := inFlight_of_fills hwhere
  have hmsg := data_ne_nil_of_waits (h.kept.flight msg (by simp [hflight]))
  have happ : B.pkt.appendUserPacket msg.userID msg.data =
      ((B.pkt.appendUserPacket msg.userID msg.data).1, true) := Prod.ext rfl hfits
  have hpayload := payload_eq hc hhead
  have hbefore : (if B.heapItem = none then [] else sendable B) = subs := by
    split
    · rename_i hnone
      have hwp : B.pkt.wp ≤ headerSize := by
        rcases hwhere with ⟨-, hready⟩ | hhandler
        · exact not_lt.mp fun hgt => hready ⟨hnone, hgt⟩
        · obtain ⟨t, ht⟩ := h.kept.refilled msg b hhandler
          cases Option.some.inj (hB.symm.trans ht)
          exact (newBatchPacket_wp cfg.bufferSize msg).le
      exact (nil_of_wp hc hhead hwp).symm
    · rename_i hsome
      exact sendable_eq hc hhead (hpayload ▸ hsmall msg B htakes) (hc.loaded (Or.inl hsome))
  have hnew : Contents cfg w.handler b
      { B with pkt := (B.pkt.appendUserPacket msg.userID msg.data).1 } m
      (subs ++ [toSub msg]) := by
    refine ⟨hc.filled.append hmsg happ, ?_, fun _ => Or.inl (by simp)⟩
    exact (append_accepted happ).1.buffSize.trans hc.size
  beta_reduce
  rw [hbefore, sendable_perm_iff hnew hhead (by simp), encode_append, List.length_append,
    ← hpayload]
  simp [toSub]

theorem advances_handle {t : ℤ} (hhead : headerSize ≤ cfg.bufferSize) (h : InCall cfg e w)
    (hs : handlerStep cfg t w = some w') : Advances cfg (Shows w (.handle t)) w w' := by
  have hnone (hflight : inFlight w'.handler ≠ []) : Shows w (.handle t) :=
    fun msg B htakes => absurd htakes (not_takes_of_inFlight hs hflight msg B)
  have hpast (hflight : inFlight w.handler = []) : Shows w (.handle t) := by
    rintro msg B ⟨b, -, ⟨hhandler, -⟩ | hhandler, -⟩
    all_goals
      rw [hhandler] at hflight
      cases hflight
  have hm := handlerMove_of_step h.kept.keyed hs
  cases hm with
  | @goto now handler msg hfree hholds hflight₀ hflight hlisted hcreated =>
    refine .keeps (hflight.trans hflight₀.symm) (recovered_perm rfl ?_ fun _ _ => rfl)
      (hnone (by simp [hflight]))
    unfold leaving
    rw [pushing_of_holds hfree]
    change (queued w ++ pushing handler).Perm _
    rw [pushing_of_holds hholds]
  | @enter now handler msg fresh hfree hflight₀ hflight hne hfresh hnext =>
    have hpushing : pushing handler = [] := by
      rcases hnext with rfl | ⟨b, rfl, -⟩ <;> rfl
    refine .keeps (hflight.trans hflight₀.symm) (recovered_perm rfl ?_ ?_)
      (hnone (by simp [hflight]))
    · unfold leaving
      rw [pushing_of_holds hfree]
      change (queued w ++ pushing handler).Perm _
      rw [hpushing]
    · intro b hb
      exact content_eq_of_store (List.getElem?_append_left (lt_of_leaving h.linked hb))
  | @fill now handler msg b B pkt hwhere hB happ hleaves =>
    have htakes : Takes w msg B := ⟨b, hB, hwhere, by rw [happ]⟩
    rw [Shows, puts_iff_of_takes htakes, happ]
    exact advances_fill h hwhere hB happ hleaves rfl
  | refuse hhandler hB hrefused hleaves =>
    exact advances_refuse hhead h hhandler hB hrefused hleaves _
  | @push b deadline hhandler =>
    refine .keeps (by rw [hhandler]; rfl) (recovered_perm rfl ?_ fun _ _ => rfl)
      (hpast (by rw [hhandler]; rfl))
    have hqueued := ((w.heap.toList_push { batch := b, deadline }).append_right
      (expired w.timer)).map HeapItem.batch
    unfold leaving
    rw [hhandler]
    change ((queued _) ++ []).Perm (queued w ++ [b])
    rw [List.append_nil]
    exact hqueued.trans (List.perm_append_singleton ..).symm
  | @note b deadline B hhandler hB =>
    refine .keeps (by rw [hhandler]; rfl) (recovered_perm rfl ?_ ?_) (hpast (by rw [hhandler]; rfl))
    · unfold leaving
      rw [hhandler]
      exact List.Perm.refl _
    · intro c _
      by_cases hc : c = b
      · subst hc
        obtain ⟨hlt, -⟩ := List.getElem?_eq_some_iff.mp hB
        rw [content_eq_sendable hB, content_eq_sendable (List.getElem?_set_self hlt)]
        rfl
      · exact content_eq_of_store (List.getElem?_set_ne (Ne.symm hc))

theorem listed_of_handlerMove (hm : HandlerMove cfg w w') :
    (∀ msg b, w'.handler = .append msg b → b ∈ w'.batches.val msg.routingKey) ∧
      ∀ msg, w'.handler = .create msg → w'.batches.val msg.routingKey = [] := by
  have hdone {h : Handler} (hflight : inFlight h = []) (msg : AggregatorMsg) :
      (∀ b, h ≠ .append msg b) ∧ h ≠ .create msg := by
    refine ⟨fun b hb => ?_, fun hc => ?_⟩
    · rw [hb] at hflight
      cases hflight
    · rw [hc] at hflight
      cases hflight
  cases hm with
  | @goto now handler msg hfree hholds hflight₀ hflight hlisted hcreated =>
    refine ⟨fun m b hb => ?_, fun m hm => ?_⟩
    · change handler = _ at hb
      subst hb
      cases hflight
      exact hlisted b rfl
    · change handler = _ at hm
      subst hm
      cases hflight
      exact hcreated rfl
  | enter hfree hflight₀ hflight hne hfresh hnext =>
    rcases hnext with rfl | ⟨c, rfl, hmem⟩
    · exact ⟨by simp, by simp⟩
    · refine ⟨fun m b hb => ?_, by simp⟩
      cases hb
      rw [GoMap.set_val_same]
      exact hmem
  | fill hwhere hB happ hleaves =>
    have hdone := hdone hleaves.holds.1
    exact ⟨fun m b hb => absurd hb ((hdone m).1 b), fun m hm => absurd hm (hdone m).2⟩
  | refuse hhandler hB hrefused hleaves =>
    have hdone := hdone hleaves.holds.1
    exact ⟨fun m b hb => absurd hb ((hdone m).1 b), fun m hm => absurd hm (hdone m).2⟩
  | push hhandler => exact ⟨by simp, by simp⟩
  | note hhandler hB => exact ⟨by simp, by simp⟩

/-- The steps of the two goroutines during a call keep what the handler relies on. -/
theorem inCall_handle {t : ℤ} (h : InCall cfg e w) (hs : handlerStep cfg t w = some w') :
    InCall cfg e w' := by
  have hm := handlerMove_of_step h.kept.keyed hs
  obtain ⟨hlisted, hcreated⟩ := listed_of_handlerMove hm
  exact ⟨linked_work h.linked (effect_handlerStep hs), kept_handlerMove h.kept hm, hlisted,
    hcreated⟩

theorem inCall_timeout {t : ℤ} (h : InCall cfg e w) (hs : timerStep t w = some w') :
    InCall cfg e w' := by
  obtain ⟨hhandler, hbatches⟩ := timerStep_frame hs
  refine ⟨linked_work h.linked (effect_timerStep hs), kept_timerStep h.kept hs, ?_, ?_⟩
  · rw [hhandler, hbatches]
    exact h.listed
  · rw [hhandler, hbatches]
    exact h.created

/-- Only `checkTimeout` makes steps while the handler is idle. -/
theorem recovered_idle {actions : List Aggregator.Action} (h : Linked ⟨w, e⟩)
    (hidle : w.handler = .idle) (hmsgs : messages actions = [])
    (hrun : run (Aggregator.step cfg) w actions = some w') :
    (recovered w').Perm (recovered w) := by
  induction actions generalizing w with
  | nil =>
    cases Option.some.inj hrun
    exact List.Perm.refl _
  | cons a actions ih =>
    rw [StepRuns.run_cons, Option.bind_eq_some_iff] at hrun
    obtain ⟨mid, hmid, hrest⟩ := hrun
    cases a with
    | receive msg => cases hmsgs
    | handle t =>
      simp [Aggregator.step, handlerStep, hidle] at hmid
    | timeout t =>
      obtain ⟨-, hstep⟩ := Option.ite_none_left_eq_some.mp hmid
      have hmid := linked_work h (effect_timerStep hstep)
      have hidle' := (timerStep_frame hstep).1.trans hidle
      exact (ih hmid hidle' hmsgs hrest).trans (recovered_timerStep h hstep)

/-- The call goes on after the message was received. -/
theorem advances_run {actions : List Aggregator.Action} (hhead : headerSize ≤ cfg.bufferSize)
    (h : InCall cfg e w) (hmsgs : messages actions = [])
    (hrun : run (Aggregator.step cfg) w actions = some w') :
    Advances cfg (AllSteps (Aggregator.step cfg) Shows w actions) w w' := by
  induction actions generalizing w with
  | nil =>
    cases Option.some.inj hrun
    exact .keeps rfl (List.Perm.refl _) trivial
  | cons a actions ih =>
    rw [StepRuns.run_cons, Option.bind_eq_some_iff] at hrun
    obtain ⟨mid, hmid, hrest⟩ := hrun
    rw [StepRuns.allSteps_cons_some actions hmid]
    cases a with
    | receive msg => cases hmsgs
    | handle t =>
      obtain ⟨-, hstep⟩ := Option.ite_none_left_eq_some.mp hmid
      exact (advances_handle hhead h hstep).trans (ih (inCall_handle h hstep) hmsgs hrest)
    | timeout t =>
      obtain ⟨-, hstep⟩ := Option.ite_none_left_eq_some.mp hmid
      have hkeeps : Advances cfg (Shows w (.timeout t)) w mid :=
        .keeps (by rw [(timerStep_frame hstep).1]) (recovered_timerStep h.linked hstep) trivial
      exact hkeeps.trans (ih (inCall_timeout h hstep) hmsgs hrest)

/-- The same for the steps of a call after the message was received. -/
theorem allSteps_shows_iff {actions : List Aggregator.Action}
    (hhead : headerSize ≤ cfg.bufferSize) (h : InCall cfg e w) (hmsgs : messages actions = [])
    (hsmall : AllSteps (Aggregator.step cfg) Uncrowded w actions) :
    AllSteps (Aggregator.step cfg) Shows w actions ↔
      AllSteps (Aggregator.step cfg) Counts w actions := by
  induction actions generalizing w with
  | nil => exact Iff.rfl
  | cons a actions ih =>
    cases a with
    | receive msg => cases hmsgs
    | handle t =>
      refine and_congr (shows_iff_counts hhead h hsmall.1) (forall₂_congr fun mid hmid => ?_)
      obtain ⟨-, hstep⟩ := Option.ite_none_left_eq_some.mp hmid
      exact ih (inCall_handle h hstep) hmsgs (hsmall.2 mid hmid)
    | timeout t =>
      refine and_congr Iff.rfl (forall₂_congr fun mid hmid => ?_)
      obtain ⟨-, hstep⟩ := Option.ite_none_left_eq_some.mp hmid
      exact ih (inCall_timeout h hstep) hmsgs (hsmall.2 mid hmid)

end Calls

section Progress
variable {cfg : Config} {e : Evictor} {w w' : Worker}

/-- How far the handler is from the end of the call. -/
def rank : Handler → ℕ
  | .lookup _ => 7
  | .create _ => 6
  | .append _ _ => 5
  | .overflow _ => 4
  | .refill _ _ => 3
  | .push _ _ => 2
  | .finish _ _ => 1
  | .idle => 0

theorem rank_schedule (cfg : Config) (t : ℤ) (s : Worker) (b : ℕ) (B : Batch) :
    rank (schedule cfg t s b B).handler ≤ 2 := by
  obtain ⟨now, handler, heq, ⟨-, deadline, rfl⟩ | ⟨-, rfl⟩⟩ := schedule_leaves cfg t s b B
  · rw [heq]
    exact le_rfl
  · rw [heq]
    exact Nat.zero_le _

theorem exists_pickLocked {bList : List ℕ} (hne : bList ≠ []) (hlen : bList.length < 2 ^ 32)
    (userID : UInt32) : ∃ b, pickLocked bList userID = .ok (some b) := by
  have hpos := List.length_pos_of_ne_nil hne
  unfold pickLocked
  split
  · exact ⟨_, congrArg Except.ok (List.getElem?_eq_getElem hpos)⟩
  · rw [Nat.mod_eq_of_lt hlen, if_neg (by omega)]
    exact ⟨_, congrArg Except.ok (List.getElem?_eq_getElem (Nat.mod_lt _ hpos))⟩

/-- The handler does not panic: with fewer than 2^32 batches for a key, it comes nearer to the
end of the call. -/
theorem exists_handlerStep (h : InCall cfg e w) (hbusy : w.handler ≠ .idle)
    (hnum : ∀ msg ∈ inFlight w.handler, numBatches cfg msg.port < 2 ^ 32) (t : ℤ) :
    ∃ w', handlerStep cfg t w = some w' ∧ rank w'.handler < rank w.handler := by
  have hlocked (b : ℕ) (harmed : armed w.handler = some b) : ∃ B, w.store[b]? = some B :=
    ⟨_, List.getElem?_eq_getElem (h.linked.armed_lt b harmed)⟩
  cases hhandler : w.handler with
  | idle => exact absurd hhandler hbusy
  | lookup msg =>
    simp only [handlerStep, hhandler]
    split
    · exact ⟨_, rfl, by simp [rank]⟩
    · exact ⟨_, rfl, by simp [rank]⟩
  | create msg =>
    have hnone := h.created msg hhandler
    have hkey : msg.routingKey ∉ w.batches.keys := fun hkey => h.kept.keyed _ hkey hnone
    have hfew := hnum msg (by simp [hhandler, inFlight])
    have hne : List.range' w.store.length (numBatches cfg msg.port) ≠ [] := by
      simpa using AggregatorParts.numBatches_ne_zero cfg msg.port
    obtain ⟨b, hb⟩ := exists_pickLocked hne (by simpa using hfew) msg.userID
    simp only [handlerStep, hhandler, if_neg hkey, List.length_replicate, GoMap.set_val_same, hb]
    exact ⟨_, rfl, by simp [rank]⟩
  | append msg b =>
    obtain ⟨B, hB, -⟩ :=
      (h.linked.listed msg.routingKey _ (Or.inl rfl)).2 b (h.listed msg b hhandler)
    change w.store[b]? = some B at hB
    simp only [handlerStep, hhandler, hB]
    split
    · exact ⟨_, rfl, by simp [rank]⟩
    split
    · exact ⟨_, rfl, by simp [rank]⟩
    · exact ⟨_, rfl, (rank_schedule ..).trans_lt (by simp [rank])⟩
  | overflow msg =>
    simp only [handlerStep, hhandler]
    exact ⟨_, rfl, by simp [rank]⟩
  | refill msg b =>
    obtain ⟨t₀, hB⟩ := h.kept.refilled msg b hhandler
    simp only [handlerStep, hhandler, hB]
    exact ⟨_, rfl, (rank_schedule ..).trans_lt (by simp [rank])⟩
  | push b deadline =>
    simp only [handlerStep, hhandler]
    exact ⟨_, rfl, by simp [rank]⟩
  | finish b deadline =>
    obtain ⟨B, hB⟩ := hlocked b (by rw [hhandler]; rfl)
    simp only [handlerStep, hhandler, hB]
    exact ⟨_, rfl, by simp [rank]⟩

theorem mem_inFlight_of_handlerMove (hm : HandlerMove cfg w w') {msg : AggregatorMsg}
    (hmsg : msg ∈ inFlight w'.handler) : msg ∈ inFlight w.handler := by
  cases hm with
  | goto _ _ hflight₀ hflight =>
    rw [hflight₀]
    exact hflight ▸ hmsg
  | enter _ hflight₀ hflight =>
    rw [hflight₀]
    exact hflight ▸ hmsg
  | fill _ _ _ hleaves =>
    change msg ∈ inFlight _ at hmsg
    rw [hleaves.holds.1] at hmsg
    cases hmsg
  | refuse _ _ _ hleaves =>
    change msg ∈ inFlight _ at hmsg
    rw [hleaves.holds.1] at hmsg
    cases hmsg
  | push => cases hmsg
  | note => cases hmsg

theorem exists_run_idle (h : InCall cfg e w)
    (hnum : ∀ msg ∈ inFlight w.handler, numBatches cfg msg.port < 2 ^ 32) :
    ∃ actions w', messages actions = [] ∧ run (Aggregator.step cfg) w actions = some w' ∧
      w'.handler = .idle := by
  induction hrank : rank w.handler using Nat.strong_induction_on generalizing w with
  | _ n ih =>
    by_cases hidle : w.handler = .idle
    · exact ⟨[], w, rfl, rfl, hidle⟩
    · obtain ⟨mid, hmid, hlt⟩ := exists_handlerStep h hidle hnum w.now
      have hmove := handlerMove_of_step h.kept.keyed hmid
      obtain ⟨actions, w', hmsgs, hrun, hend⟩ := ih _ (hrank ▸ hlt) (inCall_handle h hmid)
        (fun msg hmsg => hnum msg (mem_inFlight_of_handlerMove hmove hmsg)) rfl
      refine ⟨.handle w.now :: actions, w', hmsgs, ?_, hend⟩
      have hstep : Aggregator.step cfg w (.handle w.now) = some mid := by
        rw [Aggregator.step, if_neg (lt_irrefl _), hmid]
      rw [StepRuns.run_cons, hstep]
      exact hrun

end Progress

/-- A call of `handleMsg`: the handler takes the message, and the two goroutines make these
steps until the handler is idle again. -/
structure Call (cfg : Config) (msg : AggregatorMsg) (w : Worker)
    (actions : List Aggregator.Action) (w' : Worker) : Prop where
  messages : messages actions = []
  run : run (Aggregator.step cfg) w (.receive msg :: actions) = some w'
  returned : w'.handler = .idle

/-- The error that is logged when a message with the flag does not fit into a buffer of the
configured size. -/
def ErrorReturn (cfg : Config) (msg : AggregatorMsg) : Prop :=
  emerges cfg msg = true ∧ emergePacket cfg msg = .ok none

def Settled (cfg : Config) (msg : AggregatorMsg) (w w' : Worker) : Prop :=
  ErrorReturn cfg msg ∨ (recovered w').Perm (toSub msg :: recovered w)

/-- The lengths that are handled: in a packet of its own a message has data, and its
sub-packet fits into the payload length; in a batch it leaves room for the header. -/
def Suits (cfg : Config) (msg : AggregatorMsg) : Prop :=
  if sentAlone cfg msg then 1 ≤ msg.data.length ∧ msg.data.length ≤ 65529
  else if msg.emerge then cfg.bufferSize < msg.data.length + 30 ∨ msg.data.length ≤ 65529
  else msg.data.length + 30 ≤ cfg.bufferSize

instance (cfg : Config) (msg : AggregatorMsg) : Decidable (Suits cfg msg) :=
  inferInstanceAs (Decidable
    (if sentAlone cfg msg then 1 ≤ msg.data.length ∧ msg.data.length ≤ 65529
    else if msg.emerge then cfg.bufferSize < msg.data.length + 30 ∨ msg.data.length ≤ 65529
    else msg.data.length + 30 ≤ cfg.bufferSize))

section Results
variable {cfg : Config} {msg : AggregatorMsg} {w w' : Worker}

/-- A packet of its own is made for every message, unless it is to have the configured size
and that is too small. -/
theorem emergePacket_cases (cfg : Config) (msg : AggregatorMsg) :
    (emergePacket cfg msg = .ok none ∧ sentAlone cfg msg = false ∧
        cfg.bufferSize < msg.data.length + 30) ∨
      ∃ size p q, (sentAlone cfg msg = true ∨ msg.data.length + 30 ≤ cfg.bufferSize) ∧
        (newBatchPacket size msg).appendUserPacket msg.userID msg.data = (p, true) ∧
        p.serializeHead = .ok q ∧ emergePacket cfg msg = .ok (some (q.buf.take q.totalBytes)) := by
  unfold emergePacket
  generalize hsize : (if sentAlone cfg msg then headerSize + 4 + 2 + msg.data.length
    else cfg.bufferSize) = size
  dsimp only
  cases happ : (newBatchPacket size msg).appendUserPacket msg.userID msg.data with
  | mk p fits =>
    cases fits with
    | false =>
      have hlong : size < msg.data.length + 30 := by
        by_contra hroom
        obtain ⟨q, hq⟩ := append_new msg msg.userID (not_lt.mp hroom)
        rw [happ] at hq
        cases hq
      split at hsize
      · simp only [headerSize] at hsize
        omega
      · rename_i halone
        exact Or.inl ⟨rfl, by simpa using halone, by omega⟩
    | true =>
      obtain ⟨-, hwp, hroom⟩ := append_accepted happ
      rw [newBatchPacket_wp] at hwp
      rw [newBatchPacket_buffSize] at hroom
      have hlen := ((sized_newBatchPacket size msg).append happ).length
      have hq : p.serializeHead = .ok { p with buf := Bytes.splice p.buf 0 p.headBytes } :=
        if_neg (by omega)
      refine Or.inr ⟨size, p, _, ?_, happ, hq, ?_⟩
      · split at hsize
        · rename_i halone
          exact Or.inl halone
        · simp only [headerSize] at hwp
          exact Or.inr (by omega)
      · dsimp only
        rw [hq]
        rfl

theorem decode_alone_iff {size : ℕ} {p q : Packet}
    (happ : (newBatchPacket size msg).appendUserPacket msg.userID msg.data = (p, true))
    (hq : p.serializeHead = .ok q) :
    decode (q.buf.take q.totalBytes) = [toSub msg] ↔
      1 ≤ msg.data.length ∧ msg.data.length ≤ 65529 := by
  by_cases hdata : msg.data = []
  · rw [hdata] at happ
    rw [decode_empty happ hq, hdata]
    simp
  · have hfilled : Filled msg [toSub msg] p := (Filled.new size).append hdata happ
    have hpos := List.length_pos_of_ne_nil hdata
    rw [hfilled.decode_eq_iff (by simp) hq, encode_cons, encode_nil, List.append_nil,
      length_encodeSub]
    change 6 + msg.data.length ≤ 65535 ↔ _
    omega

/-- A message that goes alone. -/
theorem settled_alone_iff {e : Evictor} (h : Linked ⟨w, e⟩) (hemerges : emerges cfg msg = true)
    {actions : List Aggregator.Action} (hcall : Call cfg msg w actions w') :
    Settled cfg msg w w' ↔ Suits cfg msg := by
  obtain ⟨hmsgs, hrun, -⟩ := hcall
  rw [StepRuns.run_cons, Option.bind_eq_some_iff] at hrun
  obtain ⟨mid, hmid, hrest⟩ := hrun
  have hflag : sentAlone cfg msg = false → msg.emerge = true := by
    intro halone
    simpa [emerges, halone] using hemerges
  simp only [Aggregator.step, receiveStep] at hmid
  split at hmid
  · rename_i hidle
    rw [if_pos hemerges] at hmid
    rcases emergePacket_cases cfg msg with
      ⟨hnone, halone, hlong⟩ | ⟨size, p, q, hroom, happ, hq, hsome⟩
    · refine iff_of_true (Or.inl ⟨hemerges, hnone⟩) ?_
      unfold Suits
      rw [if_neg (by simp [halone]), if_pos (hflag halone)]
      exact Or.inl hlong
    · rw [hsome] at hmid
      cases Option.some.inj hmid
      have hlinked := linked_work h (effect_flush w ⟨q.buf.take q.totalBytes, msg.routingKey,
        msg.nextHop, none⟩)
      have hidle' : (flush w ⟨q.buf.take q.totalBytes, msg.routingKey, msg.nextHop,
          none⟩).handler = .idle := by
        unfold flush
        split <;> exact hidle
      have hperm := (recovered_idle hlinked hidle' hmsgs hrest).trans (recovered_flush w _)
      have herror : ¬ ErrorReturn cfg msg := by
        rintro ⟨-, hnone⟩
        rw [hsome] at hnone
        cases hnone
      unfold Settled
      rw [or_iff_right herror, hperm.congr_left, ← List.singleton_append,
        List.perm_append_right_iff, List.perm_singleton, decode_alone_iff happ hq]
      unfold Suits
      split
      · rfl
      · rename_i halone
        have halone : sentAlone cfg msg = false := by simpa using halone
        have hlong : 128 ≤ msg.data.length := by
          by_contra hshort
          simp [sentAlone, not_le.mp hshort] at halone
        have hfits := hroom.resolve_left (by simp [halone])
        rw [if_pos (hflag halone)]
        omega
  · cases hmid

/-- The handler has received a message that waits in a batch. -/
theorem inCall_receive {e : Evictor} {mid : Worker} (hlinked : Linked ⟨w, e⟩) (hkept : Kept cfg w)
    (hwaits : emerges cfg msg = false)
    (hmid : Aggregator.step cfg w (.receive msg) = some mid) :
    InCall cfg e mid ∧ inFlight mid.handler = [msg] ∧ recovered mid = recovered w := by
  have hkept' := kept_step hkept hmid
  have hlinked' := linked_work hlinked (effect_step hmid)
  simp only [Aggregator.step, receiveStep] at hmid
  split at hmid
  · rename_i hidle
    rw [if_neg (by simp [hwaits])] at hmid
    cases Option.some.inj hmid
    refine ⟨⟨hlinked', hkept', by simp, by simp⟩, rfl, ?_⟩
    unfold recovered leaving
    rw [hidle]
    rfl
  · cases hmid

/-- A message that waits in a batch. -/
theorem settled_waiting_iff {e : Evictor} (hmin : headerSize + 6 ≤ cfg.bufferSize)
    (hlinked : Linked ⟨w, e⟩) (hkept : Kept cfg w) (hwaits : emerges cfg msg = false)
    {actions : List Aggregator.Action} (hcall : Call cfg msg w actions w') :
    Settled cfg msg w w' ↔
      Suits cfg msg ∧ AllSteps (Aggregator.step cfg) Shows w (.receive msg :: actions) := by
  obtain ⟨hmsgs, hrun, hidle'⟩ := hcall
  rw [StepRuns.run_cons, Option.bind_eq_some_iff] at hrun
  obtain ⟨mid, hmid, hrest⟩ := hrun
  obtain ⟨hcall, hflight, hrecovered⟩ := inCall_receive hlinked hkept hwaits hmid
  rw [StepRuns.allSteps_cons_some actions hmid]
  have herror : ¬ ErrorReturn cfg msg := by
    rintro ⟨hemerges, -⟩
    rw [hwaits] at hemerges
    cases hemerges
  obtain ⟨hemerge, halone⟩ := Bool.or_eq_false_iff.mp hwaits
  unfold Settled Suits
  rw [or_iff_right herror, if_neg (by simp [halone]), if_neg (by simp [hemerge]), ← hrecovered,
    and_iff_right (show Shows w (.receive msg) from trivial)]
  cases advances_run (by omega) hcall hmsgs hrest with
  | keeps hsame _ _ =>
    rw [hidle', hflight] at hsame
    cases hsame
  | settles m hbefore _ hiff =>
    rw [hflight] at hbefore
    cases hbefore
    exact hiff

/-- During a call that puts its message behind payloads which their lengths count. -/
theorem shows_iff_counts_call {e : Evictor} (hmin : headerSize + 6 ≤ cfg.bufferSize)
    (hlinked : Linked ⟨w, e⟩) (hkept : Kept cfg w) (hwaits : emerges cfg msg = false)
    {actions : List Aggregator.Action} (hmsgs : messages actions = [])
    (hsmall : AllSteps (Aggregator.step cfg) Uncrowded w (.receive msg :: actions)) :
    AllSteps (Aggregator.step cfg) Shows w (.receive msg :: actions) ↔
      AllSteps (Aggregator.step cfg) Counts w (.receive msg :: actions) := by
  refine and_congr Iff.rfl (forall₂_congr fun mid hmid => ?_)
  obtain ⟨hcall, -, -⟩ := inCall_receive hlinked hkept hwaits hmid
  exact allSteps_shows_iff (by omega) hcall hmsgs (hsmall.2 mid hmid)

/-- An idle handler takes every message to the end of a call. -/
theorem exists_call {e : Evictor} (hlinked : Linked ⟨w, e⟩) (hkept : Kept cfg w)
    (hidle : w.handler = .idle) (hnum : numBatches cfg msg.port < 2 ^ 32) :
    ∃ actions w', Call cfg msg w actions w' := by
  have hstep : ∃ mid, Aggregator.step cfg w (.receive msg) = some mid ∧
      (mid.handler = .idle ∨ mid.handler = .lookup msg) := by
    simp only [Aggregator.step, receiveStep, hidle]
    split
    · rcases emergePacket_cases cfg msg with ⟨hnone, -⟩ | ⟨size, p, q, -, -, -, hsome⟩
      · rw [hnone]
        exact ⟨_, rfl, Or.inl hidle⟩
      · rw [hsome]
        refine ⟨_, rfl, Or.inl ?_⟩
        unfold flush
        split <;> exact hidle
    · exact ⟨_, rfl, Or.inr rfl⟩
  obtain ⟨mid, hmid, hnext⟩ := hstep
  have hincall : InCall cfg e mid := by
    refine ⟨linked_work hlinked (effect_step hmid), kept_step hkept hmid, ?_, ?_⟩
    all_goals rcases hnext with hnext | hnext <;> simp [hnext]
  obtain ⟨actions, w', hmsgs, hrun, hend⟩ := exists_run_idle hincall (by
    intro m hm
    rcases hnext with hnext | hnext
    · rw [hnext] at hm
      cases hm
    · rw [hnext] at hm
      cases List.mem_singleton.mp hm
      exact hnum)
  refine ⟨actions, w', hmsgs, ?_, hend⟩
  rw [StepRuns.run_cons, hmid]
  exact hrun

theorem uncrowded_of_counts {actions : List Aggregator.Action}
    (h : AllSteps (Aggregator.step cfg) Counts w actions) :
    AllSteps (Aggregator.step cfg) Uncrowded w actions := by
  induction actions generalizing w with
  | nil => trivial
  | cons a actions ih =>
    refine ⟨?_, fun w' hstep => ih (h.2 w' hstep)⟩
    cases a with
    | handle t => exact fun msg B htakes => (Nat.le_add_right ..).trans (h.1 msg B htakes)
    | receive msg => trivial
    | timeout t => trivial

/-- A batch of a small size never outgrows its payload length. -/
theorem counts_of_small (hsize : cfg.bufferSize ≤ headerSize + 65535) (hkept : Kept cfg w)
    (actions : List Aggregator.Action) : AllSteps (Aggregator.step cfg) Counts w actions := by
  induction actions generalizing w with
  | nil => trivial
  | cons a actions ih =>
    refine ⟨?_, fun w' hstep => ih (kept_step hkept hstep)⟩
    cases a with
    | receive msg => trivial
    | timeout t => trivial
    | handle t =>
      rintro msg B ⟨b, hB, -, happ⟩
      obtain ⟨m, subs, hc⟩ := hkept.stored b B hB
      obtain ⟨-, hwp, hroom⟩ := append_accepted (Prod.ext rfl happ)
      rw [hc.size] at hroom
      have hlow := hc.filled.low
      simp only [headerSize] at hsize hlow ⊢
      omega

end Results

/-- In every state that a worker with its eviction can reach, every call of `handleMsg`
settles its message exactly if the length of the message suits and, for a message that waits,
the batch that takes it shows it. As long as the payload of the batch has not outgrown its
length, this is to say that the payload length counts the message, and with small buffers it
always does. A call comes to its end with less than 2^32 batches for the port. -/
theorem settled_iff {cfg : Config} {actions : List Eviction.Action} {s : Evicting}
    (hmin : headerSize + 6 ≤ cfg.bufferSize)
    (hreach : run (Eviction.step cfg) Evicting.start actions = some s) (msg : AggregatorMsg) :
    (∀ steps w', Call cfg msg s.worker steps w' →
      (Settled cfg msg s.worker w' ↔ Suits cfg msg ∧ (emerges cfg msg = false →
        AllSteps (Aggregator.step cfg) Shows s.worker (.receive msg :: steps))) ∧
      (emerges cfg msg = false →
        AllSteps (Aggregator.step cfg) Uncrowded s.worker (.receive msg :: steps) →
        (AllSteps (Aggregator.step cfg) Shows s.worker (.receive msg :: steps) ↔
          AllSteps (Aggregator.step cfg) Counts s.worker (.receive msg :: steps))) ∧
      (cfg.bufferSize ≤ headerSize + 65535 →
        AllSteps (Aggregator.step cfg) Counts s.worker (.receive msg :: steps))) ∧
      (s.worker.handler = .idle → numBatches cfg msg.port < 2 ^ 32 →
        ∃ steps w', Call cfg msg s.worker steps w') := by
  have hlinked : Linked ⟨s.worker, s.evictor⟩ := EvictionRuns.linked_run hreach
  have hkept := kept_run hreach
  refine ⟨fun steps w' hcall => ⟨?_, fun hwaits => ?_, fun hsize => ?_⟩,
    exists_call hlinked hkept⟩
  · cases hemerges : emerges cfg msg with
    | true => simpa using settled_alone_iff hlinked hemerges hcall
    | false => simpa using settled_waiting_iff hmin hlinked hkept hemerges hcall
  · exact shows_iff_counts_call hmin hlinked hkept hwaits hcall.messages
  · exact counts_of_small hsize hkept _

section Samples

/-- Buffers of 200 bytes with this timeout. -/
def tinyBuffers (batchTimeoutMs : ℤ) : Config := ⟨200, batchTimeoutMs, fun _ => none⟩

/-- A message without the flag. -/
def patient (length : ℕ) : AggregatorMsg :=
  ⟨false, "10.0.0.1", "tcp", 8081, ["10.0.0.1"], some 167772161, 7, List.replicate length 10⟩

/-- The steps that put a message into a new batch. -/
def soloSteps : List Aggregator.Action := List.replicate 5 (.handle 0)

/-- A message of two hundred bytes gets a batch of seventy thousand. -/
def largeBuffers : Config := ⟨70000, 50, fun _ => none⟩

set_option maxRecDepth 4000 in
theorem settled_patient : ∃ w', Call largeBuffers (patient 200) Worker.start soloSteps w' ∧
    Settled largeBuffers (patient 200) Worker.start w' := by
  have hcounts : AllSteps (Aggregator.step largeBuffers) Counts Worker.start
      (.receive (patient 200) :: soloSteps) := by
    refine .cons trivial rfl (.cons ?_ rfl (.cons ?_ rfl (.cons ?_ rfl (.cons ?_ rfl
      (.cons ?_ rfl trivial)))))
    all_goals
      rintro msg B ⟨b, hB, ⟨hhandler, -⟩ | hhandler, -⟩
      all_goals cases hhandler
    cases hB
    decide
  obtain ⟨w', hcall⟩ : ∃ w', Call largeBuffers (patient 200) Worker.start soloSteps w' :=
    ⟨_, rfl, rfl, rfl⟩
  obtain ⟨hiff, hshows, -⟩ := (@settled_iff largeBuffers [] Evicting.start (by decide)
    (StepRuns.run_nil _) (patient 200)).1 soloSteps w' hcall
  refine ⟨w', hcall, hiff.mpr ⟨by decide +kernel, fun hwaits => ?_⟩⟩
  exact (hshows hwaits (uncrowded_of_counts hcounts)).mpr hcounts

/-- An empty message and one of 65530 bytes are sent in packets from which they cannot be
recovered, and a message that no batch has room for is dropped, all without an error. -/
theorem lengths_not_settled :
    (∃ steps w', Call (tinyBuffers 50) (patient 0) Worker.start steps w' ∧
      ¬ Settled (tinyBuffers 50) (patient 0) Worker.start w') ∧
    (∃ steps w', Call (tinyBuffers 20) (patient 65530) Worker.start steps w' ∧
      ¬ Settled (tinyBuffers 20) (patient 65530) Worker.start w') ∧
    ∃ steps w', Call (tinyBuffers 50) (patient 180) Worker.start steps w' ∧
      ¬ Settled (tinyBuffers 50) (patient 180) Worker.start w' := by
  have hlength (n : ℕ) : (patient n).data.length = n := List.length_replicate
  have hcalls (t : ℤ) (n : ℕ) :
      ∃ steps w', Call (tinyBuffers t) (patient n) Worker.start steps w' :=
    exists_call linked_start (kept_start _) rfl (by change 1 < 2 ^ 32; decide)
  have htwenty : (tinyBuffers 20).batchTimeout ≤ 20000000 := by
    decide +kernel
  obtain ⟨steps₁, w₁, hcall₁⟩ := hcalls 50 0
  obtain ⟨steps₂, w₂, hcall₂⟩ := hcalls 20 65530
  obtain ⟨steps₃, w₃, hcall₃⟩ := hcalls 50 180
  refine ⟨⟨steps₁, w₁, hcall₁, ?_⟩, ⟨steps₂, w₂, hcall₂, ?_⟩, steps₃, w₃, hcall₃, ?_⟩
  · rw [settled_alone_iff linked_start (by decide) hcall₁]
    decide
  · rw [settled_alone_iff linked_start (by simp [emerges, sentAlone, htwenty]) hcall₂]
    simp [Suits, sentAlone, htwenty, hlength]
  · rw [settled_waiting_iff (by decide) linked_start (kept_start _) (by decide +kernel) hcall₃]
    refine not_and_of_not_left _ ?_
    decide +kernel

end Samples

end Arcturus.SettledMessages
