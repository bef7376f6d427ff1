import Arcturus.PacketCargo

/-!
What a worker does over whole runs: no user data is lost or sent twice, and, as long
as messages with the same routing key go to the same port, no packet carries a
sub-packet for another destination than its header says. Both follow from the account
that a worker keeps of its messages.
-/

namespace Arcturus.AggregatorRuns

open GoStrings TunnelPacket TunnelHandler TunnelSafety Addresses Routes BatchPacket IndexedHeap
open Aggregator AggregatorParts EvictionInvariant EvictionRuns PacketCargo Tallies

section Runs
variable {cfg : Config} {actions : List Aggregator.Action} {s w w' : Worker}

/-- A worker without evictions is one whose evictions never begin. -/
theorem run_work (hrun : StepRuns.run (Aggregator.step cfg) w actions = some s) :
    StepRuns.run (Eviction.step cfg) ⟨w, .idle⟩ (actions.map .work) = some ⟨s, .idle⟩ := by
  induction actions generalizing w with
  | nil =>
    cases hrun
    rfl
  | cons a actions ih =>
    rw [StepRuns.run_cons] at hrun
    obtain ⟨w', hstep, hrest⟩ := Option.bind_eq_some_iff.mp hrun
    rw [List.map_cons, StepRuns.run_cons]
    simp only [Eviction.step, hstep, Option.map_some, Option.bind_some]
    exact ih hrest

theorem takes_work (actions : List Aggregator.Action) :
    (actions.map Eviction.Action.work).flatMap takes = messages actions := by
  induction actions with
  | nil => rfl
  | cons a actions ih =>
    rw [List.map_cons, List.flatMap_cons, ih]
    cases a with
    | receive msg => rfl
    | handle t => rfl
    | timeout t => rfl

theorem exists_ledger (hrun : Aggregator.run cfg actions = some s) :
    ∃ g, Ledger cfg g s ∧ g.taken = messages actions := by
  obtain ⟨g, hg, htaken⟩ := ledger_run (run_work hrun)
  exact ⟨g, hg, htaken.trans (takes_work actions)⟩

/-- Every batch is listed under some key. -/
def Filed (w : Worker) : Prop := ∀ b < w.store.length, ∃ key, b ∈ w.batches.val key

theorem Filed.effect (h : Filed w) (heffect : Effect w w') : Filed w' := by
  have hsame : w'.store.length = w.store.length → w'.batches = w.batches → Filed w' := by
    intro hlength hbatches b hb
    rw [hbatches]
    exact h b (hlength ▸ hb)
  cases heffect with
  | move hstore hbatches => exact hsame (by rw [hstore]) hbatches
  | fill b B pkt hB hstore hbatches => exact hsame (by rw [hstore, List.length_set]) hbatches
  | push b deadline hhandler hnext hstore hbatches => exact hsame (by rw [hstore]) hbatches
  | note b deadline B hhandler hnext hB hstore hbatches =>
    exact hsame (by rw [hstore, List.length_set]) hbatches
  | clear item B B' hfree hhandler hB hstore hkey hitem hbatches =>
    exact hsame (by rw [hstore, List.length_set]) hbatches
  | enter key fresh hfresh hstore hbatches =>
    intro b hb
    rw [hstore, List.length_append] at hb
    rw [hbatches]
    have hnew : ∀ key', b ∈ w.batches.val key' → ∃ key'', b ∈ (w.batches.set key
        (w.batches.val key ++ List.range' w.store.length fresh.length)).val key'' := by
      intro key' hmem
      refine ⟨key', ?_⟩
      by_cases hkey : key' = key
      · subst hkey
        rw [GoMaps.GoMap.set_val_same]
        exact List.mem_append_left _ hmem
      · rwa [GoMaps.GoMap.set_val_of_ne _ _ hkey]
    rcases Nat.lt_or_ge b w.store.length with hlt | hge
    · obtain ⟨key', hmem⟩ := h b hlt
      exact hnew key' hmem
    · refine ⟨key, ?_⟩
      rw [GoMaps.GoMap.set_val_same]
      exact List.mem_append_right _ (List.mem_range'_1.mpr ⟨hge, hb⟩)

theorem filed_run (hrun : Aggregator.run cfg actions = some s) : Filed s := by
  refine StepRuns.run_keeps ?_ (fun _ hb => absurd hb (Nat.not_lt_zero _)) hrun
  intro w a w' h hs
  exact h.effect (effect_step hs)

end Runs

section Quiet
variable {cfg : Config} {g : Account} {s : Worker}

/-- A packet is decoded to the messages that it carries. -/
theorem decode_of_carries {taken ms : List AggregatorMsg} {f : Flush}
    (hsize : cfg.bufferSize ≤ headerSize + 65535)
    (hsmall : ∀ m ∈ taken, emerges cfg m = true → m.data.length ≤ 65529)
    (h : Carries cfg taken f ms) : decode f.buf = ms.map toSub := by
  have hlen := h.headerSize_le
  cases h with
  | hollow _ _ hshort => exact decode_of_short hlen hshort
  | @filled first _ p q hfirst hne _ hp hroom hq hbuf _ =>
    have hfits : p.buffSize ≤ headerSize + 65535 := by
      rcases hroom with heq | ⟨halone, heq⟩
      · omega
      · have := hsmall first hfirst halone
        omega
    rw [hbuf]
    exact (hp.decode_sent hfits (Or.inl (by simpa using hne)) hq).2

theorem flatMap_decode {taken : List AggregatorMsg} {fs : List Flush}
    {mss : List (List AggregatorMsg)} (hsize : cfg.bufferSize ≤ headerSize + 65535)
    (hsmall : ∀ m ∈ taken, emerges cfg m = true → m.data.length ≤ 65529)
    (h : List.Forall₂ (Carries cfg taken) fs mss) :
    (fs.flatMap fun f => decode f.buf) = mss.flatten.map toSub ∧
      ∀ b, sentFrom fs (some b) = (sentBy b fs mss).map toSub := by
  induction h with
  | nil => exact ⟨rfl, fun _ => rfl⟩
  | @cons f ms fs mss hf _ ih =>
    have hdecode := decode_of_carries hsize hsmall hf
    refine ⟨by simp [hdecode, ih.1], fun b => ?_⟩
    have hsent : sentFrom (f :: fs) (some b) =
        (if f.source = some b then decode f.buf else []) ++ sentFrom fs (some b) := by
      simp only [sentFrom, List.filter_cons]
      split <;> simp_all
    rw [hsent, sentBy_cons, hdecode, ih.2 b]
    split <;> simp

/-- A batch holds the messages that the account says. -/
theorem held_eq (hsize : cfg.bufferSize ≤ headerSize + 65535) (h : Ledger cfg g s) (b : ℕ) :
    held s b = (g.stored[b]?.getD []).map toSub := by
  unfold held
  cases hB : s.store[b]? with
  | none =>
    rw [List.getElem?_eq_none_iff] at hB
    rw [List.getElem?_eq_none (h.length.trans_le hB)]
    rfl
  | some B =>
    obtain ⟨ms, hms⟩ := h.exists_stored hB
    obtain ⟨-, first, -, -, -, hcontents⟩ := h.stored b B ms hB hms
    rw [hms]
    exact hcontents.filled.pending_eq (hcontents.size.trans_le hsize)

/-- Between two calls a batch that is not in the heap is empty, unless it was evicted. -/
theorem held_eq_nil (hsize : cfg.bufferSize ≤ headerSize + 65535) (h : Ledger cfg g s)
    (hlinked : Linked ⟨s, .idle⟩) (hfiled : Filed s) (hidle : s.handler = .idle) {b : ℕ}
    (hb : b ∉ queued s) : held s b = [] := by
  rw [held_eq hsize h]
  cases hms : g.stored[b]? with
  | none => rfl
  | some ms =>
    have hlt : b < s.store.length := h.length ▸ (List.getElem?_eq_some_iff.mp hms).1
    obtain ⟨key, hkey⟩ := hfiled b hlt
    obtain ⟨B, hB, -, hqueued⟩ := (hlinked.listed key _ (Or.inl rfl)).2 b hkey
    have hrest := (h.stored b B ms hB hms).1 (not_not.mp fun hne => hb (hqueued hne))
    rw [Option.getD_some, hrest (by rw [hidle]; simp [Handler.holds])]
    rfl

theorem queued_of_quiet (hquiet : s.Quiet) : queued s = s.heap.toList.map HeapItem.batch := by
  unfold queued
  rw [hquiet.2]
  simp [expired]

/-- What waits in the heap is what the batches hold. -/
theorem scheduled_perm (hsize : cfg.bufferSize ≤ headerSize + 65535) (h : Ledger cfg g s)
    (hlinked : Linked ⟨s, .idle⟩) (hfiled : Filed s) (hquiet : s.Quiet) :
    (scheduled s).Perm (g.stored.flatten.map toSub) := by
  have hlist : scheduled s = (queued s).flatMap (held s) := by
    rw [queued_of_quiet hquiet, List.flatMap_map]
    rfl
  have hstored : (List.range s.store.length).map (fun b => g.stored[b]?.getD []) = g.stored := by
    refine List.ext_getElem (by simp [h.length]) fun b hb hb' => ?_
    simp [List.getElem?_eq_getElem hb']
  have hall : (List.range s.store.length).flatMap (held s) = g.stored.flatten.map toSub := by
    rw [← hstored, ← List.flatMap_def, List.map_flatMap]
    exact List.flatMap_congr fun b _ => held_eq hsize h b
  rw [hlist, ← hall]
  refine flatMap_perm_of_support ?_ List.nodup_range ?_ ?_
  · refine List.nodup_iff_count_le_one.mpr fun b => ?_
    rcases Nat.lt_or_ge b s.store.length with hlt | hge
    · exact (hlinked.link b _ (List.getElem?_eq_getElem hlt)).times_le
    · have hnot : b ∉ queued s := fun hmem => absurd (hlinked.queued_lt b hmem) (by simpa using hge)
      rw [List.count_eq_zero.mpr hnot]
      exact Nat.zero_le 1
  · exact fun b hb => List.mem_range.mpr (hlinked.queued_lt b hb)
  · exact fun b hb => held_eq_nil hsize h hlinked hfiled hquiet.1 hb

end Quiet

/-- Between two calls, what was sent and what waits in the heap are the messages handled
so far; each of them went to one place, and what was sent from a batch and waits in it
are the messages put there, in the order of their arrival. -/
theorem user_data_conserved {cfg : Config} {actions : List Action} {s : Worker}
    (hsize : cfg.bufferSize ≤ headerSize + 65535)
    (hmsgs : ∀ m ∈ messages actions, m.data ≠ [] ∧ m.data.length + 30 ≤ cfg.bufferSize)
    (hrun : run cfg actions = some s) (hquiet : s.Quiet) :
    ((s.flushed.flatMap fun f => decode f.buf) ++ scheduled s).Perm
        ((messages actions).map toSub) ∧
      ∃ placed : List (Option ℕ × AggregatorMsg), placed.map Prod.snd = messages actions ∧
        ∀ b, sentFrom s.flushed (some b) ++ held s b = (placedAt placed (some b)).map toSub := by
  have hsmall : ∀ m ∈ messages actions, emerges cfg m = true → m.data.length ≤ 65529 := by
    intro m hm _
    have hlen := (hmsgs m hm).2
    simp only [headerSize] at hsize
    omega
  obtain ⟨g, h, htaken⟩ := exists_ledger hrun
  have hlinked : Linked ⟨s, .idle⟩ := linked_run (run_work hrun)
  have hcopied : g.copied = [] := by
    have hnone := h.copied
    rw [hquiet.2] at hnone
    exact List.forall₂_nil_left_iff.mp hnone
  -- what is dropped was taken, and it does not fit
  have hdropped : g.dropped = [] := by
    refine List.eq_nil_iff_forall_not_mem.mpr fun m hm => h.unfit m hm (hmsgs m ?_)
    rw [← htaken, ← Multiset.mem_coe, h.account]
    simp [Account.kept, hm]
  rw [← htaken] at hsmall
  obtain ⟨hflushed, hsent⟩ := flatMap_decode hsize hsmall h.sent
  constructor
  · have haccount := h.account
    simp only [Account.kept, hcopied, hdropped, hquiet.1, inFlight, tally_nil, Multiset.coe_nil,
      zero_add, add_zero] at haccount
    have hperm : g.taken.Perm (g.sent.flatten ++ g.stored.flatten) :=
      Multiset.coe_eq_coe.mp (haccount.trans (Multiset.coe_add _ _))
    rw [hflushed, ← htaken]
    refine ((scheduled_perm hsize h hlinked (filed_run hrun) hquiet).append_left _).trans ?_
    rw [← List.map_append]
    exact (hperm.map toSub).symm
  · refine ⟨g.placed, ?_, fun b => ?_⟩
    · have harrived := h.arrived hdropped
      rwa [hquiet.1, inFlight, List.append_nil, htaken] at harrived
    · rw [h.order b, hquiet.2, hsent b, held_eq hsize h b]
      simp [toSend, sentBy_nil]

theorem user_data_conserved_onePort :
    ∃ s, run smallBuffers onePort = some s ∧ s.Quiet ∧
      ((s.flushed.flatMap fun f => decode f.buf) ++ scheduled s).Perm
        [⟨1, List.replicate 128 10⟩, ⟨2, List.replicate 128 10⟩] := by
  have hend : (run smallBuffers onePort).map (fun s => (s.handler, s.timer)) =
      some (.idle, .idle) := by
    decide +kernel
  obtain ⟨s, hrun, hquiet⟩ := Option.map_eq_some_iff.mp hend
  rw [Prod.mk.injEq] at hquiet
  exact ⟨s, hrun, hquiet, (user_data_conserved (by decide) (by decide +kernel) hrun hquiet).1⟩

/-- A message that one of the servers hands to the aggregator. -/
def FromRequest (msg : AggregatorMsg) : Prop :=
  ∃ routing reqID data, handleConnection routing reqID data = .ok (.batched msg) ∨
    handleConnectionKeepAlive routing reqID data = .ok (.batched msg) ∨
    handleUDPConnection routing reqID data = .ok (.batched msg)

/-- The header names the hops of a message, as far as it has room for them. Every sub-packet
stems from a message with exactly these hops and with the port and the protocol that stand in
the header. -/
def RightHeader (msgs : List AggregatorMsg) (buf : List UInt8) : Prop :=
  ∃ first ∈ msgs, (header buf).hopIP = slots first.hops ∧
    ∀ sub ∈ decode buf, ∃ m ∈ msgs, toSub m = sub ∧ (header buf).port = m.port ∧
      (header buf).protocol = protocolByte m.protocol ∧ m.hops = first.hops

/-- Messages that wait for each other on the same hops go to the same port, their hops
can be told apart in the routing key, and what is sent alone fits into a packet. -/
structure Unmixed (cfg : Config) (msgs : List AggregatorMsg) : Prop where
  ports : ∀ m ∈ msgs, ∀ m' ∈ msgs, emerges cfg m = false → emerges cfg m' = false →
    m.hops = m'.hops → m.port = m'.port
  commas : ∀ m ∈ msgs, emerges cfg m = false → ∀ hop ∈ m.hops, ¬ Contains hop ","
  alone : ∀ m ∈ msgs, emerges cfg m = true → m.data.length ≤ 65529

theorem length_stripPorts (pathHops : List String) :
    (stripPorts pathHops).1.length = pathHops.length := by
  induction pathHops using List.reverseRecOn with
  | nil => rfl
  | append_singleton pathHops h ih =>
    unfold stripPorts
    rw [List.foldl_append, ← stripPorts]
    simp only [List.foldl_cons, List.foldl_nil]
    split <;> simp [ih]

theorem addToBatch_spec {emerge : Bool} {protocol : String} {pathInfo : PathInfo} {reqID : UInt32}
    {data : List UInt8} {msg : AggregatorMsg}
    (h : addToBatch emerge protocol pathInfo reqID data = .ok (.batched msg)) :
    msg.routingKey = join msg.hops "," ∧ msg.hops ≠ [] ∧ msg.emerge = emerge ∧
      msg.protocol = protocol := by
  unfold addToBatch at h
  split at h
  · simp at h
  · rename_i hop1 hhop
    obtain ⟨hlong, -⟩ := List.getElem?_eq_some_iff.mp hhop
    rw [Except.ok.injEq, Request.batched.injEq] at h
    subst h
    refine ⟨rfl, List.ne_nil_of_length_pos ?_, rfl, rfl⟩
    rw [length_stripPorts]
    omega

theorem handleConnection_spec {routing : List PathInfo} {reqID : UInt32} {data : List UInt8}
    {msg : AggregatorMsg} (h : handleConnection routing reqID data = .ok (.batched msg)) :
    msg.routingKey = join msg.hops "," ∧ msg.hops ≠ [] ∧ msg.protocol = "tcp" := by
  unfold handleConnection at h
  split at h
  · simp at h
  · obtain ⟨hkey, hhops, -, hprotocol⟩ := addToBatch_spec h
    exact ⟨hkey, hhops, hprotocol⟩

/-- The routing key is made of the hops, and only TCP requests may wait. -/
theorem FromRequest.spec {msg : AggregatorMsg} (h : FromRequest msg) :
    msg.routingKey = join msg.hops "," ∧ msg.hops ≠ [] ∧
      (msg.emerge = false → msg.protocol = "tcp") := by
  obtain ⟨routing, reqID, data, htcp | hkept | hudp⟩ := h
  · obtain ⟨hkey, hhops, hprotocol⟩ := handleConnection_spec htcp
    exact ⟨hkey, hhops, fun _ => hprotocol⟩
  · unfold handleConnectionKeepAlive at hkept
    split at hkept
    · simp at hkept
    · obtain ⟨hkey, hhops, hprotocol⟩ := handleConnection_spec hkept
      exact ⟨hkey, hhops, fun _ => hprotocol⟩
  · unfold handleUDPConnection at hudp
    split at hudp
    · simp at hudp
    · split at hudp
      · split at hudp <;> simp at hudp
      · obtain ⟨hkey, hhops, hemerge, -⟩ := addToBatch_spec hudp
        exact ⟨hkey, hhops, fun hno => absurd (hemerge.symm.trans hno) (by simp)⟩

/-- Two messages that wait under one routing key have the same header. -/
theorem Unmixed.sameHeader {cfg : Config} {msgs : List AggregatorMsg} (h : Unmixed cfg msgs)
    (hreq : ∀ m ∈ msgs, FromRequest m) {m m' : AggregatorMsg} (hm : m ∈ msgs) (hm' : m' ∈ msgs)
    (hwaits : emerges cfg m = false) (hwaits' : emerges cfg m' = false)
    (hsame : m.routingKey = m'.routingKey) :
    m.port = m'.port ∧ m.protocol = m'.protocol ∧ m.hops = m'.hops := by
  obtain ⟨hkey, hne, htcp⟩ := (hreq m hm).spec
  obtain ⟨hkey', hne', htcp'⟩ := (hreq m' hm').spec
  have hemerge : ∀ {x : AggregatorMsg}, emerges cfg x = false → x.emerge = false := by
    intro x hx
    unfold emerges at hx
    rw [Bool.or_eq_false_iff] at hx
    exact hx.1
  have hjoin : join m.hops "," = join m'.hops "," := by
    rw [← hkey, ← hkey', hsame]
  have hhops := join_injective comma_borderFree hne hne' (h.commas m hm hwaits)
    (h.commas m' hm' hwaits') hjoin
  refine ⟨h.ports m hm m' hm' hwaits hwaits' hhops, ?_, hhops⟩
  rw [htcp (hemerge hwaits), htcp' (hemerge hwaits')]

/-- In every run on such requests, every packet that was sent carries only sub-packets
for the destination in its header. -/
theorem flushed_rightHeader {cfg : Config} {actions : List Action} {s : Worker}
    (hsize : cfg.bufferSize ≤ headerSize + 65535)
    (hreq : ∀ m ∈ messages actions, FromRequest m) (hunmixed : Unmixed cfg (messages actions))
    (hrun : run cfg actions = some s) :
    ∀ f ∈ s.flushed, RightHeader (messages actions) f.buf := by
  obtain ⟨g, h, htaken⟩ := exists_ledger hrun
  intro f hf
  obtain ⟨i, hi⟩ := List.mem_iff_getElem?.mp hf
  obtain ⟨ms, hms, hcarries⟩ := forall₂_getElem? h.sent hi
  rw [htaken] at hcarries
  have hdecode := decode_of_carries hsize hunmixed.alone hcarries
  obtain ⟨first, hfirst, hbytes, hmates⟩ := hcarries.maker
  obtain ⟨-, hhops, hport, hprotocol⟩ := header_tunnelBytes hbytes
  refine ⟨first, hfirst, hhops, fun sub hsub => ?_⟩
  rw [hdecode] at hsub
  obtain ⟨m, hm, hsub⟩ := List.mem_map.mp hsub
  rcases hmates m hm with rfl | ⟨hwaits, hwaits', hkey⟩
  · exact ⟨m, hfirst, hsub, hport, hprotocol, rfl⟩
  · have htake : m ∈ messages actions := by
      rw [← htaken, ← Multiset.mem_coe, h.account]
      exact Multiset.mem_add.mpr (Or.inl (Multiset.mem_of_le (le_tally hms) hm))
    obtain ⟨hp, hpr, hh⟩ := hunmixed.sameHeader hreq hfirst htake hwaits hwaits' hkey.symm
    exact ⟨m, htake, hsub, hp ▸ hport, hpr ▸ hprotocol, hh.symm⟩

/-- Dotted addresses can be told apart in the routing key. -/
theorem request_no_comma (r : Route) (reqID : UInt32) :
    ∀ hop ∈ (request r reqID).hops, ¬ Contains hop "," := by
  intro hop hhop
  obtain ⟨ip, -, rfl⟩ := List.mem_map.mp hhop
  exact ipString_no_comma ip

theorem fromRequest_request (r : Route) (reqID : UInt32) : FromRequest (request r reqID) := by
  obtain ⟨routing, reqID', data, ⟨-, htcp⟩ | ⟨-, hudp⟩⟩ :=
    requestFor_message r reqID (List.replicate 128 10)
  · exact ⟨routing, reqID', data, Or.inl htcp⟩
  · exact ⟨routing, reqID', data, Or.inr (Or.inr hudp)⟩

theorem twoThenTimeout_messages (r r' : Route) (reqID reqID' : UInt32) :
    ∀ m ∈ messages (twoThenTimeout (request r reqID) (request r' reqID')),
      FromRequest m ∧ ∀ hop ∈ m.hops, ¬ Contains hop "," := by
  intro m hm
  have hlist : messages (twoThenTimeout (request r reqID) (request r' reqID')) =
      [request r reqID, request r' reqID'] := rfl
  rw [hlist, List.mem_pair] at hm
  rcases hm with rfl | rfl
  · exact ⟨fromRequest_request r reqID, request_no_comma r reqID⟩
  · exact ⟨fromRequest_request r' reqID', request_no_comma r' reqID'⟩

theorem flushed_rightHeader_onePort :
    ∃ s, run smallBuffers onePort = some s ∧ s.flushed.length = 1 ∧
      ∀ f ∈ s.flushed, RightHeader (messages onePort) f.buf := by
  have hend : (run smallBuffers onePort).map (fun s => s.flushed.length) = some 1 := by
    decide +kernel
  obtain ⟨s, hrun, hlen⟩ := Option.map_eq_some_iff.mp hend
  have hmessages := twoThenTimeout_messages (routeTo 80 eighty_ne_zero)
    (routeTo 80 eighty_ne_zero) 1 2
  refine ⟨s, hrun, hlen, flushed_rightHeader (by decide) (fun m hm => (hmessages m hm).1) ?_ hrun⟩
  exact ⟨by decide +kernel, fun m hm _ => (hmessages m hm).2, by decide +kernel⟩

/-- Two requests on the same hops to different ports of the origin share a packet, which
names the port of the first one. -/
theorem ports_share_packet :
    ∃ s, (∀ m ∈ messages twoPorts, FromRequest m) ∧ run smallBuffers twoPorts = some s ∧
      ∃ f ∈ s.flushed, ¬ RightHeader (messages twoPorts) f.buf := by
  have hend : (run smallBuffers twoPorts).map
      (fun s => s.flushed.map fun f => ((header f.buf).port, decode f.buf)) =
        some [(80, [⟨1, List.replicate 128 10⟩, ⟨2, List.replicate 128 10⟩])] := by
    decide +kernel
  obtain ⟨s, hrun, hflushed⟩ := Option.map_eq_some_iff.mp hend
  refine ⟨s, fun m hm => (twoThenTimeout_messages _ _ _ _ m hm).1, hrun, ?_⟩
  obtain ⟨f, hf, hpair⟩ := List.mem_map.mp (hflushed ▸ List.mem_singleton.mpr rfl)
  rw [Prod.mk.injEq] at hpair
  refine ⟨f, hf, fun hright => ?_⟩
  obtain ⟨_, -, -, hall⟩ := hright
  obtain ⟨m, hm, hsub, hport, -⟩ := hall ⟨2, List.replicate 128 10⟩ (by rw [hpair.2]; simp)
  rw [hpair.1] at hport
  have hnone : ∀ m ∈ messages twoPorts, m.userID = 2 → 80 ≠ m.port := by
    decide +kernel
  exact hnone m hm (congrArg SubPacket.userID hsub) hport

end Arcturus.AggregatorRuns
