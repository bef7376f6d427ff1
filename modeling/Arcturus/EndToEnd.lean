import Arcturus.BatchPacket

/-!
Requests and responses over whole routes. A batch of requests travels from the
first node of a route to the last one, which asks the origin, and a batch of
answers travels back. Every sub-packet arrives exactly once and in order if the
payload of its packet is at most 65535 bytes long, and only then.
-/

namespace Arcturus.EndToEnd

open TunnelPacket TunnelHandler Addresses PacketCodec TunnelSafety Overlay Routes BatchPacket

/-- A stream is sent to a node, and every `SendPacket` on the way succeeds: the nodes
that handle the packet, and what the last one of them does with it. -/
inductive Trip : UInt32 → List UInt8 → List Arrival → List Effect → Prop
  | ends {node : UInt32} {stream pkt : List UInt8} {effects : List Effect} :
      receive stream = some pkt → handleQUICPacket pkt = .ok effects →
      (∀ ip out, .send ip out ∉ effects) → Trip node stream [⟨node, pkt⟩] effects
  | relayed {node next : UInt32} {stream pkt out : List UInt8} {visits : List Arrival}
      {effects : List Effect} :
      receive stream = some pkt → handleQUICPacket pkt = .ok [.send next out] →
      Trip next out visits effects → Trip node stream (⟨node, pkt⟩ :: visits) effects

/-- Every packet that was filled with these sub-packets visits these nodes, which change
its first byte only, and the last one of them does this with each sub-packet. -/
def Carried (msg : AggregatorMsg) (subs : List SubPacket) (nodes : List UInt32)
    (act : SubPacket → Effect) : Prop :=
  ∀ p, Filled msg subs p → ∃ q first visits, p.serializeHead = .ok q ∧ msg.nextHop = some first ∧
    Trip first (q.buf.take q.totalBytes) visits (subs.map act) ∧
    visits.map Arrival.node = nodes ∧ ∀ v ∈ visits, v.pkt.tail = (q.buf.take q.totalBytes).tail

/-- The task for a sub-packet of a request on this route. -/
def requestTask (r : Route) (sub : SubPacket) : BackSourceTask where
  hopIP := #v[r.hop 0, r.hop 1, r.hop 2, r.hop 3]
  port := r.port
  userID := sub.userID
  originAddr := r.lastHop
  reqData := sub.data

/-- A batch of requests reaches the last node, which asks the origin of the route. -/
def RequestLeg (r : Route) (subs : List SubPacket) : Prop :=
  ∀ msg, RequestFor r msg →
    Carried msg subs r.nodes.tail fun s => .submit msg.protocol (requestTask r s)

/-- Whatever the origin answers to one of the requests, a batch for this answer goes the
route back to the first node and is delivered there. -/
def ResponseLeg (r : Route) (subs replies : List SubPacket) : Prop :=
  ∀ s ∈ subs, ∀ resp, resp ≠ [] → ∃ msg,
    doOriginRequest (requestTask r s) (some resp) = .ok (some msg) ∧
    msg.userID = s.userID ∧ msg.data = resp ∧
    Carried msg replies r.nodes.dropLast.reverse fun t => .deliver t.userID t.data

/-- The sub-packet that a call of the handler is about. -/
def handedOver : Effect → Option SubPacket
  | .submit _ task => some ⟨task.userID, task.reqData⟩
  | .send _ _ => none
  | .deliver userID data => some ⟨userID, data⟩

/-- The handler hands over all sub-packets of a packet or none. -/
theorem handedOver_eq {pkt : List UInt8} {effects : List Effect}
    (h : handleQUICPacket pkt = .ok effects) :
    effects.filterMap handedOver = [] ∨
      headerSize ≤ pkt.length ∧ HasData pkt ∧ effects.filterMap handedOver = subPackets pkt := by
  have hforward : ∀ hd, forward hd pkt = .ok effects → effects.filterMap handedOver = [] := by
    intro hd hf
    rw [forward_eq] at hf
    split at hf
    · rw [Except.ok.injEq] at hf
      rw [← hf]
      rfl
    · split at hf
      · rw [Except.ok.injEq] at hf
        rw [← hf]
        rfl
      · simp at hf
  by_cases hlen : headerSize ≤ pkt.length
  · rw [handleQUICPacket_eq hlen] at h
    split at h
    · split at h
      · rename_i hend
        rw [submitAll_eq hlen (by have := hend.pos_le; omega)] at h
        split at h
        · rename_i hdata
          rw [Except.ok.injEq] at h
          subst h
          refine Or.inr ⟨hlen, hdata.1, ?_⟩
          rw [List.filterMap_map]
          exact List.filterMap_some
        · rw [Except.ok.injEq] at h
          exact Or.inl (h ▸ rfl)
      · exact Or.inl (hforward _ h)
    · split at h
      · rw [deliverAll_eq hlen] at h
        split at h
        · rename_i hdata
          rw [Except.ok.injEq] at h
          subst h
          refine Or.inr ⟨hlen, hdata, ?_⟩
          rw [List.filterMap_map]
          exact List.filterMap_some
        · rw [Except.ok.injEq] at h
          exact Or.inl (h ▸ rfl)
      · exact Or.inl (hforward _ h)
  · unfold handleQUICPacket at h
    rw [if_pos (by omega), Except.ok.injEq] at h
    exact Or.inl (h ▸ rfl)

theorem Trip.exists_last {node : UInt32} {stream : List UInt8} {visits : List Arrival}
    {effects : List Effect} (h : Trip node stream visits effects) :
    ∃ v ∈ visits, handleQUICPacket v.pkt = .ok effects := by
  induction h with
  | ends _ hhandle _ => exact ⟨_, List.mem_singleton.mpr rfl, hhandle⟩
  | relayed _ _ _ ih =>
    obtain ⟨v, hv, hhandle⟩ := ih
    exact ⟨v, List.mem_cons_of_mem _ hv, hhandle⟩

/-- A payload beyond sixteen bits is not carried: its end is cut off. -/
theorem Carried.fits {msg : AggregatorMsg} {subs : List SubPacket} {nodes : List UInt32}
    {act : SubPacket → Effect} (h : Carried msg subs nodes act)
    (hact : ∀ s, handedOver (act s) = some s) (hne : subs ≠ [])
    (hdata : ∀ s ∈ subs, s.data ≠ []) : (encode subs).length ≤ 65535 := by
  obtain ⟨p, hp, -⟩ := exists_filled msg subs hdata le_rfl
  obtain ⟨q, first, visits, hq, -, htrip, -, htail⟩ := h p hp
  obtain ⟨q', hq', -, hsame, hlen⟩ := hp.sent_bytes hne
  obtain rfl : q = q' := by
    rw [hq, Except.ok.injEq] at hq'
    exact hq'
  obtain ⟨v, hv, hhandle⟩ := htrip.exists_last
  have hsubs : (subs.map act).filterMap handedOver = subs := by
    have hid : handedOver ∘ act = some := funext hact
    rw [List.filterMap_map, hid, List.filterMap_some]
  have hv := htail v hv
  rcases handedOver_eq hhandle with hnil | ⟨hlow, hhas, hall⟩
  · rw [hsubs] at hnil
    exact absurd hnil hne
  · rw [hsubs] at hall
    have hcount : (header v.pkt).payloadLen.toNat = (encode subs).length % 65536 := by
      generalize q.buf.take q.totalBytes = bytes at hv hsame hlen
      rw [← (hp.payloadLen hne).2, ← hsame.payloadLen]
      cases hvp : v.pkt with
      | nil => rw [hvp] at hlow; exact absurd hlow (by decide)
      | cons c rest =>
        cases bytes with
        | nil => simp [headerSize] at hlen; omega
        | cons b rest' =>
          rw [hvp, List.tail_cons, List.tail_cons] at hv
          rw [hv]
          rfl
    have hread := length_encode_readSubPackets (payload v.pkt).length (payload v.pkt)
    change subPackets v.pkt ≠ [] → _ ∧ (encode (subPackets v.pkt)).length ≤ _ at hread
    rw [← hall, length_payload hhas.2, hcount] at hread
    have hbound := (hread hne).2
    omega

theorem tail_advanceRawHop (pkt : List UInt8) : (advanceRawHop pkt).tail = pkt.tail := by
  unfold advanceRawHop
  split
  · rfl
  · split <;> rfl

/-- It is enough to follow the well-formed packets for a message. -/
theorem carried_of_trip {msg : AggregatorMsg} {subs : List SubPacket} {nodes : List UInt32}
    {act : SubPacket → Effect} {first : UInt32} (hfirst : msg.nextHop = some first)
    (hne : subs ≠ []) (hsmall : (encode subs).length ≤ 65535)
    (h : ∀ bytes, TunnelBytes msg bytes → WellFormed bytes subs →
      ∃ visits, Trip first bytes visits (subs.map act) ∧ visits.map Arrival.node = nodes ∧
        ∀ v ∈ visits, v.pkt.tail = bytes.tail) : Carried msg subs nodes act := by
  intro p hp
  obtain ⟨q, hq, hbytes, hw⟩ := hp.wellFormed hne hsmall
  obtain ⟨visits, htrip, hnodes, htail⟩ := h _ hbytes hw
  exact ⟨q, first, visits, hq, hfirst, htrip, hnodes, htail⟩

section Trips
variable {pkt : List UInt8} {subs : List SubPacket} {act : SubPacket → Effect} {node next : UInt32}

theorem trip_one (hw : WellFormed pkt subs) (hhandle : handleQUICPacket pkt = .ok (subs.map act))
    (hact : ∀ s, handedOver (act s) = some s) :
    Trip node pkt [⟨node, pkt⟩] (subs.map act) := by
  refine .ends hw.receive hhandle ?_
  intro ip out hmem
  obtain ⟨s, -, hs⟩ := List.mem_map.mp hmem
  have hnone := hact s
  rw [hs] at hnone
  exact absurd hnone (by simp [handedOver])

theorem trip_two (hw : WellFormed pkt subs)
    (hrelay : handleQUICPacket pkt = .ok [.send next (advanceRawHop pkt)])
    (hhandle : handleQUICPacket (advanceRawHop pkt) = .ok (subs.map act))
    (hact : ∀ s, handedOver (act s) = some s) :
    Trip node pkt [⟨node, pkt⟩, ⟨next, advanceRawHop pkt⟩] (subs.map act) :=
  .relayed hw.receive hrelay (trip_one hw.advance hhandle hact)

end Trips

/-- The routes of three or four hops, none of them 0.0.0.0. -/
structure Short (r : Route) : Prop where
  short : r.nodes.length ≤ 3
  nonzero : ∀ a ∈ r.addresses, a ≠ 0

theorem Short.cases {r : Route} (h : Short r) :
    (∃ a b, r.nodes = [a, b]) ∨ ∃ a b c, r.nodes = [a, b, c] := by
  have hlong := r.long
  have hshort := h.short
  match hnodes : r.nodes with
  | [] | [_] => simp [hnodes] at hlong
  | [a, b] => exact Or.inl ⟨a, b, rfl⟩
  | [a, b, c] => exact Or.inr ⟨a, b, c, rfl⟩
  | _ :: _ :: _ :: _ :: _ =>
    rw [hnodes] at hshort
    simp only [List.length_cons] at hshort
    omega

theorem Short.asked {r : Route} (h : Short r) : askedAddress r = r.origin ∧ r.origin ≠ 0 := by
  have horigin : r.origin ≠ 0 := h.nonzero _ (by simp [Route.addresses])
  refine ⟨?_, horigin⟩
  rcases h.cases with ⟨a, b, hnodes⟩ | ⟨a, b, c, hnodes⟩
  · simp [askedAddress, Route.hop, Route.addresses, hnodes]
  · simp [askedAddress, Route.hop, Route.addresses, hnodes, horigin]

theorem Short.tail_eq {r : Route} (h : Short r) :
    r.nodes.tail = if r.hop 3 = 0 then [r.hop 1] else [r.hop 1, r.hop 2] := by
  have horigin := h.asked.2
  rcases h.cases with ⟨a, b, hnodes⟩ | ⟨a, b, c, hnodes⟩
  · simp [Route.hop, Route.addresses, hnodes]
  · simp [Route.hop, Route.addresses, hnodes, horigin]

theorem protocolName_of_byte {h : Packet} {protocol : String}
    (hp : protocol = "tcp" ∨ protocol = "udp") (hb : h.protocol = protocolByte protocol) :
    protocolName h = protocol := by
  unfold protocolName
  rw [hb]
  rcases hp with rfl | rfl
  · rfl
  · rfl

/-- On a short route the last node asks the origin for every sub-packet. -/
theorem submit_eq {r : Route} (hr : Short r) {pkt : List UInt8} {subs : List SubPacket}
    {protocol : String} (ho : OnRoute r (header pkt)) (hw : WellFormed pkt subs)
    (hp : protocol = "tcp" ∨ protocol = "udp")
    (hb : (header pkt).protocol = protocolByte protocol) (hend : Ends (header pkt)) :
    handleQUICPacket pkt = .ok (subs.map fun s => .submit protocol (requestTask r s)) := by
  obtain ⟨hasked, horigin⟩ := hr.asked
  rw [ho.submit hw hend (hasked ▸ horigin), protocolName_of_byte hp hb, hasked]
  simp only [originTask, requestTask, ho.hopIP, ho.port, joinHostPort_ipString, Route.lastHop]

theorem requestLeg_of_fits {r : Route} (hr : Short r) {subs : List SubPacket} (hne : subs ≠ [])
    (hsmall : (encode subs).length ≤ 65535) : RequestLeg r subs := by
  intro msg hmsg
  obtain ⟨emerge, protocol, reqID, data, rfl, hp⟩ := hmsg.eq_message
  apply carried_of_trip rfl hne hsmall
  intro bytes hbytes hw
  have ho := onRoute_of_tunnelBytes hmsg hbytes
  obtain ⟨hpos, -, -, hb⟩ := header_tunnelBytes hbytes
  have hends : Ends (header bytes) ↔ r.hop 3 = 0 := by
    rw [ho.ends_iff, hpos]
    simp
  by_cases hend : Ends (header bytes)
  · refine ⟨_, trip_one hw (submit_eq hr ho hw hp hb hend) fun s => rfl, ?_, by simp⟩
    rw [hr.tail_eq, if_pos (hends.mp hend)]
    rfl
  · obtain ⟨hrelay, hnext, hlast⟩ := ho.relay hw.hasData_self.1 hend
    have hb' : (header (advanceRawHop bytes)).protocol = protocolByte protocol :=
      (header_advanceRawHop hw.hasData_self.1 (by rw [hpos]; decide)).protocol.trans hb
    refine ⟨_, trip_two hw hrelay (submit_eq hr hnext hw.advance hp hb' hlast) fun s => rfl, ?_,
      by simp [tail_advanceRawHop]⟩
    rw [hr.tail_eq, if_neg fun h3 => hend (hends.mpr h3)]
    rfl

/-- The message of `doOriginRequest` for an answer on this route. -/
def reply (r : Route) (userID : UInt32) (resp : List UInt8) : AggregatorMsg where
  emerge := false
  routingKey := GoStrings.join (r.nodes.reverse.map ipString) ","
  protocol := ""
  port := 0
  hops := r.nodes.reverse.map ipString
  nextHop := some (r.nodes.reverse[1]?.getD 0)
  userID := userID
  data := resp

/-- The nodes of a short route are found again in the header, last one first. -/
theorem responseHops_requestTask {r : Route} (hr : Short r) (s : SubPacket) :
    responseHops (requestTask r s).hopIP = r.nodes.reverse := by
  have horigin := hr.asked.2
  have hnode : ∀ a ∈ r.nodes, a ≠ 0 := fun a ha =>
    hr.nonzero a (List.mem_append_left _ ha)
  rcases hr.cases with ⟨a, b, hnodes⟩ | ⟨a, b, c, hnodes⟩
  · rw [hnodes] at hnode
    simp only [List.mem_cons, List.not_mem_nil, or_false, forall_eq_or_imp, forall_eq] at hnode
    simp [responseHops, reversedHops, requestTask, Route.hop, Route.addresses, hnodes, horigin,
      hnode.1, hnode.2]
  · rw [hnodes] at hnode
    simp only [List.mem_cons, List.not_mem_nil, or_false, forall_eq_or_imp, forall_eq] at hnode
    simp [responseHops, reversedHops, requestTask, Route.hop, Route.addresses, hnodes, horigin,
      hnode.1, hnode.2.1, hnode.2.2]

theorem doOriginRequest_requestTask {r : Route} (hr : Short r) (s : SubPacket) {resp : List UInt8}
    (hne : resp ≠ []) :
    doOriginRequest (requestTask r s) (some resp) = .ok (some (reply r s.userID resp)) := by
  have hlen : ¬ resp.length = 0 := fun he => hne (List.length_eq_zero_iff.mp he)
  have hlong := r.long
  have hget : r.nodes.reverse[1]? = some (r.nodes.reverse[1]?.getD 0) := by
    rw [List.getElem?_eq_getElem (by rw [List.length_reverse]; omega)]
    rfl
  simp only [doOriginRequest, hlen, if_false, responseHops_requestTask hr]
  rw [hget]
  rfl

theorem responseLeg_of_fits {r : Route} (hr : Short r) (subs : List SubPacket)
    {replies : List SubPacket} (hne : replies ≠ []) (hsmall : (encode replies).length ≤ 65535) :
    ResponseLeg r subs replies := by
  intro s _ resp hresp
  refine ⟨_, doOriginRequest_requestTask hr s hresp, rfl, rfl, carried_of_trip rfl hne hsmall ?_⟩
  intro bytes hbytes hw
  obtain ⟨hpos, hhops, hport, -⟩ := header_tunnelBytes hbytes
  have hport : (header bytes).port = 0 := hport
  have hslot : (header bytes).hopIP = #v[r.nodes.reverse[0]?.getD 0, r.nodes.reverse[1]?.getD 0,
      r.nodes.reverse[2]?.getD 0, r.nodes.reverse[3]?.getD 0] := by
    rw [hhops]
    simp only [slots, reply, slot_map_ipString]
  rcases hr.cases with ⟨a, b, hnodes⟩ | ⟨a, b, c, hnodes⟩
  · have hend : ResponseEnds (header bytes) := by
      refine Or.inr ⟨by rw [hpos]; decide, ?_⟩
      unfold SlotEmpty
      rw [hpos, hslot, hnodes]
      rfl
    refine ⟨_, trip_one hw (hw.handle_response hport hend) fun s => rfl, ?_, by simp⟩
    rw [hnodes]
    rfl
  · have ha : a ≠ 0 := hr.nonzero a (by simp [Route.addresses, hnodes])
    have hend : ¬ Ends (header bytes) := by
      unfold Ends
      rw [if_neg (not_not.mpr hport)]
      intro hends
      rcases hends with h3 | ⟨-, hempty⟩
      · rw [hpos] at h3
        exact absurd h3 (by decide)
      · unfold SlotEmpty at hempty
        rw [hpos, hslot, hnodes] at hempty
        exact ha (Option.some.inj hempty)
    have hrelay : handleQUICPacket bytes = .ok [.send a (advanceRawHop bytes)] := by
      refine handle_eq_send_iff.mpr ⟨hw.hasData_self.1, hend, ?_, rfl⟩
      rw [hpos, hslot, hnodes]
      rfl
    have hsame := header_advanceRawHop hw.hasData_self.1 (by rw [hpos]; decide)
    have hlast : ResponseEnds (header (advanceRawHop bytes)) := by
      have htwo : (header (advanceRawHop bytes)).hopPos = 2 := by
        rw [hsame.hopPos]
        change (header bytes).hopPos + 1 = 2
        rw [hpos]
        rfl
      refine Or.inr ⟨by rw [htwo]; decide, ?_⟩
      unfold SlotEmpty
      rw [htwo, hsame.hopIP]
      change (header bytes).hopIP[3]? = some 0
      rw [hslot, hnodes]
      rfl
    refine ⟨_, trip_two hw hrelay
      (hw.advance.handle_response (hsame.port.trans hport) hlast) fun s => rfl, ?_,
      by simp [tail_advanceRawHop]⟩
    rw [hnodes]
    rfl

/-- Requests and answers make the whole way exactly if their payloads fit the length
field of a packet. -/
theorem round_trip_iff (r : Route) (hr : Short r) (subs replies : List SubPacket)
    (hsubs : subs ≠ []) (hreplies : replies ≠ []) (hdata : ∀ s ∈ subs, s.data ≠ [])
    (hanswers : ∀ s ∈ replies, s.data ≠ []) :
    RequestLeg r subs ∧ ResponseLeg r subs replies ↔
      (encode subs).length ≤ 65535 ∧ (encode replies).length ≤ 65535 := by
  constructor
  · intro hlegs
    obtain ⟨hrequest, hresponse⟩ := hlegs
    refine ⟨?_, ?_⟩
    · exact (hrequest _ (requestFor_message r 0 [0])).fits (fun s => rfl) hsubs hdata
    · obtain ⟨s, hs⟩ := List.exists_mem_of_ne_nil _ hsubs
      obtain ⟨msg, -, -, -, hcarried⟩ := hresponse s hs [0] (by simp)
      exact hcarried.fits (fun s => rfl) hreplies hanswers
  · intro hfits
    obtain ⟨hsmall, hsmall'⟩ := hfits
    exact ⟨requestLeg_of_fits hr hsubs hsmall, responseLeg_of_fits hr subs hreplies hsmall'⟩

/-- The route 10.0.0.1, 10.0.0.2, 10.0.0.9:80. -/
def threeHops : Route where
  nodes := [0x0A000001, 0x0A000002]
  origin := 0x0A000009
  port := 80
  long := by decide
  port_ne := eighty_ne_zero

theorem threeHops_short : Short threeHops := ⟨by decide, by simp [threeHops, Route.addresses]⟩

theorem round_trip_threeHops :
    RequestLeg threeHops [⟨7, [1]⟩, ⟨8, [2, 3]⟩] ∧
      ResponseLeg threeHops [⟨7, [1]⟩, ⟨8, [2, 3]⟩] [⟨8, [4]⟩] :=
  (round_trip_iff threeHops threeHops_short _ _ (by decide) (by decide) (by decide)
    (by decide)).mpr (by decide)

theorem RequestLeg.length_le {r : Route} {s : SubPacket} (h : RequestLeg r [s])
    (hne : s.data ≠ []) : s.data.length ≤ 65529 := by
  have hdata : ∀ t ∈ [s], t.data ≠ [] := by
    intro t ht
    rw [List.mem_singleton.mp ht]
    exact hne
  have hfits := (h _ (requestFor_message r 0 [0])).fits (fun s => rfl) (List.cons_ne_nil _ _) hdata
  rw [encode_cons, encode_nil, List.append_nil, length_encodeSub] at hfits
  omega

/-- A request of 65530 bytes makes a payload of 65536 bytes, which is announced as none. -/
theorem long_request_lost :
    ¬ (RequestLeg threeHops [⟨7, List.replicate 65530 1⟩] ∧
      ResponseLeg threeHops [⟨7, List.replicate 65530 1⟩] [⟨7, [1]⟩]) := by
  intro hlegs
  obtain ⟨hrequest, -⟩ := hlegs
  have hpos : 0 < (List.replicate 65530 (1 : UInt8)).length := by
    rw [List.length_replicate]
    decide
  have hle := hrequest.length_le (List.ne_nil_of_length_pos hpos)
  rw [List.length_replicate] at hle
  exact absurd hle (by decide)

end Arcturus.EndToEnd
