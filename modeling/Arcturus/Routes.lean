import Arcturus.Overlay

/-!
From a route of the control plane to the header of a tunnel packet. The servers
cut the port off the last hop and hand the hops to the aggregator, which writes
the first four of them into the header. The route that a request takes and the
origin that the last node asks are compared for routes of any length. Rate limits
and log records are left out.
-/

namespace Arcturus.Routes

open GoStrings TunnelPacket TunnelHandler Addresses PacketCodec TunnelSafety Overlay

structure PathInfo where
  hops : List String
  deriving DecidableEq, Repr

/-- What a server does with one request. -/
inductive Request where
  | dropped
  | direct (originAddr : String)
  | batched (msg : AggregatorMsg)
  deriving DecidableEq, Repr

/-- The hops without ports, and the port that came last. A hop with a colon has at
least two parts. -/
def stripPorts (pathHops : List String) : List String × String :=
  pathHops.foldl (fun r h =>
    if Contains h ":" then
      let t := split h ":"
      (r.1 ++ [t.getD 0 ""], t.getD 1 "")
    else (r.1 ++ [h], r.2)) ([], "")

/-- The common tail of the servers: the request goes to the aggregator. -/
def addToBatch (emerge : Bool) (protocol : String) (pathInfo : PathInfo) (reqID : UInt32)
    (data : List UInt8) : Except Failure Request :=
  match pathInfo.hops[1]? with
  | none => .error .panic
  | some hop1 =>
    let nextHop := hopIPToNet hop1
    let (hops, port_) := stripPorts pathInfo.hops
    .ok (.batched { emerge, routingKey := join hops ",", protocol, port := parseUint16 port_,
                    hops, nextHop, userID := reqID, data })

/-- The first path with more than two hops, or the first path. -/
def choosePath (routing : List PathInfo) : Option PathInfo :=
  (routing.find? fun p => p.hops.length > 2).or routing.head?

def handleConnection (routing : List PathInfo) (reqID : UInt32) (data : List UInt8) :
    Except Failure Request :=
  match choosePath routing with
  | none => .ok .dropped
  | some pathInfo => addToBatch false "tcp" pathInfo reqID data

/-- One round of the loop over a kept connection, which an empty request ends. -/
def handleConnectionKeepAlive (routing : List PathInfo) (reqID : UInt32) (data : List UInt8) :
    Except Failure Request :=
  if data.length = 0 then .ok .dropped else handleConnection routing reqID data

/-- A path of at most two hops has no node in between and is asked directly. -/
def handleUDPConnection (routing : List PathInfo) (reqID : UInt32) (data : List UInt8) :
    Except Failure Request :=
  match routing with
  | [] => .ok .dropped
  | pathInfo :: _ =>
    if pathInfo.hops.length ≤ 2 then
      match pathInfo.hops.getLast? with
      | none => .error .panic
      | some originAddr => .ok (.direct originAddr)
    else addToBatch true "udp" pathInfo reqID data

/-- An empty packet with the header for a message. -/
def newBatchPacket (buffSize : ℕ) (msg : AggregatorMsg) : Packet :=
  let pkt := msg.hops.zipIdx.foldl (fun p h => p.setHopIP h.2 (hopIPToNet h.1)) (newPacket buffSize)
  ((pkt.setPort msg.port).setProtocol msg.protocol).setHopPos 1

/-- The address in a slot of the header for these hops. -/
def slot (hops : List String) (i : ℕ) : UInt32 := (hops[i]?.bind hopIPToNet).getD 0

/-- The four slots of the header for these hops. -/
def slots (hops : List String) : Vector UInt32 4 :=
  #v[slot hops 0, slot hops 1, slot hops 2, slot hops 3]

def protocolByte (protocol : String) : UInt8 := if protocol = "tcp" then 6 else 17

theorem setHopIP_hopIP (p : Packet) (n : ℕ) (ip : Option UInt32) {i : ℕ} (hi : i < 4) :
    (p.setHopIP n ip).hopIP[i] = if i = n then ip.getD p.hopIP[i] else p.hopIP[i] := by
  cases ip with
  | none => simp [Packet.setHopIP]
  | some w =>
    simp only [Packet.setHopIP, Vector.getElem_setIfInBounds, Option.getD_some, eq_comm]

theorem setHopIP_eq (p : Packet) (n : ℕ) (ip : Option UInt32) :
    p.setHopIP n ip = { p with hopIP := (p.setHopIP n ip).hopIP } := by
  cases ip <;> rfl

/-- The loop over the hops fills the slots from number `n` on. -/
theorem foldl_setHopIP_hopIP (hops : List String) (n : ℕ) (p : Packet) {i : ℕ} (hi : i < 4) :
    ((hops.zipIdx n).foldl (fun p h => p.setHopIP h.2 (hopIPToNet h.1)) p).hopIP[i] =
      if n ≤ i then (hops[i - n]?.bind hopIPToNet).getD p.hopIP[i] else p.hopIP[i] := by
  induction hops generalizing n p with
  | nil => simp
  | cons h hops ih =>
    rw [List.zipIdx_cons, List.foldl_cons, ih, setHopIP_hopIP p n _ hi]
    rcases Nat.lt_trichotomy n i with hlt | rfl | hgt
    · obtain ⟨k, rfl⟩ : ∃ k, i = n + 1 + k := ⟨i - (n + 1), by omega⟩
      have h1 : n + 1 + k - (n + 1) = k := by omega
      have h2 : n + 1 + k - n = k + 1 := by omega
      rw [if_pos (by omega), if_neg (by omega), if_pos (by omega), h1, h2, List.getElem?_cons_succ]
    · rw [if_neg (by omega), if_pos rfl, if_pos le_rfl, Nat.sub_self, List.getElem?_cons_zero,
        Option.bind_some]
    · rw [if_neg (by omega), if_neg (by omega), if_neg (by omega)]

theorem foldl_setHopIP_eq (hops : List (String × ℕ)) (p : Packet) :
    hops.foldl (fun p h => p.setHopIP h.2 (hopIPToNet h.1)) p =
      { p with hopIP := (hops.foldl (fun p h => p.setHopIP h.2 (hopIPToNet h.1)) p).hopIP } := by
  induction hops generalizing p with
  | nil => rfl
  | cons h hops ih =>
    rw [List.foldl_cons, ih, setHopIP_eq]

theorem newBatchPacket_eq (buffSize : ℕ) (msg : AggregatorMsg) :
    newBatchPacket buffSize msg =
      { newPacket buffSize with
        hopPos := 1
        hopIP := slots msg.hops
        port := msg.port
        protocol := protocolByte msg.protocol } := by
  have hslot : ∀ {i : ℕ} (hi : i < 4),
      (msg.hops.zipIdx.foldl (fun p h => p.setHopIP h.2 (hopIPToNet h.1))
        (newPacket buffSize)).hopIP[i] = slot msg.hops i := by
    intro i hi
    rw [foldl_setHopIP_hopIP _ _ _ hi, if_pos (Nat.zero_le i), Nat.sub_zero, slot]
    simp [newPacket]
  have hslots : (msg.hops.zipIdx.foldl (fun p h => p.setHopIP h.2 (hopIPToNet h.1))
      (newPacket buffSize)).hopIP = slots msg.hops :=
    (vector_eq (hslot _).symm (hslot _).symm (hslot _).symm (hslot _).symm).symm
  simp only [newBatchPacket]
  rw [foldl_setHopIP_eq, hslots, Packet.setPort, Packet.setProtocol]
  split
  · rename_i htcp
    unfold protocolByte
    rw [if_pos htcp]
    rfl
  · rename_i htcp
    unfold protocolByte
    rw [if_neg htcp]
    rfl

theorem newBatchPacket_buffSize (buffSize : ℕ) (msg : AggregatorMsg) :
    (newBatchPacket buffSize msg).buffSize = buffSize := by
  rw [newBatchPacket_eq]
  rfl

theorem newBatchPacket_wp (buffSize : ℕ) (msg : AggregatorMsg) :
    (newBatchPacket buffSize msg).wp = headerSize := by
  rw [newBatchPacket_eq]
  rfl

theorem newBatchPacket_payloadLen (buffSize : ℕ) (msg : AggregatorMsg) :
    (newBatchPacket buffSize msg).payloadLen = 0 := by
  rw [newBatchPacket_eq]
  rfl

/-- A route of three or more hops: dotted addresses, the last one with a port. -/
structure Route where
  nodes : List UInt32
  origin : UInt32
  port : UInt16
  long : 2 ≤ nodes.length
  port_ne : port ≠ 0

namespace Route

def addresses (r : Route) : List UInt32 := r.nodes ++ [r.origin]

/-- The address with number `i` on the route, zero beyond its end. -/
def hop (r : Route) (i : ℕ) : UInt32 := r.addresses[i]?.getD 0

def lastHop (r : Route) : String := ipString r.origin ++ ":" ++ toString r.port.toNat

/-- The route in the text form of the control plane. -/
def pathInfo (r : Route) : PathInfo := ⟨r.nodes.map ipString ++ [r.lastHop]⟩

/-- The message that a server makes of a request on this route. -/
def message (r : Route) (emerge : Bool) (protocol : String) (reqID : UInt32) (data : List UInt8) :
    AggregatorMsg where
  emerge := emerge
  routingKey := join (r.addresses.map ipString) ","
  protocol := protocol
  port := r.port
  hops := r.addresses.map ipString
  nextHop := some (r.hop 1)
  userID := reqID
  data := data

end Route

theorem stripPorts_nodes (nodes : List UInt32) (acc : List String) (port_ : String) :
    (nodes.map ipString).foldl (fun r h =>
      if Contains h ":" then
        let t := split h ":"
        (r.1 ++ [t.getD 0 ""], t.getD 1 "")
      else (r.1 ++ [h], r.2)) (acc, port_) = (acc ++ nodes.map ipString, port_) := by
  induction nodes generalizing acc with
  | nil => simp
  | cons a nodes ih =>
    rw [List.map_cons, List.foldl_cons, if_neg (ipString_no_colon a), ih]
    simp

theorem stripPorts_pathInfo (r : Route) :
    stripPorts r.pathInfo.hops = (r.addresses.map ipString, toString r.port.toNat) := by
  have hcolon : Contains r.lastHop ":" := by
    rw [contains_singleton_iff (c := ':') rfl, Route.lastHop]
    simp
  rw [stripPorts, Route.pathInfo, List.foldl_append, stripPorts_nodes, List.foldl_cons,
    if_pos hcolon, Route.lastHop, split_hostPort]
  simp [Route.addresses]

theorem addToBatch_pathInfo (r : Route) (emerge : Bool) (protocol : String) (reqID : UInt32)
    (data : List UInt8) :
    addToBatch emerge protocol r.pathInfo reqID data =
      .ok (.batched (r.message emerge protocol reqID data)) := by
  have hlong := r.long
  have hhop : r.pathInfo.hops[1]? = some (ipString (r.hop 1)) := by
    rw [Route.pathInfo, Route.hop, Route.addresses, List.getElem?_append_left (by simp; omega),
      List.getElem?_append_left (by omega), List.getElem?_map, List.getElem?_eq_getElem (by omega)]
    rfl
  unfold addToBatch
  rw [hhop]
  simp only [stripPorts_pathInfo, parseUint16_toString, hopIPToNet_ipString]
  rfl

/-- The message stems from a request for which a server took this route from the
answer of the control plane. -/
def RequestFor (r : Route) (msg : AggregatorMsg) : Prop :=
  ∃ routing reqID data,
    choosePath routing = some r.pathInfo ∧
      handleConnection routing reqID data = .ok (.batched msg) ∨
    routing.head? = some r.pathInfo ∧
      handleUDPConnection routing reqID data = .ok (.batched msg)

theorem handleConnection_route {routing : List PathInfo} {r : Route} (reqID : UInt32)
    (data : List UInt8) (h : choosePath routing = some r.pathInfo) :
    handleConnection routing reqID data = .ok (.batched (r.message false "tcp" reqID data)) := by
  unfold handleConnection
  rw [h]
  exact addToBatch_pathInfo ..

theorem handleUDPConnection_route {routing : List PathInfo} {r : Route} (reqID : UInt32)
    (data : List UInt8) (h : routing.head? = some r.pathInfo) :
    handleUDPConnection routing reqID data = .ok (.batched (r.message true "udp" reqID data)) := by
  have hlong := r.long
  obtain ⟨rest, rfl⟩ := List.head?_eq_some_iff.mp h
  rw [handleUDPConnection, if_neg (by simp [Route.pathInfo]; omega)]
  exact addToBatch_pathInfo ..

theorem RequestFor.eq_message {r : Route} {msg : AggregatorMsg} (h : RequestFor r msg) :
    ∃ emerge protocol reqID data, msg = r.message emerge protocol reqID data ∧
      (protocol = "tcp" ∨ protocol = "udp") := by
  obtain ⟨routing, reqID, data, ⟨hpath, hmsg⟩ | ⟨hpath, hmsg⟩⟩ := h
  · rw [handleConnection_route reqID data hpath, Except.ok.injEq, Request.batched.injEq] at hmsg
    exact ⟨_, _, _, _, hmsg.symm, Or.inl rfl⟩
  · rw [handleUDPConnection_route reqID data hpath, Except.ok.injEq, Request.batched.injEq] at hmsg
    exact ⟨_, _, _, _, hmsg.symm, Or.inr rfl⟩

theorem slot_map_ipString (l : List UInt32) (i : ℕ) : slot (l.map ipString) i = l[i]?.getD 0 := by
  unfold slot
  rw [List.getElem?_map]
  cases l[i]? with
  | none => rfl
  | some a => simp [hopIPToNet_ipString]

/-- A packet of the announced length with these sub-packets, at least one. -/
structure WellFormed (pkt : List UInt8) (subs : List SubPacket) : Prop where
  exact_length : pkt.length = headerSize + (header pkt).payloadLen.toNat
  subPackets_eq : subPackets pkt = subs
  hasData : 7 ≤ (header pkt).payloadLen.toNat

theorem subPackets_encoded {p : Packet} {pad : List UInt8} {subs : List SubPacket}
    (hpad : pad.length = 2) (hc : p.payloadLen.toNat = (encode subs).length) (hne : subs ≠ [])
    (hdata : ∀ s ∈ subs, s.data ≠ []) :
    SameHeader (header (p.headBytes ++ pad ++ encode subs)) p ∧
      WellFormed (p.headBytes ++ pad ++ encode subs) subs := by
  generalize hpkt : p.headBytes ++ pad ++ encode subs = pkt
  have hlen : pkt.length = headerSize + (encode subs).length := by
    simp only [← hpkt, List.length_append, length_headBytes, hpad, headerSize]
  have hsame : SameHeader (header pkt) p := by
    obtain ⟨h, hparse, hsame⟩ := @parseHeader_encoded p pad (encode subs) hpad
    rw [hpkt, parseHeader_eq (by omega), Except.ok.injEq] at hparse
    exact hparse ▸ hsame
  have hcount : (header pkt).payloadLen.toNat = (encode subs).length := by
    rw [hsame.payloadLen, hc]
  obtain ⟨s, hs⟩ := List.exists_mem_of_ne_nil _ hne
  have hseven : 7 ≤ (encode subs).length := by
    have hle := length_data_le hs
    have hpos := List.length_pos_iff.mpr (hdata s hs)
    omega
  have hlow : headerSize ≤ pkt.length := by omega
  refine ⟨hsame, by omega, ?_, by omega⟩
  obtain ⟨p', hparse, -⟩ := parse_encoded hpad hc hdata hlen.symm.le
  rw [hpkt] at hparse
  rcases parse_cases hlow with ⟨-, -, q, hq⟩ | ⟨hno, -⟩
  · rw [hparse, Except.ok.injEq, Prod.mk.injEq] at hq
    exact hq.2.symm
  · exact absurd ⟨by omega, by omega⟩ hno

theorem subPackets_cons (b c : UInt8) (rest : List UInt8) :
    subPackets (b :: rest) = subPackets (c :: rest) := by
  have hpayload : payload (b :: rest) = payload (c :: rest) := by
    rw [payload, payload, List.drop_take, List.drop_take]
    rfl
  rw [subPackets, hpayload, subPackets]

theorem WellFormed.advance {pkt : List UInt8} {subs : List SubPacket} (h : WellFormed pkt subs) :
    WellFormed (advanceRawHop pkt) subs := by
  have hlen := h.exact_length
  rw [advanceRawHop_eq (by omega)]
  split
  · cases pkt with
    | nil => exact absurd hlen (by simp [headerSize]; omega)
    | cons b rest =>
      exact ⟨h.exact_length, (subPackets_cons _ _ _).trans h.subPackets_eq, h.hasData⟩
  · exact h

theorem WellFormed.receive {pkt : List UInt8} {subs : List SubPacket} (h : WellFormed pkt subs) :
    receive pkt = some pkt := receive_self h.exact_length

theorem WellFormed.hasData_self {pkt : List UInt8} {subs : List SubPacket}
    (h : WellFormed pkt subs) : headerSize ≤ pkt.length ∧ HasData pkt := by
  have hlen := h.exact_length
  exact ⟨by omega, h.hasData, by omega⟩

/-- At its last hop every sub-packet of a request becomes one task. -/
theorem WellFormed.handle_request {pkt : List UInt8} {subs : List SubPacket} {ip : UInt32}
    (h : WellFormed pkt subs) (hport : (header pkt).port ≠ 0) (hend : RequestEnds (header pkt))
    (hip : (header pkt).hopIP[(header pkt).hopPos.toNat + 1]? = some ip) (hne : ip ≠ 0) :
    handleQUICPacket pkt = .ok (subs.map fun sub =>
      .submit (protocolName (header pkt)) (originTask (header pkt) ip sub)) := by
  obtain ⟨hlen, hdata⟩ := h.hasData_self
  obtain ⟨hlt, rfl⟩ := Vector.getElem?_eq_some_iff.mp hip
  rw [handleQUICPacket_eq hlen, if_pos hport, if_pos hend, submitAll_eq hlen hlt,
    if_pos ⟨hdata, hne⟩, h.subPackets_eq]

/-- At its last hop every sub-packet of a response is delivered. -/
theorem WellFormed.handle_response {pkt : List UInt8} {subs : List SubPacket}
    (h : WellFormed pkt subs) (hport : (header pkt).port = 0) (hend : ResponseEnds (header pkt)) :
    handleQUICPacket pkt = .ok (subs.map fun sub => .deliver sub.userID sub.data) := by
  obtain ⟨hlen, hdata⟩ := h.hasData_self
  rw [handleQUICPacket_eq hlen, if_neg (not_not.mpr hport), if_pos hend, deliverAll_eq hlen,
    if_pos hdata, h.subPackets_eq]

/-- The bytes of a packet with the header for a message, whatever has been appended. -/
def TunnelBytes (msg : AggregatorMsg) (bytes : List UInt8) : Prop :=
  ∃ p q, SameRoute p (newBatchPacket p.buffSize msg) ∧ p.serializeHead = .ok q ∧
    bytes = q.buf.take q.totalBytes

theorem header_serialized {p q : Packet} (h : p.serializeHead = .ok q) :
    SameHeader (header (q.buf.take q.totalBytes)) p := by
  obtain ⟨pad, hpad, htake⟩ := serializeHead_take h le_rfl
  have hhead : header (q.buf.take q.totalBytes) =
      header (p.headBytes ++ (pad ++ (p.buf.take headerSize).drop headerSize)) := by
    apply header_congr
    rw [List.take_take, Nat.min_eq_left (by simp [Packet.totalBytes]), htake, ← List.append_assoc,
      ← htake, List.take_take, Nat.min_self]
  rw [hhead, header, List.take_append, List.take_of_length_le (by simp [headerSize])]
  exact readHeader_headBytes ..

theorem header_tunnelBytes {msg : AggregatorMsg} {bytes : List UInt8} (h : TunnelBytes msg bytes) :
    (header bytes).hopPos = 1 ∧ (header bytes).hopIP = slots msg.hops ∧
      (header bytes).port = msg.port ∧ (header bytes).protocol = protocolByte msg.protocol := by
  obtain ⟨p, q, hroute, hq, rfl⟩ := h
  rw [newBatchPacket_eq] at hroute
  have hsame := header_serialized hq
  exact ⟨hsame.hopPos.trans hroute.hopPos, hsame.hopIP.trans hroute.hopIP,
    hsame.port.trans hroute.port, hsame.protocol.trans hroute.protocol⟩

/-- A packet that holds some sub-packets and counts their bytes is sent as it should be. -/
theorem tunnelBytes_of_holds {msg : AggregatorMsg} {p : Packet} {subs : List SubPacket}
    (hroute : SameRoute p (newBatchPacket p.buffSize msg)) (hp : Holds p subs) (hc : Counted p)
    (hne : subs ≠ []) :
    ∃ q, p.serializeHead = .ok q ∧ TunnelBytes msg (q.buf.take q.totalBytes) ∧
      WellFormed (q.buf.take q.totalBytes) subs := by
  have hok := serializeHead_ok hp
  obtain ⟨pad, hpad, hbytes⟩ := serialized_eq hp hc hok
  refine ⟨_, hok, ⟨p, _, hroute, hok, rfl⟩, ?_⟩
  rw [hbytes]
  refine (subPackets_encoded hpad ?_ hne hp.nonempty).2
  rw [hc, hp.wp, Nat.add_sub_cancel_left]

theorem newBatchPacket_holds {buffSize : ℕ} (h : headerSize ≤ buffSize) (msg : AggregatorMsg) :
    Holds (newBatchPacket buffSize msg) [] ∧ Counted (newBatchPacket buffSize msg) := by
  rw [newBatchPacket_eq]
  exact ⟨(holds_newPacket h).congr rfl rfl rfl, counted_newPacket buffSize⟩

/-- What holds of a request on its way: it is at its first or second relay, and goes
to the second one only if the fourth slot is filled. -/
structure OnRoute (r : Route) (h : Packet) : Prop where
  port : h.port = r.port
  hopIP : h.hopIP = #v[r.hop 0, r.hop 1, r.hop 2, r.hop 3]
  pos : h.hopPos = 1 ∨ h.hopPos = 2 ∧ r.hop 3 ≠ 0

theorem OnRoute.ends_iff {r : Route} {h : Packet} (ho : OnRoute r h) :
    Ends h ↔ h.hopPos = 1 ∧ r.hop 3 = 0 ∨ h.hopPos = 2 := by
  unfold Ends
  rw [if_pos (ho.port ▸ r.port_ne), RequestEnds, EndsHere]
  rcases ho.pos with hpos | ⟨hpos, -⟩
  · rw [hpos, SlotEmpty, ho.hopIP]
    have hslot : #v[r.hop 0, r.hop 1, r.hop 2, r.hop 3][(1 : UInt8).toNat + (2 : UInt8).toNat]? =
      some (r.hop 3) := rfl
    rw [hslot, Option.some.injEq]
    simp
  · simp [hpos]

/-- The address that the last node of a route asks: the third or the fourth. -/
def askedAddress (r : Route) : UInt32 := if r.hop 3 = 0 then r.hop 2 else r.hop 3

theorem OnRoute.asked {r : Route} {h : Packet} (ho : OnRoute r h) (hend : Ends h) :
    h.hopIP[h.hopPos.toNat + 1]? = some (askedAddress r) := by
  rw [ho.hopIP]
  rcases ho.ends_iff.mp hend with ⟨hone, hzero⟩ | htwo
  · rw [hone, askedAddress, if_pos hzero]
    rfl
  · rcases ho.pos with hone | ⟨-, hfull⟩
    · rw [htwo] at hone
      exact absurd hone (by decide)
    · rw [htwo, askedAddress, if_neg hfull]
      rfl

/-- A relay is at the second address of the route and sends the packet to the third. -/
theorem OnRoute.relay {r : Route} {pkt : List UInt8} (ho : OnRoute r (header pkt))
    (hlen : headerSize ≤ pkt.length) (hend : ¬ Ends (header pkt)) :
    handleQUICPacket pkt = .ok [.send (r.hop 2) (advanceRawHop pkt)] ∧
      OnRoute r (header (advanceRawHop pkt)) ∧ Ends (header (advanceRawHop pkt)) := by
  have hno := hend
  rw [ho.ends_iff, not_or, not_and] at hno
  have hpos : (header pkt).hopPos = 1 := ho.pos.resolve_right fun h2 => hno.2 h2.1
  have hsame := header_advanceRawHop hlen (by rw [hpos]; decide)
  have htwo : (header (advanceRawHop pkt)).hopPos = 2 := by
    rw [hsame.hopPos]
    change (header pkt).hopPos + 1 = 2
    rw [hpos]
    rfl
  have hnext : OnRoute r (header (advanceRawHop pkt)) :=
    ⟨hsame.port.trans ho.port, hsame.hopIP.trans ho.hopIP, Or.inr ⟨htwo, hno.1 hpos⟩⟩
  refine ⟨handle_eq_send_iff.mpr ⟨hlen, hend, ?_, rfl⟩, hnext, hnext.ends_iff.mpr (Or.inr htwo)⟩
  rw [hpos, ho.hopIP]
  rfl

theorem hop_onRoute {r : Route} {net : Set UInt32} {a b : Arrival} (h : Hop net a b)
    (ha : OnRoute r (header a.pkt)) : OnRoute r (header b.pkt) := by
  obtain ⟨-, out, stream, hsend, -⟩ := id h
  obtain ⟨hlen, hend, -⟩ := handle_eq_send_iff.mp hsend
  obtain ⟨-, hnext, -⟩ := ha.relay hlen hend
  rcases hop_spec h with ⟨hpos, hsame⟩ | ⟨h255, -⟩
  · have hadv := header_advanceRawHop hlen hpos
    refine ⟨hsame.port.trans ha.port, hsame.hopIP.trans ha.hopIP, ?_⟩
    rw [hsame.hopPos, ← hadv.hopPos]
    exact hnext.pos
  · rcases ha.pos with hone | ⟨htwo, -⟩
    · rw [hone] at h255
      exact absurd h255 (by decide)
    · rw [htwo] at h255
      exact absurd h255 (by decide)

theorem journey_onRoute {r : Route} {net : Set UInt32} {bytes : List UInt8} {visits : List Arrival}
    (hj : Journey net bytes visits) (ho : OnRoute r (header bytes)) :
    ∀ a ∈ visits, OnRoute r (header a.pkt) :=
  hj.forall (P := fun pkt => OnRoute r (header pkt)) (fun _ _ hab ha => hop_onRoute hab ha) ho

theorem originAddr_of_submit {r : Route} {pkt : List UInt8} {effects : List Effect}
    {protocol : String} {task : BackSourceTask} (ho : OnRoute r (header pkt))
    (h : handleQUICPacket pkt = .ok effects) (hmem : .submit protocol task ∈ effects) :
    askedAddress r ≠ 0 ∧
      task.originAddr = ipString (askedAddress r) ++ ":" ++ toString r.port.toNat := by
  obtain ⟨hport, hend, ip, hip, hne, sub, -, rfl⟩ := submit_mem h hmem
  have hends : Ends (header pkt) := by
    unfold Ends
    rw [if_pos hport]
    exact hend
  have hasked : ip = askedAddress r := by
    rw [ho.asked hends] at hip
    exact (Option.some.inj hip).symm
  refine ⟨hasked ▸ hne, ?_⟩
  unfold originTask
  simp only [joinHostPort_ipString, ho.port, hasked]

theorem onRoute_of_tunnelBytes {r : Route} {msg : AggregatorMsg} {bytes : List UInt8}
    (hmsg : RequestFor r msg) (h : TunnelBytes msg bytes) : OnRoute r (header bytes) := by
  obtain ⟨emerge, protocol, reqID, data, rfl, -⟩ := hmsg.eq_message
  obtain ⟨hpos, hhops, hport, -⟩ := header_tunnelBytes h
  refine ⟨hport, ?_, Or.inl hpos⟩
  rw [hhops]
  simp only [slots, Route.message, slot_map_ipString]
  rfl

/-- Whichever node hands sub-packets of these bytes to an origin, it names the last hop of
the route. -/
def OwnOrigin (r : Route) (bytes : List UInt8) : Prop :=
  ∀ net visits, Journey net bytes visits → ∀ a ∈ visits, ∀ effects,
    handleQUICPacket a.pkt = .ok effects → ∀ protocol task, .submit protocol task ∈ effects →
      task.originAddr = r.lastHop

theorem lastHop_eq_iff {r : Route} {ip : UInt32} {port : UInt16} :
    ipString ip ++ ":" ++ toString port.toNat = r.lastHop ↔ ip = r.origin ∧ port = r.port := by
  constructor
  · intro h
    have hsplit := congrArg (split · ":") h
    simp only [Route.lastHop, split_hostPort, List.cons.injEq, and_true] at hsplit
    refine ⟨ipString_injective hsplit.1, ?_⟩
    rw [← parseUint16_toString port, hsplit.2, parseUint16_toString]
  · rintro ⟨rfl, rfl⟩
    rfl

/-- Packets on a route reach the origin of another one with the same address to ask and the
same port. -/
theorem ownOrigin_of_asked {r r' : Route} {bytes : List UInt8} (ho : OnRoute r' (header bytes))
    (h : askedAddress r' = 0 ∨ askedAddress r' = r.origin ∧ r'.port = r.port) :
    OwnOrigin r bytes := by
  intro net visits hj a ha effects hhandle protocol task hmem
  obtain ⟨hne, haddr⟩ := originAddr_of_submit (journey_onRoute hj ho a ha) hhandle hmem
  rw [haddr, lastHop_eq_iff]
  exact h.resolve_left hne

/-- At the last node every sub-packet becomes a task for the address asked. -/
theorem OnRoute.submit {r : Route} {pkt : List UInt8} {subs : List SubPacket}
    (ho : OnRoute r (header pkt)) (hw : WellFormed pkt subs) (hend : Ends (header pkt))
    (hne : askedAddress r ≠ 0) :
    handleQUICPacket pkt = .ok (subs.map fun sub =>
      .submit (protocolName (header pkt)) (originTask (header pkt) (askedAddress r) sub)) := by
  have hport : (header pkt).port ≠ 0 := ho.port ▸ r.port_ne
  have hasked := ho.asked hend
  unfold Ends at hend
  rw [if_pos hport] at hend
  exact hw.handle_request hport hend hasked hne

/-- Some node hands the sub-packets over, unless the address to ask is zero. -/
theorem exists_submit {r : Route} {bytes : List UInt8} {subs : List SubPacket}
    (ho : OnRoute r (header bytes)) (hw : WellFormed bytes subs) (hsubs : subs ≠ [])
    (hne : askedAddress r ≠ 0) :
    ∃ visits a effects protocol task, Journey Set.univ bytes visits ∧ a ∈ visits ∧
      handleQUICPacket a.pkt = .ok effects ∧ .submit protocol task ∈ effects := by
  obtain ⟨sub, hsub⟩ := List.exists_mem_of_ne_nil subs hsubs
  by_cases hend : Ends (header bytes)
  · exact ⟨[⟨0, bytes⟩], ⟨0, bytes⟩, _, _, _, ⟨rfl, fun _ _ => trivial, .singleton _⟩,
      List.mem_singleton.mpr rfl, ho.submit hw hend hne, List.mem_map_of_mem hsub⟩
  · obtain ⟨hsend, hnext, hlast⟩ := ho.relay hw.hasData_self.1 hend
    have hhop : Hop Set.univ ⟨0, bytes⟩ ⟨r.hop 2, advanceRawHop bytes⟩ :=
      ⟨trivial, _, _, hsend, List.prefix_refl _, hw.advance.receive⟩
    exact ⟨[⟨0, bytes⟩, ⟨r.hop 2, advanceRawHop bytes⟩], ⟨r.hop 2, advanceRawHop bytes⟩, _, _, _,
      ⟨rfl, fun _ _ => trivial, .cons_cons hhop (.singleton _)⟩,
      List.mem_cons_of_mem _ (List.mem_singleton.mpr rfl), hnext.submit hw.advance hlast hne,
      List.mem_map_of_mem hsub⟩

theorem asked_of_ownOrigin {r r' : Route} {bytes : List UInt8} {subs : List SubPacket}
    (ho : OnRoute r' (header bytes)) (hw : WellFormed bytes subs) (hsubs : subs ≠ [])
    (h : OwnOrigin r bytes) :
    askedAddress r' = 0 ∨ askedAddress r' = r.origin ∧ r'.port = r.port := by
  by_cases hzero : askedAddress r' = 0
  · exact Or.inl hzero
  · obtain ⟨visits, a, effects, protocol, task, hj, ha, hhandle, hmem⟩ :=
      exists_submit ho hw hsubs hzero
    have hlast := h _ visits hj a ha effects hhandle protocol task hmem
    rw [(originAddr_of_submit (journey_onRoute hj ho a ha) hhandle hmem).2, lastHop_eq_iff] at hlast
    exact Or.inr hlast

theorem requestFor_message (r : Route) (reqID : UInt32) (data : List UInt8) :
    RequestFor r (r.message false "tcp" reqID data) := by
  have hpath : choosePath [r.pathInfo] = some r.pathInfo := by
    unfold choosePath
    rw [List.find?_singleton]
    split <;> rfl
  exact ⟨[r.pathInfo], reqID, data, Or.inl ⟨hpath, handleConnection_route reqID data hpath⟩⟩

theorem join_ipString_injective {l l' : List UInt32} (hne : l ≠ []) (hne' : l' ≠ [])
    (h : join (l.map ipString) "," = join (l'.map ipString) ",") : l = l' := by
  have hcomma : ∀ l : List UInt32, ∀ hop ∈ l.map ipString, ¬ Contains hop "," := by
    intro l hop hhop
    obtain ⟨ip, -, rfl⟩ := List.mem_map.mp hhop
    exact ipString_no_comma ip
  exact List.map_injective_iff.mpr (fun _ _ => ipString_injective)
    (join_injective comma_borderFree (by simpa using hne) (by simpa using hne') (hcomma l)
      (hcomma l') h)

theorem eighty_ne_zero : (80 : UInt16) ≠ 0 := by decide

end Arcturus.Routes
