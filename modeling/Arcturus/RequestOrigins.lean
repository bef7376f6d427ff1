import Arcturus.PacketCargo

/-!
To which origins the requests in the packets of a worker go. The header of a packet is that
of the message it was made for. The messages that share it have the same hops, since these
make up the routing key, but they need not have the same port.
-/

namespace Arcturus.RequestOrigins

open TunnelPacket TunnelHandler TunnelSafety PacketCodec Overlay Routes BatchPacket Aggregator
open AggregatorParts Eviction PacketCargo
open StepRuns (run)

/-- Under a header with the hops of the route and this port, the last node finds the origin
where it looks for it, or finds no address at all. -/
def Suits (r : Route) (port : UInt16) : Prop :=
  r.hop 3 = 0 ∧ (r.hop 2 = 0 ∨ r.hop 2 = r.origin ∧ port = r.port) ∨
    r.hop 3 ≠ 0 ∧ r.hop 3 = r.origin ∧ port = r.port

theorem suits_iff {r : Route} {port : UInt16} :
    Suits r port ↔ askedAddress r = 0 ∨ askedAddress r = r.origin ∧ port = r.port := by
  unfold Suits askedAddress
  by_cases hzero : r.hop 3 = 0
  · simp [hzero]
  · simp [hzero]

/-- What can be read from a packet is all of its payload. -/
theorem wellFormed_of_decode {msg : AggregatorMsg} {bytes : List UInt8}
    (h : TunnelBytes msg bytes) (hne : decode bytes ≠ []) : WellFormed bytes (decode bytes) := by
  obtain ⟨p, q, -, hq, rfl⟩ := h
  have hlen := headerSize_le_serialized hq
  rcases parse_cases hlen with ⟨hdata, -, p', hparse⟩ | ⟨-, ⟨p', hparse⟩ | ⟨text, hparse⟩⟩
  · refine ⟨le_antisymm ?_ hdata.2, ?_, hdata.1⟩
    · rw [(header_serialized hq).payloadLen, List.length_take]
      obtain ⟨-, rfl⟩ := serializeHead_eq hq
      exact min_le_left _ _
    · unfold decode
      rw [hparse]
  · exact absurd (by simp only [decode, hparse]) hne
  · exact absurd (by simp only [decode, hparse]) hne

/-- A packet from which nothing can be read announces too few bytes. -/
theorem short_of_carries {cfg : Config} {taken ms : List AggregatorMsg} {f : Flush}
    (h : Carries cfg taken f ms) (hnone : decode f.buf = []) :
    (header f.buf).payloadLen.toNat < 7 := by
  have hlen := h.headerSize_le
  cases h with
  | hollow _ _ hshort => exact hshort
  | @filled first _ p q _ hne _ hp _ hq hbuf _ =>
    obtain ⟨q', hq', -, hsame, hexact⟩ := hp.sent_bytes (by simpa using hne)
    rw [hq, Except.ok.injEq] at hq'
    rw [← hq', ← hbuf] at hsame hexact
    by_contra hlong
    rcases parse_cases hlen with ⟨-, hsubs, p', hparse⟩ | ⟨hno, -⟩
    · refine hsubs ?_
      unfold decode at hnone
      rwa [hparse] at hnone
    · exact hno ⟨not_lt.mp hlong, by rw [hexact, hsame.payloadLen]⟩

/-- Nothing is submitted from a packet that announces too few bytes. -/
theorem ownOrigin_of_short {r : Route} {bytes : List UInt8}
    (hshort : (header bytes).payloadLen.toNat < 7) : OwnOrigin r bytes := by
  intro net visits hj a ha effects hhandle protocol task hmem
  have hpayload : (header a.pkt).payloadLen.toNat < 7 := by
    refine hj.forall (P := fun pkt => (header pkt).payloadLen.toNat < 7) ?_ hshort a ha
    intro a b hab ha
    rcases hop_spec hab with ⟨-, hsame⟩ | ⟨-, hsame, -⟩
    · rwa [hsame.payloadLen]
    · rwa [hsame]
  obtain ⟨-, -, ip, -, -, sub, hsub, -⟩ := submit_mem hhandle hmem
  have hnone : subPackets a.pkt = [] := by
    refine (readSubPackets_eq_nil_iff _).mpr ?_
    unfold payload
    rw [List.length_drop, List.length_take]
    omega
  rw [hnone] at hsub
  exact absurd hsub List.not_mem_nil

theorem requestFor_spec {r : Route} {msg : AggregatorMsg} (h : RequestFor r msg) :
    msg.routingKey = GoStrings.join (r.addresses.map Addresses.ipString) "," ∧
      msg.port = r.port := by
  obtain ⟨emerge, protocol, reqID, data, rfl, -⟩ := h.eq_message
  exact ⟨rfl, rfl⟩

/-- Routes with one routing key have the same addresses. -/
theorem hop_eq_of_key {r r' : Route} {m m' : AggregatorMsg} (h : RequestFor r m)
    (h' : RequestFor r' m') (hkey : m.routingKey = m'.routingKey) (i : ℕ) : r.hop i = r'.hop i := by
  rw [(requestFor_spec h).1, (requestFor_spec h').1] at hkey
  have haddr : r.addresses = r'.addresses :=
    join_ipString_injective (by simp [Route.addresses]) (by simp [Route.addresses]) hkey
  rw [Route.hop, haddr, Route.hop]

/-- The requests in a packet and the one it was made for reach their own origins exactly if
the hops of their route and the port of the latter lead there, or nothing can be read from
the packet. -/
theorem ownOrigin_of_carries {cfg : Config} {taken ms : List AggregatorMsg} {f : Flush}
    (hreq : ∀ m ∈ taken, ∃ r, RequestFor r m) (h : Carries cfg taken f ms) :
    ∃ first ∈ taken, TunnelBytes first f.buf ∧ ∀ m r, m = first ∨ m ∈ ms → RequestFor r m →
      (OwnOrigin r f.buf ↔ Suits r first.port ∨ decode f.buf = []) := by
  obtain ⟨first, hfirst, hbytes, hmates⟩ := h.maker
  refine ⟨first, hfirst, hbytes, fun m r hm hr => ?_⟩
  obtain ⟨r', hr'⟩ := hreq first hfirst
  have hkey : m.routingKey = first.routingKey := by
    rcases hm with rfl | hm
    · rfl
    · rcases hmates m hm with rfl | ⟨-, -, hkey⟩
      · rfl
      · exact hkey
  have ho := onRoute_of_tunnelBytes hr' hbytes
  have hasked : askedAddress r' = askedAddress r := by
    unfold askedAddress
    rw [hop_eq_of_key hr hr' hkey, hop_eq_of_key hr hr' hkey]
  rw [suits_iff, (requestFor_spec hr').2, ← hasked]
  refine ⟨fun hown => or_iff_not_imp_right.mpr fun hne => ?_, ?_⟩
  · exact asked_of_ownOrigin ho (wellFormed_of_decode hbytes hne) hne hown
  · rintro (hsuits | hnone)
    · exact ownOrigin_of_asked ho hsuits
    · exact ownOrigin_of_short (short_of_carries h hnone)

/-- The route 10.0.0.1, 10.0.0.2, 10.0.0.3, 10.0.0.4, 10.0.0.9:80. -/
def fiveHops : Route where
  nodes := [0x0A000001, 0x0A000002, 0x0A000003, 0x0A000004]
  origin := 0x0A000009
  port := 80
  long := by decide
  port_ne := eighty_ne_zero

/-- One byte on the route of five hops. -/
def farRequest : AggregatorMsg := fiveHops.message false "tcp" 7 [10]

/-- Two requests to two ports of one origin, which share a packet, and a request that is sent
alone on a route of five hops. -/
def mixedActions : List Eviction.Action :=
  (twoPorts ++ [Aggregator.Action.receive farRequest]).map Eviction.Action.work

theorem requestFor_mixedActions : ∀ m ∈ mixedActions.flatMap takes, ∃ r, RequestFor r m := by
  have hlist : mixedActions.flatMap takes = [request (routeTo 80 eighty_ne_zero) 1,
    request (routeTo 81 (by decide)) 2, farRequest] := rfl
  rw [hlist]
  simp only [List.forall_mem_cons, List.not_mem_nil, false_implies, implies_true, and_true]
  exact ⟨⟨_, requestFor_message _ _ _⟩, ⟨_, requestFor_message _ _ _⟩,
    ⟨_, requestFor_message _ _ _⟩⟩

/-- The headers that were sent, and what is in the packets. -/
theorem mixedActions_flushed :
    (run (Eviction.step smallBuffers) Evicting.start mixedActions).map
      (fun s => s.worker.flushed.map fun f =>
        ((header f.buf).port, (header f.buf).hopIP, (header f.buf).hopPos, decode f.buf)) =
      some [(80, #v[0x0A000101, 0x0A000102, 0x0A000103, 0], 1,
          [⟨1, List.replicate 128 10⟩, ⟨2, List.replicate 128 10⟩]),
        (80, #v[0x0A000001, 0x0A000002, 0x0A000003, 0x0A000004], 1, [⟨7, [10]⟩])] := by
  decide +kernel

end Arcturus.RequestOrigins
