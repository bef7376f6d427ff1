import Arcturus.PacketCargo
import Arcturus.RouteCache

/-!
Requests and responses in the tunnel are told apart by the port in the header, which is
zero in a response. The servers take the port of a request from the last hop of its route
that has one, wherever it stands, and take no port from the one they listen on. So a
request to an origin without a port carries the port of some node on the way, or none. A
packet has the port of the request it was made for, which others with the same hops share.
-/

namespace Arcturus.PacketDirection

open GoMaps GoStrings TunnelPacket TunnelHandler TunnelSafety Addresses Routes RouteCache
open Aggregator hiding run
open BatchPacket AggregatorParts Eviction PacketCargo
open StepRuns (run)

/-- A hop with or without a port. -/
structure Hop where
  ip : String
  port : Option UInt16
  no_colon : ¬ Contains ip ":"
  no_comma : ¬ Contains ip ","

def Hop.text (h : Hop) : String :=
  match h.port with
  | none => h.ip
  | some port => h.ip ++ ":" ++ toString port.toNat

/-- A route from a node of the overlay to an origin. -/
structure Path where
  nodes : List Hop
  origin : Hop
  nonempty : nodes ≠ []

namespace Path

def hops (p : Path) : List Hop := p.nodes ++ [p.origin]

/-- The route in the text form of the control plane. -/
def pathInfo (p : Path) : PathInfo := ⟨p.hops.map Hop.text⟩

/-- The port that a request on the route is meant for. -/
def wantedPort (p : Path) (listening : UInt16) : UInt16 := p.origin.port.getD listening

end Path

/-- The last port among these hops. -/
def lastPort (hops : List Hop) : Option UInt16 := (hops.filterMap Hop.port).getLast?

/-- A server makes this message of a request for which it took this route. -/
def RequestOn (p : Path) (msg : AggregatorMsg) : Prop :=
  ∃ routing reqID data,
    choosePath routing = some p.pathInfo ∧
      (handleConnection routing reqID data = .ok (.batched msg) ∨
        handleConnectionKeepAlive routing reqID data = .ok (.batched msg)) ∨
    routing.head? = some p.pathInfo ∧
      handleUDPConnection routing reqID data = .ok (.batched msg)

/-- The last port on the route that a packet was made for is the one that a request on the
route `p` is meant for, and it is not zero. -/
def NamesPort (maker p : Path) (listening : UInt16) : Prop :=
  lastPort maker.hops = some (p.wantedPort listening) ∧ p.wantedPort listening ≠ 0

section Texts
variable {h : Hop}

theorem text_of_no_port (hport : h.port = none) : ¬ Contains h.text ":" := by
  unfold Hop.text
  rw [hport]
  exact h.no_colon

theorem text_of_port {port : UInt16} (hport : h.port = some port) :
    Contains h.text ":" ∧ split h.text ":" = [h.ip, toString port.toNat] := by
  have htext : h.text = join [h.ip, toString port.toNat] ":" := by
    unfold Hop.text
    rw [hport]
    rfl
  refine ⟨?_, ?_⟩
  · rw [contains_singleton_iff (c := ':') rfl, Hop.text, hport]
    simp
  · rw [htext]
    apply split_join colon_borderFree _ (by simp)
    intro part hpart
    rcases List.mem_pair.mp hpart with rfl | rfl
    · exact h.no_colon
    · exact toString_no_colon _

theorem text_no_comma (h : Hop) : ¬ Contains h.text "," := by
  rw [contains_singleton_iff (c := ',') rfl]
  have hip := h.no_comma
  rw [contains_singleton_iff (c := ',') rfl] at hip
  unfold Hop.text
  split
  · exact hip
  · rename_i port _
    have hdigits : ',' ∉ (toString port.toNat).toList := by
      intro hmem
      have hdigit := isDigit_toString hmem
      simp at hdigit
    simp only [String.toList_append, List.mem_append, not_or]
    exact ⟨⟨hip, by decide⟩, hdigits⟩

end Texts

/-- The loop over the hops ends with the port that came last. -/
theorem stripPorts_port (hops : List Hop) :
    (stripPorts (hops.map Hop.text)).2 =
      (lastPort hops).elim "" fun port => toString port.toNat := by
  induction hops using List.reverseRecOn with
  | nil => rfl
  | append_singleton hops h ih =>
    unfold stripPorts
    rw [List.map_append, List.foldl_append, ← stripPorts]
    unfold lastPort
    rw [List.filterMap_append]
    cases hport : h.port with
    | none =>
      have hplain := text_of_no_port hport
      simp only [List.map_cons, List.map_nil, List.foldl_cons, List.foldl_nil, if_neg hplain, ih]
      simp [lastPort, hport]
    | some port =>
      obtain ⟨hcolon, hsplit⟩ := text_of_port hport
      simp only [List.map_cons, List.map_nil, List.foldl_cons, List.foldl_nil, if_pos hcolon,
        hsplit]
      simp [hport]

theorem addToBatch_port {p : Path} {emerge : Bool} {protocol : String} {reqID : UInt32}
    {data : List UInt8} {msg : AggregatorMsg}
    (h : addToBatch emerge protocol p.pathInfo reqID data = .ok (.batched msg)) :
    msg.port = (lastPort p.hops).getD 0 := by
  unfold addToBatch at h
  split at h
  · simp at h
  · rw [Except.ok.injEq, Request.batched.injEq] at h
    subst h
    simp only [Path.pathInfo, stripPorts_port]
    cases lastPort p.hops with
    | none => rfl
    | some port => exact parseUint16_toString port

theorem handleConnection_port {routing : List PathInfo} {p : Path} {reqID : UInt32}
    {data : List UInt8} {msg : AggregatorMsg} (hpath : choosePath routing = some p.pathInfo)
    (h : handleConnection routing reqID data = .ok (.batched msg)) :
    msg.port = (lastPort p.hops).getD 0 := by
  unfold handleConnection at h
  rw [hpath] at h
  exact addToBatch_port h

/-- Every server takes the last port of the route. -/
theorem RequestOn.port {p : Path} {msg : AggregatorMsg} (h : RequestOn p msg) :
    msg.port = (lastPort p.hops).getD 0 := by
  obtain ⟨routing, reqID, data, ⟨hpath, htcp | hkept⟩ | ⟨hpath, hudp⟩⟩ := h
  · exact handleConnection_port hpath htcp
  · unfold handleConnectionKeepAlive at hkept
    split at hkept
    · simp at hkept
    · exact handleConnection_port hpath hkept
  · obtain ⟨rest, rfl⟩ := List.head?_eq_some_iff.mp hpath
    unfold handleUDPConnection at hudp
    simp only at hudp
    split at hudp
    · split at hudp <;> simp at hudp
    · exact addToBatch_port hudp

/-- The message that a TCP server makes of a request on the route. -/
def Path.message (p : Path) (reqID : UInt32) (data : List UInt8) : AggregatorMsg where
  emerge := false
  routingKey := join (stripPorts p.pathInfo.hops).1 ","
  protocol := "tcp"
  port := parseUint16 (stripPorts p.pathInfo.hops).2
  hops := (stripPorts p.pathInfo.hops).1
  nextHop := hopIPToNet (p.pathInfo.hops[1]?.getD "")
  userID := reqID
  data := data

theorem requestOn_message (p : Path) (reqID : UInt32) (data : List UInt8) :
    RequestOn p (p.message reqID data) := by
  have hlength : 1 < p.pathInfo.hops.length := by
    have hpos := List.length_pos_iff.mpr p.nonempty
    simp only [Path.pathInfo, Path.hops, List.length_map, List.length_append, List.length_cons,
      List.length_nil]
    omega
  have hpath : choosePath [p.pathInfo] = some p.pathInfo := by
    unfold choosePath
    by_cases hlong : p.pathInfo.hops.length > 2
    · simp [hlong]
    · simp [hlong]
  refine ⟨[p.pathInfo], reqID, data, Or.inl ⟨hpath, Or.inl ?_⟩⟩
  unfold handleConnection
  rw [hpath]
  simp only [addToBatch, Path.message, List.getElem?_eq_getElem hlength, Option.getD_some]

/-- What this says of a packet of the request's own. -/
theorem namesPort_self_iff (p : Path) (listening : UInt16) :
    NamesPort p p listening ↔ match p.origin.port with
      | some port => port ≠ 0
      | none => lastPort p.nodes = some listening ∧ listening ≠ 0 := by
  unfold NamesPort Path.wantedPort lastPort Path.hops
  rw [List.filterMap_append]
  cases hport : p.origin.port with
  | none => simp [hport]
  | some port => simp [hport]

theorem getD_eq_iff {port : Option UInt16} {wanted : UInt16} :
    (port.getD 0 = wanted ∧ port.getD 0 ≠ 0) ↔ port = some wanted ∧ wanted ≠ 0 := by
  cases port with
  | none => simp
  | some port =>
    simp only [Option.getD_some, Option.some.injEq]
    exact and_congr_right fun heq => by rw [heq]

theorem response_port {task : BackSourceTask} {resp : Option (List UInt8)} {msg : AggregatorMsg}
    (h : doOriginRequest task resp = .ok (some msg)) : msg.port = 0 := by
  unfold doOriginRequest at h
  split at h
  · simp at h
  · split at h
    · simp at h
    · simp only at h
      split at h
      · simp at h
      · rw [Except.ok.injEq, Option.some.injEq] at h
        rw [← h]

/-- In every run of a worker on requests, a packet carries the port that a message in it is
meant for, and not zero, exactly if the route of the request that the packet was made for
names this port; in every run on responses the packets carry zero. -/
theorem toldApart_iff {cfg : Aggregator.Config} {actions : List Eviction.Action} {s : Evicting}
    (hrun : run (Eviction.step cfg) Evicting.start actions = some s) :
    ((∀ m ∈ actions.flatMap takes, ∃ p, RequestOn p m) →
      ∃ g, Ledger cfg g s.worker ∧ g.taken = actions.flatMap takes ∧
        ∀ f ms, (f, ms) ∈ s.worker.flushed.zip g.sent →
          ∃ first ∈ g.taken, TunnelBytes first f.buf ∧
            (∀ m ∈ ms, m = first ∨ m.routingKey = first.routingKey) ∧
            ∀ maker m p listening, RequestOn maker first → m = first ∨ m ∈ ms → RequestOn p m →
              (((header f.buf).port = p.wantedPort listening ∧ (header f.buf).port ≠ 0) ↔
                NamesPort maker p listening)) ∧
      ((∀ m ∈ actions.flatMap takes, ∃ task resp, doOriginRequest task resp = .ok (some m)) →
        ∀ f ∈ s.worker.flushed, (header f.buf).port = 0) := by
  obtain ⟨g, hledger, htaken⟩ := ledger_run hrun
  refine ⟨fun hreq => ⟨g, hledger, htaken, fun f ms hmem => ?_⟩, fun hresp f hf => ?_⟩
  · obtain ⟨first, hfirst, hbytes, hmates⟩ :=
      ((List.forall₂_iff_zip.mp hledger.sent).2 hmem).maker
    refine ⟨first, hfirst, hbytes, fun m hm => (hmates m hm).imp_right fun h => h.2.2, ?_⟩
    intro maker m p listening hmaker _ _
    rw [(header_tunnelBytes hbytes).2.2.1, hmaker.port]
    exact getD_eq_iff
  · obtain ⟨first, hfirst, hbytes⟩ := hledger.maker hf
    obtain ⟨task, resp, hmade⟩ := hresp first (htaken ▸ hfirst)
    rw [(header_tunnelBytes hbytes).2.2.1, response_port hmade]

/-- A test route that begins at this node is the route of its port. -/
theorem testRouting_path {config : RouteCache.Config} {port : ℤ} {p : Path}
    (hport : port ∈ config.testPathMap.keys)
    (htext : config.testPathMap.val port = join p.pathInfo.hops ",")
    (hfirst : p.pathInfo.hops.head? = some config.publicIP) :
    testRouting config port = some ⟨[p.pathInfo]⟩ := by
  have hne : p.pathInfo.hops ≠ [] := by
    intro hnil
    rw [hnil] at hfirst
    simp at hfirst
  have hsplit : split (config.testPathMap.val port) "," = p.pathInfo.hops := by
    rw [htext]
    apply split_join comma_borderFree _ hne
    intro part hpart
    obtain ⟨h, -, rfl⟩ := List.mem_map.mp hpart
    exact text_no_comma h
  have hlength : p.pathInfo.hops.length ≥ 2 := by
    have hpos := List.length_pos_iff.mpr p.nonempty
    simp only [Path.pathInfo, Path.hops, List.length_map, List.length_append, List.length_cons,
      List.length_nil]
    omega
  unfold testRouting
  rw [if_pos ⟨List.length_pos_of_mem hport, hport⟩]
  simp only [hsplit]
  rw [if_pos ⟨hlength, hfirst⟩]

section Samples

def plainHop (ip : UInt32) : Hop where
  ip := ipString ip
  port := none
  no_colon := ipString_no_colon ip
  no_comma := ipString_no_comma ip

/-- The route 10.0.0.1, 10.0.0.2, 10.0.0.9 without any port. -/
def withoutPorts : Path where
  nodes := [plainHop 0x0A000001, plainHop 0x0A000002]
  origin := plainHop 0x0A000009
  nonempty := by simp

/-- The same as the test route of port 8081. -/
def testConfig : RouteCache.Config where
  publicIP := "10.0.0.1"
  testPathMap := GoMap.empty.set 8081 "10.0.0.1,10.0.0.2,10.0.0.9"

/-- The same hops, and port 81 of the origin. -/
def withPort : Path where
  nodes := withoutPorts.nodes
  origin := { plainHop 0x0A000009 with port := some 81 }
  nonempty := withoutPorts.nonempty

/-- A request without a port and one with a port share a packet, and another one without a
port is sent alone. -/
def portlessFirst : List Eviction.Action :=
  (twoThenTimeout (withoutPorts.message 1 (List.replicate 128 10))
    (withPort.message 2 (List.replicate 128 10)) ++
      [Aggregator.Action.receive (withoutPorts.message 3 [10])]).map Eviction.Action.work

theorem requestOn_portlessFirst : ∀ m ∈ portlessFirst.flatMap takes, ∃ p, RequestOn p m := by
  have hlist : portlessFirst.flatMap takes = [withoutPorts.message 1 (List.replicate 128 10),
    withPort.message 2 (List.replicate 128 10), withoutPorts.message 3 [10]] := rfl
  rw [hlist]
  simp only [List.forall_mem_cons, List.not_mem_nil, false_implies, implies_true, and_true]
  exact ⟨⟨_, requestOn_message ..⟩, ⟨_, requestOn_message ..⟩, ⟨_, requestOn_message ..⟩⟩

theorem portlessFirst_flushed :
    (run (Eviction.step smallBuffers) Evicting.start portlessFirst).map
      (fun s => s.worker.flushed.map fun f => ((header f.buf).port, decode f.buf)) =
        some [(0, [⟨1, List.replicate 128 10⟩, ⟨2, List.replicate 128 10⟩]), (0, [⟨3, [10]⟩])] := by
  decide +kernel

theorem toldApart_portlessFirst :
    ∃ s, run (Eviction.step smallBuffers) Evicting.start portlessFirst = some s ∧
      s.worker.flushed.length = 2 ∧ ∃ g, Ledger smallBuffers g s.worker ∧
        ∀ f ms, (f, ms) ∈ s.worker.flushed.zip g.sent →
          ∃ first ∈ g.taken, ∀ maker m p listening, RequestOn maker first → m = first ∨ m ∈ ms →
            RequestOn p m →
              (((header f.buf).port = p.wantedPort listening ∧ (header f.buf).port ≠ 0) ↔
                NamesPort maker p listening) := by
  obtain ⟨s, hrun, hflushed⟩ := Option.map_eq_some_iff.mp portlessFirst_flushed
  refine ⟨s, hrun, by simpa using congrArg List.length hflushed, ?_⟩
  obtain ⟨g, hledger, -, hall⟩ := (toldApart_iff hrun).1 requestOn_portlessFirst
  refine ⟨g, hledger, fun f ms hmem => ?_⟩
  obtain ⟨first, hfirst, -, -, hiff⟩ := hall f ms hmem
  exact ⟨first, hfirst, hiff⟩

/-- On the test route of port 8081 a request carries no port and looks like a response, and so
does a request to port 81 of the origin that shares its packet. -/
theorem request_without_port : testRouting testConfig 8081 = some ⟨[withoutPorts.pathInfo]⟩ ∧
    (∀ m ∈ portlessFirst.flatMap takes, ∃ p, RequestOn p m) ∧
    withoutPorts.wantedPort 8081 = 8081 ∧ withPort.wantedPort 8081 = 81 ∧
    ∃ s, run (Eviction.step smallBuffers) Evicting.start portlessFirst = some s ∧
      s.worker.flushed.map (fun f => ((header f.buf).port, decode f.buf)) =
        [(0, [⟨1, List.replicate 128 10⟩, ⟨2, List.replicate 128 10⟩]), (0, [⟨3, [10]⟩])] :=
  ⟨testRouting_path (by decide) (by decide +kernel) (by decide +kernel), requestOn_portlessFirst,
    rfl, rfl, Option.map_eq_some_iff.mp portlessFirst_flushed⟩

end Samples

end Arcturus.PacketDirection
