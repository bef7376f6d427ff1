import Arcturus.ProxyNetwork

/-!
What holds of a network of proxies whatever the order of its steps. Every message that is
handed to an aggregator leaves the network at most once, at the node where its route ends
and through the call that is meant for it: a request as a task for the origin of its route,
an answer as a delivery at the node that accepted the request. The routes are short ones,
and requests that wait on the same hops go to the same port.
-/

namespace Arcturus.NetworkSafety

open GoStrings TunnelPacket TunnelHandler Addresses TunnelSafety PacketCodec Overlay Routes
open BatchPacket EndToEnd AggregatorParts Eviction
open Aggregator hiding run
open EvictionInvariant EvictionRuns HandlerMoves PacketCargo ProxyNetwork Tallies
open StepRuns (run)

/-- Where the route of a message ends, and with which call. -/
inductive Leads : Site → AggregatorMsg → UInt32 → Effect → Prop
  | request {r : Route} {msg : AggregatorMsg} {node last : UInt32} : Short r → RequestFor r msg →
      r.nodes.head? = some node → r.nodes.getLast? = some last →
      Leads ⟨node, .request⟩ msg last (.submit msg.protocol (requestTask r (toSub msg)))
  | response {r : Route} {userID : UInt32} {resp : List UInt8} {node last : UInt32} : Short r →
      resp ≠ [] → r.nodes.getLast? = some node → r.nodes.head? = some last →
      Leads ⟨node, .response⟩ (reply r userID resp) last (.deliver userID resp)

/-- A message whose route is known, and that can be announced if it is sent alone. -/
structure Proper (cfg : Config) (site : Site) (msg : AggregatorMsg) : Prop where
  leads : ∃ last effect, Leads site msg last effect
  small : emerges cfg msg = true → msg.data.length ≤ 65529

/-- Requests of one node that wait for each other on the same hops go to the same port. -/
def PortsApart (cfg : Config) (added : List (Site × AggregatorMsg)) : Prop :=
  ∀ node m m', (⟨node, .request⟩, m) ∈ added → (⟨node, .request⟩, m') ∈ added →
    emerges cfg m = false → emerges cfg m' = false → m.hops = m'.hops → m.port = m'.port

theorem PortsApart.mono {cfg : Config} {added added' : List (Site × AggregatorMsg)}
    (h : PortsApart cfg added') (hsub : added ⊆ added') : PortsApart cfg added :=
  fun node m m' hm hm' => h node m m' (hsub hm) (hsub hm')

/-- A route is known by its addresses and its port. -/
theorem route_eq {r r' : Route} (haddr : r.addresses = r'.addresses) (hport : r.port = r'.port) :
    r = r' := by
  obtain ⟨nodes, origin, port, _, _⟩ := r
  obtain ⟨nodes', origin', port', _, _⟩ := r'
  obtain ⟨hnodes, horigin⟩ := List.append_inj' haddr rfl
  cases hnodes
  cases List.singleton_inj.mp horigin
  cases hport
  rfl

theorem requestFor_waits {cfg : Config} {r : Route} {msg : AggregatorMsg} (h : RequestFor r msg)
    (hwaits : emerges cfg msg = false) : ∃ reqID data, msg = r.message false "tcp" reqID data := by
  obtain ⟨routing, reqID, data, ⟨hpath, hmsg⟩ | ⟨hpath, hmsg⟩⟩ := h
  · rw [handleConnection_route reqID data hpath, Except.ok.injEq, Request.batched.injEq] at hmsg
    exact ⟨reqID, data, hmsg.symm⟩
  · rw [handleUDPConnection_route reqID data hpath, Except.ok.injEq, Request.batched.injEq] at hmsg
    rw [← hmsg] at hwaits
    simp [emerges, Route.message] at hwaits

/-- A stream that hands nothing over, at no node, and whose position is in its header. -/
structure Hollow (stream : List UInt8) : Prop where
  long : headerSize ≤ stream.length
  short : (header stream).payloadLen.toNat < 7
  pos : (header stream).hopPos.toNat ≤ if (header stream).port ≠ 0 then 2 else 3

/-- A stream on its way to a node, with the messages in it: it hands nothing over, or the
rest of its way leads to the node and to the calls that are meant for these messages. -/
inductive Aloft (node : UInt32) (stream : List UInt8) : List (Site × AggregatorMsg) → Prop
  | hollow : Hollow stream → Aloft node stream []
  | trip {cargo : List (Site × AggregatorMsg)} {visits : List Arrival} {effects : List Effect}
      {last : UInt32} : Trip node stream visits effects →
      (visits.map Arrival.node).getLast? = some last →
      List.Forall₂ (fun x e => Leads x.1 x.2 last e) cargo effects → Aloft node stream cargo

section Packets
variable {cfg : Config} {site : Site} {added : List (Site × AggregatorMsg)}
  {first : AggregatorMsg} {ms : List AggregatorMsg} {p q : Packet}

theorem encode_le_of_filled (hne : ms ≠ []) (hp : Filled first (ms.map toSub) p)
    (hroom : p.buffSize ≤ headerSize + 65535) :
    ms.map toSub ≠ [] ∧ (encode (ms.map toSub)).length ≤ 65535 := by
  have hsubs : ms.map toSub ≠ [] := by simpa using hne
  exact ⟨hsubs, hp.encode_le hroom hsubs⟩

theorem getLast?_tail {r : Route} : r.nodes.tail.getLast? = r.nodes.getLast? := by
  have hlong := r.long
  match hnodes : r.nodes with
  | [] | [_] => simp [hnodes] at hlong
  | _ :: _ :: _ => rfl

theorem getLast?_dropLast_reverse {r : Route} :
    r.nodes.dropLast.reverse.getLast? = r.nodes.head? := by
  have hlong := r.long
  match hnodes : r.nodes with
  | [] | [_] => simp [hnodes] at hlong
  | _ :: _ :: _ => simp

/-- A packet of requests goes to the last node of the route. -/
theorem trip_request {r : Route} (hr : Short r) (hreq : RequestFor r first) (hne : ms ≠ [])
    (hp : Filled first (ms.map toSub) p) (hroom : p.buffSize ≤ headerSize + 65535)
    (hq : p.serializeHead = .ok q) :
    ∃ hop visits, first.nextHop = some hop ∧
      Trip hop (q.buf.take q.totalBytes) visits
        (ms.map fun m => .submit first.protocol (requestTask r (toSub m))) ∧
      (visits.map Arrival.node).getLast? = r.nodes.getLast? := by
  obtain ⟨hsubs, hsmall⟩ := encode_le_of_filled hne hp hroom
  obtain ⟨q', hop, visits, hq', hhop, htrip, hnodes, -⟩ :=
    requestLeg_of_fits hr hsubs hsmall first hreq p hp
  obtain rfl : q = q' := Except.ok.inj (hq.symm.trans hq')
  rw [List.map_map] at htrip
  exact ⟨hop, visits, hhop, htrip, by rw [hnodes, getLast?_tail]⟩

/-- A packet of answers goes to the first node of the route. -/
theorem trip_response {r : Route} (hr : Short r) {userID : UInt32} {resp : List UInt8}
    (hresp : resp ≠ []) (hne : ms ≠ []) (hp : Filled (reply r userID resp) (ms.map toSub) p)
    (hroom : p.buffSize ≤ headerSize + 65535) (hq : p.serializeHead = .ok q) :
    ∃ hop visits, (reply r userID resp).nextHop = some hop ∧
      Trip hop (q.buf.take q.totalBytes) visits (ms.map fun m => .deliver m.userID m.data) ∧
      (visits.map Arrival.node).getLast? = r.nodes.head? := by
  obtain ⟨hsubs, hsmall⟩ := encode_le_of_filled hne hp hroom
  obtain ⟨msg, hmsg, -, -, hcarried⟩ := responseLeg_of_fits hr [⟨userID, []⟩] hsubs hsmall
    ⟨userID, []⟩ (List.mem_singleton.mpr rfl) resp hresp
  rw [doOriginRequest_requestTask hr _ hresp, Except.ok.injEq, Option.some.injEq] at hmsg
  subst hmsg
  obtain ⟨q', hop, visits, hq', hhop, htrip, hnodes, -⟩ := hcarried p hp
  obtain rfl : q = q' := Except.ok.inj (hq.symm.trans hq')
  rw [List.map_map] at htrip
  exact ⟨hop, visits, hhop, htrip, by rw [hnodes, getLast?_dropLast_reverse]⟩

/-- Requests that share a packet are on the same route. -/
theorem requestFor_mate (hports : PortsApart cfg added) {node : UInt32} {m : AggregatorMsg}
    {r r' : Route} (hfirst : (⟨node, .request⟩, first) ∈ added)
    (hm : (⟨node, .request⟩, m) ∈ added) (hwaits : emerges cfg first = false)
    (hwaits' : emerges cfg m = false) (hkey : m.routingKey = first.routingKey)
    (hreq : RequestFor r first) (hreq' : RequestFor r' m) :
    r' = r ∧ m.protocol = first.protocol := by
  obtain ⟨reqID, data, rfl⟩ := requestFor_waits hreq hwaits
  obtain ⟨reqID', data', rfl⟩ := requestFor_waits hreq' hwaits'
  have haddr : r'.addresses = r.addresses :=
    join_ipString_injective (by simp [Route.addresses]) (by simp [Route.addresses]) hkey
  have hport := hports node _ _ hm hfirst hwaits' hwaits (congrArg (List.map ipString) haddr)
  exact ⟨route_eq haddr hport, rfl⟩

/-- What a worker sends is on its way to where its messages are meant to go. -/
theorem aloft_of_filled (hports : PortsApart cfg added)
    (hproper : ∀ x ∈ added, Proper cfg x.1 x.2) (hfirst : (site, first) ∈ added)
    (hms : ∀ m ∈ ms, (site, m) ∈ added) (hne : ms ≠ [])
    (halike : ms = [first] ∨ Mates cfg first.routingKey (first :: ms))
    (hp : Filled first (ms.map toSub) p) (hsize : cfg.bufferSize ≤ headerSize + 65535)
    (hroomy : Roomy cfg first p) (hq : p.serializeHead = .ok q) :
    ∃ hop, first.nextHop = some hop ∧
      Aloft hop (q.buf.take q.totalBytes) (ms.map (Prod.mk site)) := by
  obtain ⟨⟨last, effect, hlead⟩, hsmall⟩ := hproper _ hfirst
  have hroom : p.buffSize ≤ headerSize + 65535 := by
    rcases hroomy with heq | ⟨halone, heq⟩
    · exact heq.trans_le hsize
    · have hlen : first.data.length ≤ 65529 := hsmall halone
      omega
  have hmate : ∀ m ∈ ms, m = first ∨ emerges cfg first = false ∧ emerges cfg m = false ∧
      m.routingKey = first.routingKey := by
    intro m hm
    rcases halike with rfl | hmates
    · exact Or.inl (List.mem_singleton.mp hm)
    · obtain ⟨hwaits', hkey⟩ := hmates m (List.mem_cons_of_mem _ hm)
      exact Or.inr ⟨(hmates first List.mem_cons_self).1, hwaits', hkey⟩
  cases hlead with
  | @request r _ node _ hr hreq hhead hlast =>
    obtain ⟨hop, visits, hhop, htrip, hend⟩ := trip_request hr hreq hne hp hroom hq
    refine ⟨hop, hhop, .trip htrip (hend.trans hlast) ?_⟩
    rw [List.forall₂_map_left_iff, List.forall₂_map_right_iff, List.forall₂_same]
    intro m hm
    rcases hmate m hm with rfl | ⟨hwaits, hwaits', hkey⟩
    · exact .request hr hreq hhead hlast
    · obtain ⟨⟨last', effect', hlead'⟩, -⟩ := hproper _ (hms m hm)
      cases hlead' with
      | @request r' _ _ _ _ hreq' _ _ =>
        obtain ⟨rfl, hprotocol⟩ :=
          requestFor_mate hports hfirst (hms m hm) hwaits hwaits' hkey hreq hreq'
        rw [← hprotocol]
        exact .request hr hreq' hhead hlast
  | @response r userID resp node _ hr hresp hhead hlast =>
    obtain ⟨hop, visits, hhop, htrip, hend⟩ := trip_response hr hresp hne hp hroom hq
    refine ⟨hop, hhop, .trip htrip (hend.trans hlast) ?_⟩
    rw [List.forall₂_map_left_iff, List.forall₂_map_right_iff, List.forall₂_same]
    intro m hm
    rcases hmate m hm with rfl | ⟨-, -, hkey⟩
    · exact .response hr hresp hhead hlast
    · obtain ⟨⟨last', effect', hlead'⟩, -⟩ := hproper _ (hms m hm)
      cases hlead' with
      | @response r' _ _ _ _ hr' hresp' hhead' hlast' =>
        have hnodes : ∀ r : Route, r.nodes.reverse ≠ [] := by
          intro r hnil
          have hlong := r.long
          rw [List.reverse_eq_nil_iff.mp hnil] at hlong
          simp at hlong
        have hsame : r'.nodes.reverse = r.nodes.reverse :=
          join_ipString_injective (hnodes r') (hnodes r) hkey
        rw [List.reverse_inj] at hsame
        exact .response hr' hresp' hhead' (hsame ▸ hlast)

/-- The streams that a worker's flushes become, with the messages in them. -/
theorem aloft_of_carries (hsize : cfg.bufferSize ≤ headerSize + 65535)
    (hports : PortsApart cfg added) (hproper : ∀ x ∈ added, Proper cfg x.1 x.2)
    {taken : List AggregatorMsg} (htaken : ∀ m ∈ taken, (site, m) ∈ added)
    {fs : List Flush} {cargo : List (List AggregatorMsg)}
    (hcargo : ∀ ms ∈ cargo, ∀ m ∈ ms, m ∈ taken) (h : List.Forall₂ (Carries cfg taken) fs cargo) :
    ∃ aloft, List.Forall₂ (fun a c => Aloft a.1 a.2 c)
        (fs.filterMap fun f => f.nextHop.map fun nextHop => (nextHop, f.buf)) aloft ∧
      tally aloft = tally (cargo.map (List.map (Prod.mk site))) := by
  induction h with
  | nil => exact ⟨[], .nil, rfl⟩
  | @cons f ms fs cargo hf hrest ih =>
    rw [List.forall_mem_cons] at hcargo
    obtain ⟨aloft, haloft, htally⟩ := ih hcargo.2
    have hlen := hf.headerSize_le
    cases hf with
    | hollow hfirst hbytes hshort =>
      have hpos := (header_tunnelBytes hbytes).1
      have hhollow : Hollow f.buf := ⟨hlen, hshort, by rw [hpos]; split <;> decide⟩
      cases hhop : f.nextHop with
      | none => exact ⟨aloft, by simpa [hhop] using haloft, by simpa using htally⟩
      | some hop =>
        refine ⟨[] :: aloft, ?_, by simpa using htally⟩
        simpa [hhop] using ⟨.hollow hhollow, haloft⟩
    | filled hfirst hne halike hp hroomy hq hbuf hnext =>
      obtain ⟨hop, hhop, hstream⟩ := aloft_of_filled hports hproper (htaken _ hfirst)
        (fun m hm => htaken m (hcargo.1 m hm)) hne halike hp hsize hroomy hq
      refine ⟨ms.map (Prod.mk site) :: aloft, ?_, by simp [htally]⟩
      rw [List.filterMap_cons_some (by rw [hnext, hhop]; rfl)]
      exact .cons (hbuf ▸ hstream) haloft

end Packets

section Arrivals
variable {node : UInt32} {stream pkt : List UInt8} {effects : List Effect}

theorem hollow_forward (h : Hollow pkt)
    (hpos : (header pkt).hopPos.toNat < if (header pkt).port ≠ 0 then 2 else 3) :
    (∃ ip, forward (header pkt) pkt = .ok [.send ip (advanceRawHop pkt)]) ∧
      Hollow (advanceRawHop pkt) := by
  have hlt : (header pkt).hopPos.toNat < 3 := by
    split at hpos
    all_goals omega
  have hsame := header_advanceRawHop h.long hlt
  refine ⟨⟨_, by rw [forward_eq, dif_pos hlt]⟩, ?_, ?_, ?_⟩
  · have hlen : (advanceRawHop pkt).length = pkt.length := by
      rw [advanceRawHop_eq h.long, if_pos hlt, List.length_cons, List.length_tail]
      have hpos := h.long
      simp only [headerSize] at hpos
      omega
    rw [hlen]
    exact h.long
  · rw [hsame.payloadLen]
    exact h.short
  · rw [hsame.port, hsame.hopPos]
    change ((header pkt).hopPos + 1).toNat ≤ _
    rw [UInt8.toNat_add, Nat.mod_eq_of_lt (by simp; omega)]
    exact hpos

/-- Such a packet is sent on or dropped. -/
theorem hollow_handle (h : Hollow pkt) : handleQUICPacket pkt = .ok [] ∨
    (∃ ip, handleQUICPacket pkt = .ok [.send ip (advanceRawHop pkt)]) ∧
      Hollow (advanceRawHop pkt) := by
  have hdata : ¬ HasData pkt := fun hd => absurd hd.1 (by have := h.short; omega)
  have hpos := h.pos
  rw [handleQUICPacket_eq h.long]
  split
  · rename_i hport
    rw [if_pos hport] at hpos
    split
    · rename_i hend
      rw [submitAll_eq h.long (by omega), if_neg fun hand => hdata hand.1]
      exact Or.inl rfl
    · rename_i hend
      refine Or.inr (hollow_forward h ?_)
      rw [if_pos hport]
      refine lt_of_le_of_ne hpos fun htwo => hend (Or.inl ?_)
      exact UInt8.toNat_inj.mp htwo
  · rename_i hport
    rw [if_neg hport] at hpos
    split
    · rw [deliverAll_eq h.long, if_neg hdata]
      exact Or.inl rfl
    · rename_i hend
      refine Or.inr (hollow_forward h ?_)
      rw [if_neg hport]
      refine lt_of_le_of_ne hpos fun hthree => hend (Or.inl ?_)
      exact UInt8.toNat_inj.mp hthree

theorem Hollow.receive (h : Hollow stream) (hpkt : receive stream = some pkt) : Hollow pkt := by
  have hsame := header_congr (receive_take hpkt)
  have hlen := receive_length hpkt
  exact ⟨by omega, hsame ▸ h.short, hsame ▸ h.pos⟩

/-- What the arrival of a stream does: nothing, or the packet is sent on with the messages
in it, or this is where they end. -/
theorem Aloft.arrive {cargo : List (Site × AggregatorMsg)} (h : Aloft node stream cargo) :
    (receive stream = none ∧ cargo = []) ∨
      ∃ pkt effects, receive stream = some pkt ∧ handleQUICPacket pkt = .ok effects ∧
        ((∃ ip out, effects = [.send ip out] ∧ Aloft ip out cargo) ∨
          (∀ ip out, .send ip out ∉ effects) ∧
            List.Forall₂ (fun x e => Leads x.1 x.2 node e) cargo effects) := by
  cases h with
  | hollow hhollow =>
    cases hpkt : receive stream with
    | none => exact Or.inl ⟨rfl, rfl⟩
    | some pkt =>
      rcases hollow_handle (hhollow.receive hpkt) with hnone | ⟨⟨ip, hsend⟩, hnext⟩
      · exact Or.inr ⟨pkt, [], rfl, hnone, Or.inr ⟨by simp, .nil⟩⟩
      · exact Or.inr ⟨pkt, _, rfl, hsend, Or.inl ⟨ip, _, rfl, .hollow hnext⟩⟩
  | trip htrip hlast hleads =>
    cases htrip with
    | @ends _ _ pkt _ hpkt hhandle hnone =>
      cases hlast
      exact Or.inr ⟨pkt, _, hpkt, hhandle, Or.inr ⟨hnone, hleads⟩⟩
    | @relayed _ next _ pkt out visits _ hpkt hhandle hrest =>
      refine Or.inr ⟨pkt, _, hpkt, hhandle, Or.inl ⟨next, out, rfl, .trip hrest ?_ hleads⟩⟩
      have hne : visits ≠ [] := by
        rintro rfl
        cases hrest
      rwa [List.map_cons, List.getLast?_cons_of_ne_nil (by simpa using hne)] at hlast

end Arrivals

/-- The books of a network: the account of each worker, the messages in each stream, those
that ended or were lost with a stream, and the tasks that got no answer. -/
structure Books where
  accounts : List (Site × Account)
  aloft : List (List (Site × AggregatorMsg))
  done : Multiset (Site × AggregatorMsg)
  lost : Multiset (Site × AggregatorMsg)
  failed : Multiset (UInt32 × BackSourceTask)

/-- The messages that the workers took. -/
def Books.taken (k : Books) : Multiset (Site × AggregatorMsg) :=
  tally (k.accounts.map fun y => y.2.taken.map (Prod.mk y.1))

/-- The messages in the packets that the workers sent. -/
def Books.sent (k : Books) : Multiset (Site × AggregatorMsg) :=
  tally (k.accounts.map fun y => y.2.sent.flatten.map (Prod.mk y.1))

/-- A worker, its account, and what links its batches to its heap. -/
structure Post (cfg : Config) (x : Site × Evicting) (y : Site × Account) : Prop where
  site : x.1 = y.1
  ledger : Ledger cfg y.2 x.2.worker
  linked : Linked x.2
  kept : Kept cfg x.2.worker

/-- The answer of an origin, and the message that it became. -/
def Replied (a : UInt32 × BackSourceTask × List UInt8) (x : Site × AggregatorMsg) : Prop :=
  x.1 = ⟨a.1, .response⟩ ∧ doOriginRequest a.2.1 (some a.2.2) = .ok (some x.2)

structure Balanced (cfg : Config) (k : Books) (net : Network) : Prop where
  posts : List.Forall₂ (Post cfg) net.workers k.accounts
  proper : ∀ x ∈ net.added, Proper cfg x.1 x.2
  aloft : List.Forall₂ (fun a c => Aloft a.1 a.2 c) net.air k.aloft
  ended : Multiset.Rel (fun x (c : UInt32 × Effect) => Leads x.1 x.2 c.1 c.2) k.done net.calls
  taken : (net.added : Multiset _) = (net.waiting : Multiset _) + k.taken
  flown : k.sent = tally k.aloft + k.done + k.lost
  asked : (net.submissions.map fun x => (x.1, x.2.2) : Multiset (UInt32 × BackSourceTask)) =
    (net.tasks : Multiset _) + (net.answers.map fun a => (a.1, a.2.1) : Multiset _) + k.failed
  replied : List.Forall₂ Replied net.answers (net.added.filter fun x => x.1.side = .response)

theorem balanced_start (cfg : Config) (sites : List Site) :
    Balanced cfg ⟨sites.map fun site => (site, Account.start), [], 0, 0, 0⟩
      (Network.start sites) where
  posts := by
    rw [Network.start, List.forall₂_map_left_iff, List.forall₂_map_right_iff, List.forall₂_same]
    exact fun site _ => ⟨rfl, ledger_start cfg, linked_start, kept_start cfg⟩
  proper := fun x hx => absurd hx List.not_mem_nil
  aloft := .nil
  ended := .zero
  taken := by
    simp [Network.start, Books.taken, Account.start, Function.comp_def, tally]
  flown := by
    simp [Books.sent, Account.start, Function.comp_def, tally]
  asked := rfl
  replied := .nil

section Steps
variable {cfg : Config} {k : Books} {net net' : Network}

/-- A worker only has messages of its own aggregator. -/
theorem Balanced.taken_mem (h : Balanced cfg k net) {j : ℕ} {site : Site} {g : Account}
    (hg : k.accounts[j]? = some (site, g)) {m : AggregatorMsg} (hm : m ∈ g.taken) :
    (site, m) ∈ net.added := by
  have hplace : (k.accounts.map fun y => y.2.taken.map (Prod.mk y.1))[j]? =
      some (g.taken.map (Prod.mk site)) := by
    rw [List.getElem?_map, hg]
    rfl
  rw [← Multiset.mem_coe, h.taken, Multiset.mem_add]
  right
  exact Multiset.mem_of_le (le_tally hplace) (Multiset.mem_coe.mpr (List.mem_map_of_mem hm))

theorem linked_kept_step {s s' : Evicting} {a : Eviction.Action} (hlinked : Linked s)
    (hkept : Kept cfg s.worker) (hs : Eviction.step cfg s a = some s') :
    Linked s' ∧ Kept cfg s'.worker := by
  cases a with
  | work a =>
    obtain ⟨w', hw', rfl⟩ := Option.map_eq_some_iff.mp hs
    exact ⟨linked_work hlinked (effect_step hw'), kept_step hkept hw'⟩
  | evict t i =>
    simp only [Eviction.step] at hs
    split at hs
    · cases hs
    · exact ⟨linked_evictStep hlinked hs, kept_evictStep hkept hs⟩

/-- One account is replaced by another one. -/
theorem tally_accounts_set {accounts : List (Site × Account)} {j : ℕ} {y : Site × Account}
    (f : Site × Account → List (Site × AggregatorMsg)) (hy : accounts[j]? = some y)
    {y' : Site × Account} {more : List (Site × AggregatorMsg)} (hmore : f y' = f y ++ more) :
    tally ((accounts.set j y').map f) = tally (accounts.map f) + (more : Multiset _) := by
  have hplace : (accounts.map f)[j]? = some (f y) := by
    rw [List.getElem?_map, hy]
    rfl
  have hset := tally_set hplace (f y')
  rw [List.map_set]
  rw [hmore, ← Multiset.coe_add] at hset
  refine add_right_cancel (b := (f y : Multiset (Site × AggregatorMsg))) ?_
  rw [hmore, hset]
  abel

/-- A step of a worker: what it takes is added to its account, and what it sends goes to
where its messages are meant to go. -/
theorem balanced_moved (hsize : cfg.bufferSize ≤ headerSize + 65535)
    (hports : PortsApart cfg net.added) (h : Balanced cfg k net) {j : ℕ} {site : Site}
    {s s' : Evicting} {a : Eviction.Action} (hj : net.workers[j]? = some (site, s))
    (htakes : ∀ m ∈ takes a, (site, m) ∈ net.added) (hs : Eviction.step cfg s a = some s') :
    ∃ k', k'.taken = k.taken + ((takes a).map (Prod.mk site) : Multiset _) ∧
      k'.lost = k.lost ∧ k'.failed = k.failed ∧ ∀ waiting : List (Site × AggregatorMsg),
        (net.added : Multiset _) = (waiting : Multiset _) + k'.taken →
        Balanced cfg k' { net.moved j site s s' with waiting } := by
  obtain ⟨⟨site', g⟩, hy, hsite, hledger, hlinked, hkept⟩ := forall₂_getElem? h.posts hj
  cases hsite
  obtain ⟨g', hledger', htaken, hsent, hflushed⟩ := ledger_step hledger hlinked
    hkept hs
  obtain ⟨hlinked', hkept'⟩ := linked_kept_step hlinked hkept hs
  obtain ⟨new, hnew⟩ := hsent
  obtain ⟨fs, hfs⟩ := hflushed
  have hemitted : emitted s s' = fs.filterMap fun f =>
      f.nextHop.map fun nextHop => (nextHop, f.buf) := by
    rw [emitted, ← hfs, List.drop_left]
  have hcarries : List.Forall₂ (Carries cfg g'.taken) fs new := by
    have hdrop := List.forall₂_drop s.worker.flushed.length hledger'.sent
    rwa [← hfs, ← hnew, List.drop_left, hledger.sent.length_eq, List.drop_left] at hdrop
  have hown : ∀ m ∈ g'.taken, (site, m) ∈ net.added := by
    intro m hm
    rw [htaken, List.mem_append] at hm
    exact hm.elim (h.taken_mem hy) (htakes m)
  have hcargo : ∀ ms ∈ new, ∀ m ∈ ms, m ∈ g'.taken := by
    intro ms hms m hm
    rw [← Multiset.mem_coe, hledger'.account, ← hnew, tally_append]
    simp only [Multiset.mem_add]
    exact Or.inl (Or.inr (Multiset.mem_coe.mpr (List.mem_flatten.mpr ⟨ms, hms, hm⟩)))
  obtain ⟨aloft, haloft, htally⟩ := aloft_of_carries hsize hports h.proper hown hcargo hcarries
  let k' : Books := { k with
    accounts := k.accounts.set j (site, g')
    aloft := k.aloft ++ aloft }
  have htaken' : k'.taken = k.taken + ((takes a).map (Prod.mk site) : Multiset _) := by
    refine tally_accounts_set (fun y => y.2.taken.map (Prod.mk y.1)) hy ?_
    simp [htaken]
  have hsent' : k'.sent = k.sent + (new.flatten.map (Prod.mk site) : Multiset _) := by
    refine tally_accounts_set (fun y => y.2.sent.flatten.map (Prod.mk y.1)) hy ?_
    simp [← hnew]
  refine ⟨k', htaken', rfl, rfl, fun waiting hwaiting => ?_⟩
  refine ⟨?_, h.proper, ?_, h.ended, hwaiting, ?_, h.asked, h.replied⟩
  · exact forall₂_set h.posts j ⟨rfl, hledger', hlinked', hkept'⟩
  · change List.Forall₂ _ (net.air ++ emitted s s') _
    rw [hemitted]
    exact List.rel_append h.aloft haloft
  · rw [hsent', h.flown]
    change _ = tally (k.aloft ++ aloft) + k.done + k.lost
    rw [tally_append, htally]
    simp only [tally, List.map_flatten]
    abel

/-- A submitted task belongs to a short route that ends at the node. -/
theorem Balanced.task_route (h : Balanced cfg k net) {node : UInt32} {task : BackSourceTask}
    (htask : (node, task) ∈ net.tasks) :
    ∃ r sub, Short r ∧ r.nodes.getLast? = some node ∧ task = requestTask r sub := by
  have hsub : (node, task) ∈ net.submissions.map fun x => (x.1, x.2.2) := by
    rw [← Multiset.mem_coe, h.asked]
    simp [htask]
  obtain ⟨⟨n, protocol, t⟩, hmem, heq⟩ := List.mem_map.mp hsub
  cases heq
  obtain ⟨⟨n, e⟩, hcall, he⟩ := List.mem_filterMap.mp hmem
  obtain ⟨⟨site, msg⟩, -, hlead⟩ := Multiset.exists_mem_of_rel_of_mem
    (Multiset.rel_flip.mpr h.ended) (Multiset.mem_coe.mpr hcall)
  change Leads site msg n e at hlead
  cases e with
  | submit p t =>
    cases he
    cases hlead with
    | request hr hreq hhead hlast => exact ⟨_, _, hr, hlast, rfl⟩
  | send ip out => cases he
  | deliver u d => cases he

/-- The answer of an origin is a message on its way back, if it is not empty. -/
theorem balanced_answer (h : Balanced cfg k net) {j : ℕ} {resp : Option (List UInt8)}
    (hsmall : ∀ bytes, resp = some bytes → bytes.length ≤ 65529)
    (hs : answerStep net j resp = some net') :
    ∃ k', Balanced cfg k' net' ∧ k'.lost = k.lost ∧ (resp.getD [] ≠ [] → k'.failed = k.failed) := by
  obtain ⟨node, task, hj, ⟨hno, rfl⟩ | ⟨msg, bytes, rfl, hmsg, rfl⟩⟩ := answerStep_eq hs
  all_goals obtain ⟨r, sub, hr, hlast, rfl⟩ := h.task_route (List.mem_of_getElem? hj)
  · refine ⟨{ k with failed := k.failed + {(node, requestTask r sub)} }, ⟨h.posts, h.proper,
      h.aloft, h.ended, h.taken, h.flown, ?_, h.replied⟩, rfl, fun hne => ?_⟩
    · have hasked := h.asked
      rw [coe_eraseIdx hj] at hasked
      refine hasked.trans ?_
      rw [← Multiset.singleton_add]
      dsimp only
      abel
    · cases resp with
      | none => exact absurd rfl hne
      | some bytes =>
        have hreply := doOriginRequest_requestTask hr sub hne
        cases hno.symm.trans hreply
  · have hne : bytes ≠ [] := by
      rintro rfl
      cases hmsg
    have hlong := r.long
    have hproper : Proper cfg ⟨node, .response⟩ msg := by
      rw [doOriginRequest_requestTask hr sub hne, Except.ok.injEq, Option.some.injEq] at hmsg
      subst hmsg
      refine ⟨⟨r.nodes.head (by rintro hnil; simp [hnil] at hlong), _,
        .response hr hne hlast (List.head?_eq_some_head _)⟩, ?_⟩
      exact fun _ => hsmall bytes rfl
    refine ⟨k, ⟨h.posts, ?_, h.aloft, h.ended, ?_, h.flown, ?_, ?_⟩, rfl, fun _ => rfl⟩
    · rw [List.forall_mem_append, List.forall_mem_singleton]
      exact ⟨h.proper, hproper⟩
    · simp only [← Multiset.coe_add, h.taken]
      abel
    · have hasked := h.asked
      rw [coe_eraseIdx hj] at hasked
      refine hasked.trans ?_
      simp only [List.map_append, List.map_cons, List.map_nil, ← Multiset.coe_add,
        Multiset.coe_singleton, ← Multiset.singleton_add]
      abel
    · rw [List.filter_append]
      exact List.rel_append h.replied (.cons ⟨rfl, hmsg⟩ .nil)

/-- Another request is handed to the aggregator. -/
theorem balanced_request (h : Balanced cfg k net) {node : UInt32} {msg : AggregatorMsg}
    (hproper : Proper cfg ⟨node, .request⟩ msg) :
    Balanced cfg k (net.addToBatch ⟨node, .request⟩ msg) := by
  refine ⟨h.posts, ?_, h.aloft, h.ended, ?_, h.flown, h.asked, ?_⟩
  · rw [Network.addToBatch, List.forall_mem_append, List.forall_mem_singleton]
    exact ⟨h.proper, hproper⟩
  · simp only [Network.addToBatch, ← Multiset.coe_add, h.taken]
    abel
  · simpa [Network.addToBatch] using h.replied

/-- A stream is lost, and the messages in it. -/
theorem balanced_lose (h : Balanced cfg k net) {i : ℕ} (hi : i < net.air.length) :
    ∃ k', Balanced cfg k' { net with air := net.air.eraseIdx i } ∧ k'.failed = k.failed := by
  obtain ⟨cargo, hcargo, -, hrest⟩ := forall₂_eraseIdx h.aloft (List.getElem?_eq_getElem hi)
  refine ⟨{ k with aloft := k.aloft.eraseIdx i, lost := k.lost + (cargo : Multiset _) },
    ⟨h.posts, h.proper, hrest, h.ended, h.taken, ?_, h.asked, h.replied⟩, rfl⟩
  refine h.flown.trans ?_
  rw [tally_eraseIdx hcargo]
  dsimp only
  abel

/-- A stream arrives. -/
theorem balanced_arrive (h : Balanced cfg k net) {i : ℕ} (hs : arriveStep net i = some net') :
    ∃ k', Balanced cfg k' net' ∧ k'.lost = k.lost ∧ k'.failed = k.failed := by
  obtain ⟨node, stream, hi, hcases⟩ := arriveStep_eq hs
  obtain ⟨cargo, hcargo, haloft, hrest⟩ := forall₂_eraseIdx h.aloft hi
  have hflown := h.flown
  rw [tally_eraseIdx hcargo] at hflown
  rcases haloft.arrive with ⟨hnone, rfl⟩ | ⟨pkt, effects, hpkt, hhandle, hend⟩
  · rcases hcases with ⟨-, rfl⟩ | ⟨pkt, effects, hpkt, -⟩
    · refine ⟨{ k with aloft := k.aloft.eraseIdx i }, ⟨h.posts, h.proper, hrest, h.ended, h.taken,
        hflown.trans ?_, h.asked, h.replied⟩, rfl, rfl⟩
      rw [Multiset.coe_nil, zero_add]
    · rw [hnone] at hpkt
      cases hpkt
  rcases hcases with ⟨hnone, -⟩ | ⟨pkt', effects', hpkt', hhandle', rfl⟩
  · rw [hpkt] at hnone
    cases hnone
  cases Option.some.inj (hpkt.symm.trans hpkt')
  cases Except.ok.inj (hhandle.symm.trans hhandle')
  rcases hend with ⟨ip, out, rfl, hnext⟩ | ⟨hnone, hleads⟩
  · -- The packet is sent on.
    rw [foldl_perform_send]
    refine ⟨{ k with aloft := k.aloft.eraseIdx i ++ [cargo] }, ⟨h.posts, h.proper,
      List.rel_append hrest (.cons hnext .nil), h.ended, h.taken, hflown.trans ?_, h.asked,
      h.replied⟩, rfl, rfl⟩
    rw [tally_append, tally_cons, tally_nil, add_zero]
    dsimp only
    abel
  · -- The messages in it have arrived.
    rw [foldl_perform_calls node hnone]
    refine ⟨{ k with aloft := k.aloft.eraseIdx i, done := k.done + (cargo : Multiset _) },
      ⟨h.posts, h.proper, hrest, ?_, h.taken, hflown.trans (by dsimp only; abel), ?_, h.replied⟩,
      rfl, rfl⟩
    · rw [← Multiset.coe_add]
      refine Multiset.Rel.add h.ended (rel_of_forall₂ ?_)
      rw [List.forall₂_map_right_iff]
      exact hleads
    · have hasked := h.asked
      simp only [Network.submissions, List.filterMap_append, List.map_append,
        ← Multiset.coe_add, List.filterMap_map, List.map_filterMap] at hasked ⊢
      rw [hasked]
      simp only [Function.comp_def]
      abel

end Steps

/-- The requests come on short routes that begin at the node that accepts them, and nothing
that is sent alone is too long to be announced. -/
def Plain (cfg : Config) : NetAction → Prop
  | .request node server routing reqID data =>
    ∀ msg, serve server routing reqID data = .ok (.batched msg) →
      (∃ r, Short r ∧ RequestFor r msg ∧ r.nodes.head? = some node) ∧
        (emerges cfg msg = true → msg.data.length ≤ 65529)
  | .answer _ resp => ∀ bytes, resp = some bytes → bytes.length ≤ 65529
  | _ => True

def Loses : NetAction → Prop
  | .lose _ => True
  | _ => False

/-- The origin fails, or its answer is empty. -/
def Unanswered : NetAction → Prop
  | .answer _ resp => resp.getD [] = []
  | _ => False

section Runs
variable {cfg : Config} {k : Books} {net net' : Network} {a : NetAction}

theorem Balanced.waiting_mem (h : Balanced cfg k net) {x : Site × AggregatorMsg}
    (hx : x ∈ net.waiting) : x ∈ net.added := by
  rw [← Multiset.mem_coe, h.taken]
  exact Multiset.mem_add.mpr (Or.inl (Multiset.mem_coe.mpr hx))

/-- Every step of the network keeps its books. -/
theorem balanced_step (hsize : cfg.bufferSize ≤ headerSize + 65535)
    (hports : PortsApart cfg net.added) (h : Balanced cfg k net) (ha : Plain cfg a)
    (hs : netStep cfg net a = some net') :
    ∃ k', Balanced cfg k' net' ∧ (¬ Loses a → k'.lost = k.lost) ∧
      (¬ Unanswered a → k'.failed = k.failed) := by
  cases a with
  | request node server routing reqID data =>
    simp only [netStep] at hs
    split at hs
    · cases hs
    · rename_i msg hmsg
      cases hs
      obtain ⟨⟨r, hr, hreq, hhead⟩, hsmall⟩ := ha msg hmsg
      have hlong := r.long
      have hne : r.nodes ≠ [] := by
        rintro hnil
        simp [hnil] at hlong
      have hleads := Leads.request hr hreq hhead (List.getLast?_eq_some_getLast hne)
      exact ⟨k, balanced_request h ⟨⟨_, _, hleads⟩, hsmall⟩, fun _ => rfl, fun _ => rfl⟩
    · cases hs
      exact ⟨k, h, fun _ => rfl, fun _ => rfl⟩
  | take j =>
    obtain ⟨site, s, s', i, msg, hj, hi, hs', rfl⟩ := takeStep_eq hs
    have htakes : ∀ m ∈ takes (.work (.receive msg)), (site, m) ∈ net.added := by
      intro m hm
      rw [List.mem_singleton.mp hm]
      exact h.waiting_mem (List.mem_of_getElem? hi)
    obtain ⟨k', htaken, hlost, hfailed, hk'⟩ := balanced_moved hsize hports h hj htakes hs'
    refine ⟨k', hk' (net.waiting.eraseIdx i) ?_, fun _ => hlost, fun _ => hfailed⟩
    rw [h.taken, htaken, coe_eraseIdx hi, ← Multiset.singleton_add]
    simp only [takes, List.map_cons, List.map_nil, Multiset.coe_singleton]
    abel
  | work j a =>
    obtain ⟨site, s, s', hj, hnone, hs', rfl⟩ := workStep_eq hs
    obtain ⟨k', htaken, hlost, hfailed, hk'⟩ :=
      balanced_moved hsize hports h hj (by simp [hnone]) hs'
    refine ⟨k', hk' net.waiting ?_, fun _ => hlost, fun _ => hfailed⟩
    rw [htaken, hnone, h.taken]
    simp
  | arrive i =>
    obtain ⟨k', hk', hlost, hfailed⟩ := balanced_arrive h hs
    exact ⟨k', hk', fun _ => hlost, fun _ => hfailed⟩
  | lose i =>
    simp only [netStep] at hs
    split at hs
    · rename_i hi
      cases hs
      obtain ⟨k', hk', hfailed⟩ := balanced_lose h hi
      exact ⟨k', hk', fun hno => absurd trivial hno, fun _ => hfailed⟩
    · cases hs
  | answer j resp =>
    obtain ⟨k', hk', hlost, hfailed⟩ := balanced_answer h ha hs
    exact ⟨k', hk', fun _ => hlost, hfailed⟩

/-- The books of every network that was reached, and whether they note a loss. -/
theorem balanced_run (hsize : cfg.bufferSize ≤ headerSize + 65535) {sites : List Site}
    {actions : List NetAction} (hplain : ∀ a ∈ actions, Plain cfg a)
    (hrun : run (netStep cfg) (Network.start sites) actions = some net)
    (hports : PortsApart cfg net.added) :
    ∃ k, Balanced cfg k net ∧ ((∀ a ∈ actions, ¬ Loses a) → k.lost = 0) ∧
      ((∀ a ∈ actions, ¬ Unanswered a) → k.failed = 0) := by
  refine StepRuns.run_induction (motive := fun actions net => (∀ a ∈ actions, Plain cfg a) →
    PortsApart cfg net.added → ∃ k, Balanced cfg k net ∧
      ((∀ a ∈ actions, ¬ Loses a) → k.lost = 0) ∧
      ((∀ a ∈ actions, ¬ Unanswered a) → k.failed = 0)) ?_ ?_ hrun hplain hports
  · exact fun _ _ => ⟨_, balanced_start cfg sites, fun _ => rfl, fun _ => rfl⟩
  · intro actions net a net' _ ih hs hplain hports
    simp only [List.forall_mem_append, List.forall_mem_singleton] at hplain ⊢
    obtain ⟨new, hnew, -⟩ := (change_of_step hs).added
    have hbefore := hports.mono (hnew ▸ List.subset_append_left net.added new)
    obtain ⟨k, hk, hlost, hfailed⟩ := ih hplain.1 hbefore
    obtain ⟨k', hk', hlost', hfailed'⟩ := balanced_step hsize hbefore hk hplain.2 hs
    refine ⟨k', hk', fun hno => ?_, fun hno => ?_⟩
    · rw [hlost' hno.2, hlost hno.1]
    · rw [hfailed' hno.2, hfailed hno.1]

end Runs

end Arcturus.NetworkSafety
