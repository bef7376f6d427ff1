import Arcturus.NetworkDelivery
import Arcturus.RequestIsolation

/-!
The clients of a network of proxies. A connection handler draws an id, registers it with the
disaggregator of its node and hands its request to the network; what the network delivers under
the id is looked up and sent on the channel of the registration. While fewer than 2²⁴ ids are
drawn at a node, what a handler finds in its channel is the answer of the origin of its own
route to the bytes that its client sent.
-/

namespace Arcturus.ClientSessions

open TunnelPacket TunnelHandler Routes EndToEnd AggregatorParts ProxyNetwork NetworkSafety
open NetworkDelivery
open Aggregator (Config)
open RequestIds (Servers Numbered)
open RouteCache (Server)
open StepRuns (run)

/-- A request of a client: the node with the id and how many ids it had drawn up to this one,
and what the handler had to serve. -/
structure Asked where
  node : UInt32
  reqID : UInt32
  born : ℕ
  server : Server
  routing : List PathInfo
  data : List UInt8

/-- The network, the handlers and the disaggregator of each node, the deliveries that are not
yet looked up, and a record of the requests. -/
structure Clients where
  net : Network
  servers : UInt32 → Servers
  pending : List (UInt32 × SubPacket)
  asked : List Asked

def Clients.start (sites : List Site) (reqSeq : UInt32 → UInt64) : Clients where
  net := Network.start sites
  servers := fun node => Servers.start (reqSeq node)
  pending := []
  asked := []

inductive ClientAct where
  | net (a : NetAction)
  | handle (node : UInt32) (a : RequestIds.Action)
  | submit (node : UInt32) (c : ℕ) (server : Server) (routing : List PathInfo)
      (data : List UInt8)
  | lookup (j : ℕ)

def handleStep (to4 : String → Option UInt32) (s : Clients) (node : UInt32)
    (a : RequestIds.Action) : Option Clients :=
  (RequestIds.step to4 (s.servers node) a).map fun servers =>
    { s with servers := Function.update s.servers node servers }

/-- A handler that has registered its id hands its request over, once. -/
def submitStep (s : Clients) (node : UInt32) (c : ℕ) (server : Server)
    (routing : List PathInfo) (data : List UInt8) : Option Clients :=
  match (s.servers node).conns c with
  | .waiting reqID born _ =>
    match serve server routing reqID data with
    | .ok (.batched msg) =>
      if ∀ x ∈ s.asked, ¬ (x.node = node ∧ x.born = born) then
        some { s with
          net := s.net.addToBatch ⟨node, .request⟩ msg
          asked := s.asked ++ [⟨node, reqID, born, server, routing, data⟩] }
      else none
    | _ => none
  | _ => none

def step (cfg : Config) (to4 : String → Option UInt32) (s : Clients) :
    ClientAct → Option Clients
  | .net a =>
    -- What the network delivers is to be looked up.
    if Requests a then none else (netStep cfg s.net a).map fun net =>
      { s with net, pending := s.pending ++ net.deliveries.drop s.net.deliveries.length }
  | .handle node a =>
    match a with
    | .lookup _ _ => none
    | a => handleStep to4 s node a
  | .submit node c server routing data => submitStep s node c server routing data
  | .lookup j =>
    match s.pending[j]? with
    | none => none
    | some (node, sub) =>
      (handleStep to4 s node (.lookup sub.userID sub.data)).map fun s' =>
        { s' with pending := s.pending.eraseIdx j }

/-- The message carries the id and the bytes of the request. -/
theorem toSub_batched {server : Server} {routing : List PathInfo} {reqID : UInt32}
    {data : List UInt8} {msg : AggregatorMsg}
    (h : serve server routing reqID data = .ok (.batched msg)) : toSub msg = ⟨reqID, data⟩ := by
  have hbatch : ∀ emerge protocol path, addToBatch emerge protocol path reqID data =
      .ok (.batched msg) → toSub msg = ⟨reqID, data⟩ := by
    intro emerge protocol path hpath
    unfold addToBatch at hpath
    split at hpath
    · cases hpath
    · cases hpath
      rfl
  cases server
  all_goals simp only [serve, handleConnectionKeepAlive, handleUDPConnection, handleConnection] at h
  all_goals repeat' split at h
  all_goals first
    | exact hbatch _ _ _ h
    | cases h

section Handlers
variable {to4 : String → Option UInt32} {seq₀ : UInt64} {s s' : Servers}
  {actions : List RequestIds.Action}

theorem stepRunning_of_step {a : RequestIds.Action} (hs : RequestIds.step to4 s a = some s') :
    RequestIds.stepRunning to4 s a = some s' :=
  (Option.ite_none_left_eq_some.mp hs).2

theorem numbered_run (hrun : run (RequestIds.step to4) (.start seq₀) actions = some s) :
    Numbered seq₀ s :=
  StepRuns.run_keeps (fun _ _ _ h hs => h.step (stepRunning_of_step hs))
    (RequestIds.numbered_start seq₀) hrun

theorem generated_mono {a : RequestIds.Action} (hs : RequestIds.step to4 s a = some s') :
    s.generated ≤ s'.generated := by
  have hrunning := stepRunning_of_step hs
  unfold RequestIds.stepRunning at hrunning
  split at hrunning
  case h_6 => exact Option.some.inj hrunning ▸ le_rfl
  case h_7 =>
    obtain ⟨d, -, rfl⟩ := Option.map_eq_some_iff.mp hrunning
    exact le_rfl
  all_goals split at hrunning
  all_goals first
    | contradiction
    | exact Option.some.inj hrunning ▸ Nat.le_succ _
    | exact Option.some.inj hrunning ▸ le_rfl
    | (obtain ⟨d, -, rfl⟩ := Option.map_eq_some_iff.mp hrunning
       exact le_rfl)

/-- If fewer than 2²⁴ ids are drawn at all, then no registration outlives so many. -/
theorem spaced_of_few (hrun : run (RequestIds.step to4) (.start seq₀) actions = some s)
    (hfew : s.generated < 2 ^ 24) : RequestIsolation.Spaced to4 seq₀ actions := by
  rintro front s₁ ⟨back, rfl⟩ hfront c reqID born ch -
  rw [StepRuns.run_append, hfront, Option.bind_some] at hrun
  have hkeeps : ∀ t a t', s₁.generated ≤ t.generated → RequestIds.step to4 t a = some t' →
      s₁.generated ≤ t'.generated := fun _ _ _ h hs => h.trans (generated_mono hs)
  have hle := StepRuns.run_keeps hkeeps le_rfl hrun
  omega

end Handlers

/-- What holds of the clients whatever has happened. -/
structure Answered (cfg : Config) (sites : List Site) (to4 : String → Option UInt32)
    (reqSeq : UInt32 → UInt64) (s : Clients) : Prop where
  net : ∃ actions, (∀ a ∈ actions, Plain cfg a) ∧
    run (netStep cfg) (Network.start sites) actions = some s.net
  pending : s.pending ⊆ s.net.deliveries
  handlers : ∀ node, ∃ actions,
    run (RequestIds.step to4) (.start (reqSeq node)) actions = some (s.servers node) ∧
      ∀ u d, .lookup u d ∈ actions → (node, ⟨u, d⟩) ∈ s.net.deliveries
  low : ∀ x ∈ s.asked, x.born ≤ (s.servers x.node).generated ∧
    x.reqID.toNat % 2 ^ 24 = ((reqSeq x.node).toNat + x.born) % 2 ^ 24
  once : ∀ x ∈ s.asked, ∀ y ∈ s.asked, x.node = y.node → x.born = y.born → x = y
  accepted : ∀ y ∈ s.net.requests, ∃ x ∈ s.asked, x.node = y.1 ∧
    serve x.server x.routing x.reqID x.data = .ok (.batched y.2)

/-- The network may make its steps, and the handlers get short routes from their nodes. -/
def FairTo (cfg : Config) : ClientAct → Prop
  | .net a => Plain cfg a
  | .submit node _ server routing data =>
    ∀ reqID, Plain cfg (.request node server routing reqID data)
  | _ => True

section Invariant
variable {cfg : Config} {sites : List Site} {to4 : String → Option UInt32}
  {reqSeq : UInt32 → UInt64} {s s' : Clients}

theorem answered_start : Answered cfg sites to4 reqSeq (Clients.start sites reqSeq) where
  net := ⟨[], by simp, rfl⟩
  pending := by simp [Clients.start]
  handlers := fun _ => ⟨[], rfl, by simp⟩
  low := by simp [Clients.start]
  once := by simp [Clients.start]
  accepted := by simp [Clients.start, Network.start, Network.requests]

theorem Answered.handle (h : Answered cfg sites to4 reqSeq s) {node : UInt32}
    {a : RequestIds.Action}
    (hlookup : ∀ u d, a = .lookup u d → (node, ⟨u, d⟩) ∈ s.net.deliveries)
    (hs : handleStep to4 s node a = some s') : Answered cfg sites to4 reqSeq s' := by
  obtain ⟨servers, hstep, rfl⟩ := Option.map_eq_some_iff.mp hs
  refine { h with handlers := ?_, low := ?_ }
  · intro n
    obtain ⟨actions, hrun, hall⟩ := h.handlers n
    by_cases hn : n = node
    · subst hn
      refine ⟨actions ++ [a], ?_, ?_⟩
      · simp only [Function.update_self]
        exact StepRuns.run_concat_eq_some.mpr ⟨_, hrun, hstep⟩
      · intro u d hmem
        rcases List.mem_append.mp hmem with hold | hnew
        · exact hall u d hold
        · exact hlookup u d (List.mem_singleton.mp hnew).symm
    · simp only [Function.update_of_ne hn]
      exact ⟨actions, hrun, hall⟩
  · intro x hx
    refine ⟨(h.low x hx).1.trans ?_, (h.low x hx).2⟩
    by_cases hn : x.node = node
    · simp only [hn, Function.update_self]
      exact generated_mono hstep
    · simp only [Function.update_of_ne hn, le_rfl]

theorem Answered.traffic (h : Answered cfg sites to4 reqSeq s) {a : NetAction} {net : Network}
    (hplain : Plain cfg a) (hother : Requests a = false) (hs : netStep cfg s.net a = some net) :
    Answered cfg sites to4 reqSeq { s with
      net, pending := s.pending ++ net.deliveries.drop s.net.deliveries.length } := by
  obtain ⟨⟨new, hnew, hresponse⟩, hcalls⟩ := change_of_step hs
  have hsub : s.net.deliveries ⊆ net.deliveries := List.filterMap_subset _ hcalls
  refine { h with net := ?_, pending := ?_, handlers := ?_, accepted := ?_ }
  · obtain ⟨actions, hall, hrun⟩ := h.net
    exact ⟨actions ++ [a], List.forall_mem_append.mpr ⟨hall, by simpa using hplain⟩,
      StepRuns.run_concat_eq_some.mpr ⟨_, hrun, hs⟩⟩
  · exact List.append_subset.mpr ⟨List.Subset.trans h.pending hsub, List.drop_subset _ _⟩
  · intro node
    obtain ⟨actions, hrun, hall⟩ := h.handlers node
    exact ⟨actions, hrun, fun u d hmem => hsub (hall u d hmem)⟩
  · have hnone : new.filterMap (onSide .request) = [] := by
      rw [List.filterMap_eq_nil_iff]
      intro x hx
      simp [onSide, hresponse hother x hx]
    rw [Network.requests, hnew, List.filterMap_append, hnone, List.append_nil]
    exact h.accepted

theorem Answered.submit (h : Answered cfg sites to4 reqSeq s) {node : UInt32} {c : ℕ}
    {server : Server} {routing : List PathInfo} {data : List UInt8}
    (hplain : ∀ reqID, Plain cfg (.request node server routing reqID data))
    (hs : submitStep s node c server routing data = some s') :
    Answered cfg sites to4 reqSeq s' := by
  unfold submitStep at hs
  split at hs
  swap
  · cases hs
  rename_i reqID born ch hc
  split at hs
  swap
  · cases hs
  rename_i msg hserve
  obtain ⟨hfirst, heq⟩ := Option.ite_none_right_eq_some.mp hs
  cases heq
  refine { h with net := ?_, low := ?_, once := ?_, accepted := ?_ }
  · obtain ⟨actions, hall, hrun⟩ := h.net
    refine ⟨actions ++ [.request node server routing reqID data], ?_,
      StepRuns.run_concat_eq_some.mpr ⟨_, hrun, by simp only [netStep, hserve]⟩⟩
    exact List.forall_mem_append.mpr ⟨hall, by simpa using hplain reqID⟩
  · obtain ⟨actions, hrun, -⟩ := h.handlers node
    rw [List.forall_mem_append, List.forall_mem_singleton]
    exact ⟨h.low, (numbered_run hrun).low c reqID born (by rw [hc]; rfl)⟩
  · intro x hx y hy hnode hborn
    rcases List.mem_append.mp hx with hx | hx <;> rcases List.mem_append.mp hy with hy | hy
    · exact h.once x hx y hy hnode hborn
    · cases List.mem_singleton.mp hy
      exact absurd ⟨hnode, hborn⟩ (hfirst x hx)
    · cases List.mem_singleton.mp hx
      exact absurd ⟨hnode.symm, hborn.symm⟩ (hfirst y hy)
    · rw [List.mem_singleton.mp hx, List.mem_singleton.mp hy]
  · have hrequests : (s.net.addToBatch ⟨node, .request⟩ msg).requests =
        s.net.requests ++ [(node, msg)] := by
      simp [Network.requests, Network.addToBatch, onSide]
    rw [hrequests, List.forall_mem_append, List.forall_mem_singleton]
    refine ⟨fun y hy => ?_, _, List.mem_append_right _ (List.mem_singleton.mpr rfl), rfl, hserve⟩
    obtain ⟨x, hx, hfields⟩ := h.accepted y hy
    exact ⟨x, List.mem_append_left _ hx, hfields⟩

theorem answered_step (h : Answered cfg sites to4 reqSeq s) {a : ClientAct} (hfair : FairTo cfg a)
    (hs : step cfg to4 s a = some s') : Answered cfg sites to4 reqSeq s' := by
  cases a with
  | net a =>
    obtain ⟨hother, heq⟩ := Option.ite_none_left_eq_some.mp hs
    obtain ⟨net, hnet, rfl⟩ := Option.map_eq_some_iff.mp heq
    exact h.traffic hfair (Bool.not_eq_true _ ▸ hother) hnet
  | handle node a =>
    simp only [step] at hs
    split at hs
    · cases hs
    · rename_i hlookup
      exact h.handle (fun u d heq => absurd heq (hlookup u d)) hs
  | submit node c server routing data => exact h.submit hfair hs
  | lookup j =>
    simp only [step] at hs
    split at hs
    · cases hs
    · rename_i node sub hj
      obtain ⟨t, ht, rfl⟩ := Option.map_eq_some_iff.mp hs
      have hanswered : Answered cfg sites to4 reqSeq t := by
        refine h.handle ?_ ht
        rintro u d ⟨⟩
        exact h.pending (List.mem_of_getElem? hj)
      obtain ⟨servers, -, rfl⟩ := Option.map_eq_some_iff.mp ht
      exact { hanswered with pending := fun d hd => h.pending (List.mem_of_mem_eraseIdx hd) }

/-- What a handler finds in its channel was delivered to its node under its id. -/
theorem Answered.delivered (h : Answered cfg sites to4 reqSeq s) {node reqID : UInt32}
    {c born ch : ℕ} {data : List UInt8} {d : Disaggregation.Disaggregator}
    (hfew : (s.servers node).generated < 2 ^ 24)
    (hc : (s.servers node).conns c = .waiting reqID born ch)
    (hreceive : (s.servers node).disagg.receive ch = some (data, d)) :
    (node, ⟨reqID, data⟩) ∈ s.net.deliveries := by
  obtain ⟨actions, hrun, hall⟩ := h.handlers node
  have hinv := RequestIsolation.inv_run (spaced_of_few hrun hfew) hrun
  obtain ⟨-, front, back, s₁, c₁, reqID₁, born₁, rfl, -, -, hunique⟩ :=
    hinv.passed ch data (Disaggregation.holds_of_receive hreceive)
  obtain ⟨-, heq⟩ := hunique c (reqID, born, ch) (by rw [Servers.reg, hc]; rfl) rfl
  cases heq
  exact hall reqID data (List.mem_append_right _ List.mem_cons_self)

end Invariant

section Sample

/-- A client of 10.0.0.1 asks for the route over three hops. -/
def asking (c : ℕ) : List ClientAct :=
  [.handle 0x0A000001 (.generate c "192.0.2.1"), .handle 0x0A000001 (.register c),
    .submit 0x0A000001 c .tcp [threeHops.pathInfo] (List.replicate 128 10)]

/-- An answer that is back goes into the channel of its handler. -/
def handedOver : List ClientAct := [.lookup 0, .handle 0x0A000001 (.send 0)]

/-- The requests of two clients share a packet, and their answers come back one by one. -/
def clientJourney : List ClientAct :=
  asking 3 ++ batched.map .net ++ asking 4 ++
    (sentTogether ++ secondAnswered ++ firstDelivered).map .net ++ handedOver ++ handedOver

theorem fair_asking (c : ℕ) : ∀ a ∈ asking c, FairTo smallBuffers a := by
  intro a ha
  simp only [asking, List.mem_cons, List.not_mem_nil, or_false] at ha
  rcases ha with rfl | rfl | rfl
  · trivial
  · trivial
  · exact fun reqID => plain_request reqID

theorem fair_handedOver : ∀ a ∈ handedOver, FairTo smallBuffers a := by
  intro a ha
  simp only [handedOver, List.mem_cons, List.not_mem_nil, or_false] at ha
  rcases ha with rfl | rfl <;> trivial

theorem fair_clientJourney : ∀ a ∈ clientJourney, FairTo smallBuffers a := by
  have hlegs : ∀ b ∈ batched ++ sentTogether ++ secondAnswered ++ firstDelivered,
      FairTo smallBuffers (.net b) := fun b hb => (calm_legs b hb).1
  intro a ha
  simp only [clientJourney, List.mem_append, List.mem_map] at ha hlegs
  rcases ha with ((((ha | ⟨b, hb, rfl⟩) | ha) | ⟨b, hb, rfl⟩) | ha) | ha
  · exact fair_asking 3 a ha
  · exact hlegs b (Or.inl (Or.inl (Or.inl hb)))
  · exact fair_asking 4 a ha
  · exact hlegs b (by tauto)
  · exact fair_handedOver a ha
  · exact fair_handedOver a ha

end Sample

section Runs
variable {cfg : Config} {sites : List Site} {to4 : String → Option UInt32}
  {reqSeq : UInt32 → UInt64} {s : Clients} {actions : List ClientAct}

/-- In every run of clients and proxies, whatever the order: what a handler that has handed over
its request finds in its channel is the answer of the origin of its own route to the bytes of
its own client. -/
theorem clients_get_answers (hsize : cfg.bufferSize ≤ headerSize + 65535)
    (hfair : ∀ a ∈ actions, FairTo cfg a)
    (hrun : run (step cfg to4) (Clients.start sites reqSeq) actions = some s)
    (hports : PortsApart cfg s.net.added) {x : Asked} (hx : x ∈ s.asked)
    (hfew : (s.servers x.node).generated < 2 ^ 24) {c ch : ℕ} {reqID : UInt32}
    {data : List UInt8} {d : Disaggregation.Disaggregator}
    (hc : (s.servers x.node).conns c = .waiting reqID x.born ch)
    (hreceive : (s.servers x.node).disagg.receive ch = some (data, d)) :
    reqID = x.reqID ∧ ∃ msg r last,
      serve x.server x.routing x.reqID x.data = .ok (.batched msg) ∧ RequestFor r msg ∧
        (last, requestTask r ⟨x.reqID, x.data⟩, data) ∈ s.net.answers := by
  have h : Answered cfg sites to4 reqSeq s := StepRuns.run_keeps_of_mem
    (fun _ _ _ ha h hs => answered_step h ha hs) hfair answered_start hrun
  obtain ⟨netActions, hplain, hnet⟩ := h.net
  obtain ⟨k, hbalanced, -⟩ := balanced_run hsize hplain hnet hports
  obtain ⟨a, ha, hnode, hid, r, last, hreq, hanswer⟩ :=
    (matched_deliveries hbalanced).exists_of_mem
      (Multiset.mem_coe.mpr (h.delivered hfew hc hreceive))
  obtain ⟨y, hy, hynode, hserve⟩ := h.accepted a ha
  have hsub := toSub_batched hserve
  have hyid : reqID = y.reqID := hid.trans (congrArg SubPacket.userID hsub)
  -- the request that was answered is the handler's own
  have hsame : x = y := by
    have hsite : x.node = y.node := hnode.trans hynode.symm
    obtain ⟨netHandlers, hhandlers, -⟩ := h.handlers x.node
    obtain ⟨hborn, hlow⟩ := (numbered_run hhandlers).low c reqID x.born (by rw [hc]; rfl)
    obtain ⟨hborn', hlow'⟩ := h.low y hy
    rw [← hsite] at hborn' hlow'
    rw [hyid] at hlow
    exact h.once x hx y hy hsite (by omega)
  subst hsame
  exact ⟨hyid, a.2, r, last, hserve, hreq, hsub ▸ hanswer⟩

theorem clients_get_answers_clientJourney : ∃ s x y,
    run (step smallBuffers fun _ => none) (Clients.start twoNodes fun _ => 6) clientJourney =
        some s ∧ x ∈ s.asked ∧ y ∈ s.asked ∧ x.reqID = 7 ∧ y.reqID = 8 ∧
      (∃ r last, (last, requestTask r ⟨7, x.data⟩, [1, 2]) ∈ s.net.answers) ∧
      ∃ r last, (last, requestTask r ⟨8, y.data⟩, [3]) ∈ s.net.answers := by
  have hend : (run (step smallBuffers fun _ => none) (Clients.start twoNodes fun _ => 6)
      clientJourney).map (fun s => decide
        ((∃ x ∈ s.asked, (x.node = 0x0A000001 ∧ x.reqID = 7) ∧
          (s.servers x.node).conns 3 = .waiting 7 x.born 0 ∧
          ((s.servers x.node).disagg.receive 0).map Prod.fst = some [1, 2]) ∧
        (∃ y ∈ s.asked, (y.node = 0x0A000001 ∧ y.reqID = 8) ∧
          (s.servers y.node).conns 4 = .waiting 8 y.born 1 ∧
          ((s.servers y.node).disagg.receive 1).map Prod.fst = some [3]) ∧
        (s.servers 0x0A000001).generated < 2 ^ 24 ∧
        ∀ x ∈ s.net.added, ∀ y ∈ s.net.added, x.2.hops = y.2.hops → x.2.port = y.2.port)) =
      some true := by
    decide +kernel
  obtain ⟨s, hs, hall⟩ := Option.map_eq_some_iff.mp hend
  rw [decide_eq_true_iff] at hall
  obtain ⟨⟨x, hx, ⟨hxnode, hxid⟩, hxc, hxr⟩, ⟨y, hy, ⟨hynode, hyid⟩, hyc, hyr⟩, hfew, hports⟩ :=
    hall
  obtain ⟨⟨data, d⟩, hxd, rfl⟩ := Option.map_eq_some_iff.mp hxr
  obtain ⟨⟨data', d'⟩, hyd, rfl⟩ := Option.map_eq_some_iff.mp hyr
  obtain ⟨-, -, r, last, -, -, hanswer⟩ := clients_get_answers (by decide) fair_clientJourney hs
    (portsApart_of_forall hports) hx (by rwa [hxnode]) hxc hxd
  obtain ⟨-, -, r', last', -, -, hanswer'⟩ := clients_get_answers (by decide) fair_clientJourney hs
    (portsApart_of_forall hports) hy (by rwa [hynode]) hyc hyd
  rw [hxid] at hanswer
  rw [hyid] at hanswer'
  exact ⟨s, x, y, hs, hx, hy, hxid, hyid, ⟨r, last, hanswer⟩, r', last', hanswer'⟩

end Runs

end Arcturus.ClientSessions
