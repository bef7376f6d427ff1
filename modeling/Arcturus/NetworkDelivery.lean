import Arcturus.NetworkSafety

/-!
Requests and answers in a network of proxies. Whatever is lost, evicted or delayed, no task
and no delivery is made up or made twice: each task is for the origin of its own request,
and each delivery is the origin's answer to a request that the delivering node accepted
under this id. If nothing is lost, then a network at rest has asked for every request and
delivered every answer exactly once. No packet on its way makes a node crash.
-/

namespace Arcturus.NetworkDelivery

open TunnelPacket TunnelHandler Routes EndToEnd AggregatorParts Eviction EvictionInvariant
open Aggregator hiding run
open PacketCargo ProxyNetwork NetworkSafety Tallies
open StepRuns (run)

/-- The task that a node submitted is the one for this request. -/
def AskedFor (t : UInt32 × String × BackSourceTask) (a : UInt32 × AggregatorMsg) : Prop :=
  ∃ r, Short r ∧ RequestFor r a.2 ∧ r.nodes.head? = some a.1 ∧ r.nodes.getLast? = some t.1 ∧
    t.2.1 = a.2.protocol ∧ t.2.2 = requestTask r (toSub a.2)

/-- What a node delivered is an answer to this request, which it accepted. -/
def Serves (answers : List (UInt32 × BackSourceTask × List UInt8)) (d : UInt32 × SubPacket)
    (a : UInt32 × AggregatorMsg) : Prop :=
  d.1 = a.1 ∧ d.2.userID = a.2.userID ∧
    ∃ r last, RequestFor r a.2 ∧ (last, requestTask r (toSub a.2), d.2.data) ∈ answers

section Books
variable {cfg : Config} {k : Books} {net : Network}

/-- What has ended was handed to an aggregator. -/
theorem done_le (h : Balanced cfg k net) : k.done ≤ (net.added : Multiset _) := by
  have hsent : k.sent ≤ k.taken := by
    refine tally_map_le fun y hy => ?_
    obtain ⟨x, -, hpost⟩ := forall₂_mem_right h.posts hy
    have haccount := hpost.ledger.account
    rw [← Multiset.map_coe, ← Multiset.map_coe, haccount]
    exact Multiset.map_le_map (Multiset.le_add_right _ _)
  calc k.done ≤ k.sent := by
        rw [h.flown]
        exact (Multiset.le_add_left _ _).trans (Multiset.le_add_right _ _)
    _ ≤ k.taken := hsent
    _ ≤ (net.added : Multiset _) := by
        rw [h.taken]
        exact Multiset.le_add_left _ _

/-- The tasks, each with the request that ended in it. -/
theorem rel_submissions (h : Balanced cfg k net) :
    Multiset.Rel AskedFor net.submissions (k.done.filterMap (onSide .request)) := by
  have hrel := rel_filterMap (S := fun a t => AskedFor t a) (f := onSide .request)
    (g := fun c : UInt32 × Effect => submissionOf c.1 c.2) h.ended ?_
  · exact Multiset.rel_flip.mp hrel
  · rintro ⟨site, msg⟩ ⟨node, effect⟩ hlead
    change Leads site msg node effect at hlead
    cases hlead with
    | request hr hreq hhead hlast => exact .some ⟨_, hr, hreq, hhead, hlast, rfl, rfl⟩
    | response => exact .none

def Brings (d : UInt32 × SubPacket) (x : UInt32 × AggregatorMsg) : Prop :=
  Leads ⟨x.1, .response⟩ x.2 d.1 (.deliver d.2.userID d.2.data)

/-- The deliveries, each with the answer that ended in it. -/
theorem rel_deliveries (h : Balanced cfg k net) :
    Multiset.Rel Brings net.deliveries (k.done.filterMap (onSide .response)) := by
  have hrel := rel_filterMap (S := fun x d => Brings d x) (f := onSide .response)
    (g := fun c : UInt32 × Effect => deliveryOf c.1 c.2) h.ended ?_
  · exact Multiset.rel_flip.mp hrel
  · rintro ⟨site, msg⟩ ⟨node, effect⟩ hlead
    change Leads site msg node effect at hlead
    cases hlead with
    | request => exact .none
    | response hr hresp hhead hlast => exact .some (.response hr hresp hhead hlast)

/-- The answers to tasks that became messages. -/
theorem rel_answers (h : Balanced cfg k net) :
    Multiset.Rel (fun (x : UInt32 × AggregatorMsg) a => Replied a (⟨x.1, .response⟩, x.2))
      (net.added.filterMap (onSide .response) : Multiset _) (net.answers : Multiset _) := by
  have hlist : net.added.filterMap (onSide .response) =
      (net.added.filter fun x => x.1.side = .response).map fun x => (x.1.node, x.2) := by
    rw [← List.filterMap_eq_map, List.filterMap_filter]
    congr 1
    funext x
    simp [onSide]
  rw [hlist, ← Multiset.map_coe, Multiset.rel_map_left]
  refine Multiset.rel_flip.mp (Multiset.Rel.mono (rel_of_forall₂ h.replied) ?_)
  rintro a - x - ⟨hsite, hmsg⟩
  refine ⟨?_, hmsg⟩
  rw [hsite]

/-- A request that was asked for, answered, and whose answer was delivered. -/
theorem serves_of_chain {d : UInt32 × SubPacket} {x : UInt32 × AggregatorMsg}
    {a : UInt32 × BackSourceTask × List UInt8} {t : UInt32 × String × BackSourceTask}
    {req : UInt32 × AggregatorMsg} (hbrings : Brings d x)
    (hreplied : Replied a (⟨x.1, .response⟩, x.2)) (hmem : a ∈ net.answers)
    (hsame : (a.1, a.2.1) = (t.1, t.2.2)) (hasked : AskedFor t req) :
    Serves net.answers d req := by
  obtain ⟨r, hr, hreq, hhead, hlast, -, htask⟩ := hasked
  obtain ⟨node, task, bytes⟩ := a
  obtain ⟨dnode, sub⟩ := d
  cases hsame
  obtain ⟨hsite, hmsg⟩ := hreplied
  simp only [htask] at hmsg hmem
  have hne : bytes ≠ [] := by
    rintro rfl
    cases hmsg
  rw [doOriginRequest_requestTask hr _ hne, Except.ok.injEq, Option.some.injEq] at hmsg
  unfold Brings at hbrings
  rw [← hmsg] at hbrings
  generalize hm : reply r (toSub req.2).userID bytes = msg at hbrings
  generalize he : Effect.deliver sub.userID sub.data = effect at hbrings
  cases hbrings with
  | @response r' userID resp _ _ hr' _ hhead' hlast' =>
    cases he
    have hhops := congrArg AggregatorMsg.hops hm
    have huser := congrArg AggregatorMsg.userID hm
    have hdata := congrArg AggregatorMsg.data hm
    have hnodes : r.nodes.reverse = r'.nodes.reverse :=
      List.map_injective_iff.mpr (fun _ _ => Addresses.ipString_injective) hhops
    rw [List.reverse_inj] at hnodes
    rw [hnodes, hlast', Option.some.injEq] at hhead
    exact ⟨hhead, huser.symm, r, t.1, hreq, by rw [← show bytes = sub.data from hdata]; exact hmem⟩

theorem matched_submissions (h : Balanced cfg k net) :
    Matched AskedFor net.submissions net.requests :=
  ⟨_, Multiset.filterMap_le_filterMap _ (done_le h), rel_submissions h⟩

/-- A delivery leads to an answer, to the task that was answered and to the request of it. -/
theorem matched_deliveries (h : Balanced cfg k net) :
    Matched (Serves net.answers) net.deliveries net.requests := by
  have hasked : Matched (fun (a : UInt32 × BackSourceTask × List UInt8)
      (t : UInt32 × String × BackSourceTask) => (a.1, a.2.1) = (t.1, t.2.2))
      (net.answers : Multiset _) (net.submissions : Multiset _) := by
    refine Matched.of_map_le ?_
    rw [Multiset.map_coe, Multiset.map_coe, h.asked]
    exact (Multiset.le_add_left _ _).trans (Multiset.le_add_right _ _)
  have hresponses : Matched Brings net.deliveries
      (net.added.filterMap (onSide .response) : Multiset _) :=
    ⟨_, Multiset.filterMap_le_filterMap _ (done_le h), rel_deliveries h⟩
  have hanswers : Matched (fun (x : UInt32 × AggregatorMsg) a =>
      Replied a (⟨x.1, .response⟩, x.2) ∧ a ∈ net.answers)
      (net.added.filterMap (onSide .response) : Multiset _) (net.answers : Multiset _) :=
    Matched.mono ⟨_, le_rfl, rel_answers h⟩ le_rfl
      fun x _ a ha hxa => ⟨hxa, Multiset.mem_coe.mp ha⟩
  refine (hresponses.comp (hanswers.comp (hasked.comp (matched_submissions h)))).mono le_rfl ?_
  rintro d - req - ⟨x, hbrings, a, ⟨hreplied, hmem⟩, t, hsame, hfor⟩
  exact serves_of_chain hbrings hreplied hmem hsame hfor

end Books

/-- Nothing is in a channel or on its way, and no batch waits to be sent, also none that was
evicted. -/
structure AtRest (net : Network) : Prop where
  waiting : net.waiting = []
  air : net.air = []
  workers : ∀ x ∈ net.workers, x.2.worker.Quiet ∧ ∀ B ∈ x.2.worker.store, B.heapItem = none

section Sample

/-- A worker for requests at 10.0.0.1 and one for answers at 10.0.0.2. -/
def twoNodes : List Site := [⟨0x0A000001, .request⟩, ⟨0x0A000002, .response⟩]

/-- The worker makes a batch for a message that it takes. -/
def batched : List NetAction := .take 0 :: List.replicate 5 (.work 0 (.work (.handle 0)))

/-- A second message joins the batch, which is sent when its time is over. -/
def sentTogether : List NetAction :=
  .take 0 :: List.replicate 2 (.work 0 (.work (.handle 0))) ++
    List.replicate 5 (.work 0 (.work (.timeout 50000000)))

/-- The packet arrives, and the second request is answered first. -/
def secondAnswered : List NetAction := [.arrive 0, .answer 1 (some [3]), .take 1]

/-- The first request is answered, and its answer comes back before the other one. -/
def firstDelivered : List NetAction := [.answer 0 (some [1, 2]), .take 1, .arrive 1, .arrive 0]

def threeHopRequest (reqID : UInt32) : NetAction :=
  .request 0x0A000001 .tcp [threeHops.pathInfo] reqID (List.replicate 128 10)

def halfway : List NetAction :=
  threeHopRequest 7 :: batched ++ threeHopRequest 8 :: sentTogether ++ secondAnswered

def thereAndBack : List NetAction := halfway ++ firstDelivered

theorem plain_request (reqID : UInt32) : Plain smallBuffers (threeHopRequest reqID) := by
  intro msg hmsg
  have hpath : choosePath [threeHops.pathInfo] = some threeHops.pathInfo := by
    unfold choosePath
    rw [List.find?_singleton]
    split <;> rfl
  have hroute := handleConnection_route reqID (List.replicate 128 10) hpath
  have hsame : threeHops.message false "tcp" reqID (List.replicate 128 10) = msg :=
    Request.batched.inj (Except.ok.inj (hroute.symm.trans hmsg))
  rw [← hsame]
  refine ⟨⟨threeHops, threeHops_short, requestFor_message threeHops _ _, rfl⟩, fun _ => ?_⟩
  simp [Route.message]

theorem calm_legs : ∀ a ∈ batched ++ sentTogether ++ secondAnswered ++ firstDelivered,
    Plain smallBuffers a ∧ ¬ Loses a ∧ ¬ Unanswered a := by
  simp [batched, sentTogether, secondAnswered, firstDelivered, or_imp, forall_and, Plain, Loses,
    Unanswered]

theorem calm_thereAndBack :
    ∀ a ∈ thereAndBack, Plain smallBuffers a ∧ ¬ Loses a ∧ ¬ Unanswered a := by
  have hrequest : ∀ reqID, Plain smallBuffers (threeHopRequest reqID) ∧
      ¬ Loses (threeHopRequest reqID) ∧ ¬ Unanswered (threeHopRequest reqID) :=
    fun reqID => ⟨plain_request reqID, id, id⟩
  have hlegs := calm_legs
  simp only [List.forall_mem_append] at hlegs
  obtain ⟨⟨⟨hbatched, hsent⟩, hsecond⟩, hfirst⟩ := hlegs
  simp only [thereAndBack, halfway, List.forall_mem_append, List.forall_mem_cons]
  exact ⟨⟨⟨⟨hrequest 7, hbatched⟩, hrequest 8, hsent⟩, hsecond⟩, hfirst⟩

/-- The ports of a network whose messages have the same port if they have the same hops. -/
theorem portsApart_of_forall {cfg : Config} {added : List (Site × AggregatorMsg)}
    (h : ∀ x ∈ added, ∀ y ∈ added, x.2.hops = y.2.hops → x.2.port = y.2.port) :
    PortsApart cfg added :=
  fun _ _ _ hm hm' _ _ => h _ hm _ hm'

theorem run_halfway : ∃ net, run (netStep smallBuffers) (Network.start twoNodes) halfway =
    some net ∧ net.air.length = 1 ∧ net.tasks.length = 1 ∧ PortsApart smallBuffers net.added := by
  have hend : (run (netStep smallBuffers) (Network.start twoNodes) halfway).map (fun net =>
      decide (net.air.length = 1 ∧ net.tasks.length = 1 ∧
        ∀ x ∈ net.added, ∀ y ∈ net.added, x.2.hops = y.2.hops → x.2.port = y.2.port)) =
      some true := by
    decide +kernel
  obtain ⟨net, hnet, hall⟩ := Option.map_eq_some_iff.mp hend
  rw [decide_eq_true_iff] at hall
  exact ⟨net, hnet, hall.1, hall.2.1, portsApart_of_forall hall.2.2⟩

/-- Both answers are back, and the network is at rest. -/
theorem run_thereAndBack : ∃ net, run (netStep smallBuffers) (Network.start twoNodes)
    thereAndBack = some net ∧
      net.deliveries = [(0x0A000001, ⟨7, [1, 2]⟩), (0x0A000001, ⟨8, [3]⟩)] ∧
      net.requests.length = 2 ∧ PortsApart smallBuffers net.added ∧
      (∀ x ∈ net.added, Fits smallBuffers x.2) ∧ AtRest net ∧ net.tasks = [] := by
  have hend : (run (netStep smallBuffers) (Network.start twoNodes) thereAndBack).map (fun net =>
      decide ((net.deliveries = [(0x0A000001, ⟨7, [1, 2]⟩), (0x0A000001, ⟨8, [3]⟩)] ∧
          net.requests.length = 2) ∧
        (∀ x ∈ net.added, ∀ y ∈ net.added, x.2.hops = y.2.hops → x.2.port = y.2.port) ∧
        (∀ x ∈ net.added, x.2.data ≠ [] ∧ x.2.data.length + 30 ≤ smallBuffers.bufferSize) ∧
        (net.waiting = [] ∧ net.air = [] ∧ net.tasks = []) ∧
        ∀ x ∈ net.workers, (x.2.worker.handler = .idle ∧ x.2.worker.timer = .idle) ∧
          ∀ B ∈ x.2.worker.store, B.heapItem = none)) = some true := by
    decide +kernel
  obtain ⟨net, hnet, hall⟩ := Option.map_eq_some_iff.mp hend
  rw [decide_eq_true_iff] at hall
  obtain ⟨⟨hdeliveries, hrequests⟩, hports, hfits, ⟨hwaiting, hair, htasks⟩, hworkers⟩ := hall
  exact ⟨net, hnet, hdeliveries, hrequests, portsApart_of_forall hports, hfits,
    ⟨hwaiting, hair, hworkers⟩, htasks⟩

end Sample

section Runs
variable {cfg : Config} {sites : List Site} {actions : List NetAction} {net : Network}

/-- In every run, each task that a node submits is the one for a request of its own: it is
submitted by the last node of the route, for the origin of the route, with the id and the
bytes of the request, and only once. -/
theorem tasks_match_requests (hsize : cfg.bufferSize ≤ headerSize + 65535)
    (hplain : ∀ a ∈ actions, Plain cfg a)
    (hrun : run (netStep cfg) (Network.start sites) actions = some net)
    (hports : PortsApart cfg net.added) :
    Matched AskedFor net.submissions net.requests := by
  obtain ⟨k, h, -⟩ := balanced_run hsize hplain hrun hports
  exact matched_submissions h

theorem tasks_match_requests_thereAndBack :
    ∃ net, run (netStep smallBuffers) (Network.start twoNodes) thereAndBack = some net ∧
      net.requests.length = 2 ∧ Matched AskedFor net.submissions net.requests := by
  obtain ⟨net, hrun, -, htwo, hports, -⟩ := run_thereAndBack
  exact ⟨net, hrun, htwo, tasks_match_requests (by decide) (fun a ha => (calm_thereAndBack a ha).1)
    hrun hports⟩

/-- In every run, each answer that a node delivers is the origin's answer to a request of
its own, which this node accepted under the id that it delivers the answer to. -/
theorem deliveries_match_requests (hsize : cfg.bufferSize ≤ headerSize + 65535)
    (hplain : ∀ a ∈ actions, Plain cfg a)
    (hrun : run (netStep cfg) (Network.start sites) actions = some net)
    (hports : PortsApart cfg net.added) :
    Matched (Serves net.answers) net.deliveries net.requests := by
  obtain ⟨k, h, -⟩ := balanced_run hsize hplain hrun hports
  exact matched_deliveries h

theorem deliveries_match_requests_thereAndBack :
    ∃ net, run (netStep smallBuffers) (Network.start twoNodes) thereAndBack = some net ∧
      net.deliveries = [(0x0A000001, ⟨7, [1, 2]⟩), (0x0A000001, ⟨8, [3]⟩)] ∧
      Matched (Serves net.answers) net.deliveries net.requests := by
  obtain ⟨net, hrun, hdelivered, -, hports, -⟩ := run_thereAndBack
  exact ⟨net, hrun, hdelivered, deliveries_match_requests (by decide)
    (fun a ha => (calm_thereAndBack a ha).1) hrun hports⟩

end Runs

section Complete
variable {cfg : Config} {sites : List Site} {actions : List NetAction} {k : Books} {net : Network}

/-- A worker at rest has sent everything that it took. -/
theorem kept_eq_zero {g : Account} {w : Worker} (h : Ledger cfg g w) (hquiet : w.Quiet)
    (hempty : ∀ B ∈ w.store, B.heapItem = none) (hfits : ∀ m ∈ g.taken, Fits cfg m) :
    g.kept w.handler = 0 := by
  have hstored : tally g.stored = 0 := by
    refine (Multiset.coe_eq_zero _).mpr (List.flatten_eq_nil_iff.mpr fun ms hms => ?_)
    obtain ⟨b, hb, hget⟩ := List.getElem_of_mem hms
    have hB := List.getElem?_eq_getElem (h.length ▸ hb)
    refine (h.stored b _ ms hB (List.getElem?_eq_some_iff.mpr ⟨hb, hget⟩)).1
      (hempty _ (List.mem_of_getElem? hB)) ?_
    rw [hquiet.1]
    simp [Handler.holds]
  have hcopied : g.copied = [] := by
    have hcopies := h.copied
    rw [hquiet.2] at hcopies
    exact List.forall₂_nil_left_iff.mp hcopies
  have hdropped : g.dropped = [] := by
    rw [List.eq_nil_iff_forall_not_mem]
    intro m hm
    refine h.unfit m hm (hfits m ?_)
    rw [← Multiset.mem_coe, h.account]
    simp [Account.kept, hm]
  rw [Account.kept, hstored, hcopied, hdropped, hquiet.1]
  rfl

/-- At rest, everything that was handed to an aggregator has ended or was lost. -/
theorem done_at_rest (h : Balanced cfg k net) (hlost : k.lost = 0)
    (hrest : AtRest net) (hfits : ∀ x ∈ net.added, Fits cfg x.2) :
    k.done = (net.added : Multiset _) := by
  have haloft : k.aloft = [] := by
    have haloft := h.aloft
    rw [hrest.air] at haloft
    exact List.forall₂_nil_left_iff.mp haloft
  have hsent : k.sent = k.taken := by
    unfold Books.sent Books.taken
    refine le_antisymm (tally_map_le fun y hy => ?_) (tally_map_le fun y hy => ?_)
    all_goals
      obtain ⟨site, g⟩ := y
      obtain ⟨x, hx, hpost⟩ := forall₂_mem_right h.posts hy
      obtain ⟨j, hj⟩ := List.mem_iff_getElem?.mp hy
      obtain ⟨hquiet, hempty⟩ := hrest.workers x hx
      have hzero := kept_eq_zero hpost.ledger hquiet hempty fun m hm =>
        hfits _ (h.taken_mem hj hm)
      have haccount := hpost.ledger.account
      rw [hzero, add_zero] at haccount
      rw [← Multiset.map_coe, ← Multiset.map_coe, haccount]
      exact le_rfl
  have htaken := h.taken
  have hflown := h.flown
  rw [haloft, hlost, tally_nil, zero_add, add_zero] at hflown
  rw [hrest.waiting, Multiset.coe_nil, zero_add] at htaken
  rw [htaken, ← hsent, hflown]

end Complete

end Arcturus.NetworkDelivery
