import Arcturus.EndToEnd
import Arcturus.PacketCargo
import Arcturus.RouteCache

/-!
A network of proxies: any number of nodes, each with an aggregator for requests and one for
answers, any number of workers in each of them, and the streams between the nodes. One step
is a request of a client, a worker that takes a message from its input channel or makes one
of its own steps, a stream that arrives or is lost, or an origin that answers. A stream
arrives as a whole; what streams that are cut short do is the subject of `TruncatedStreams`.
Calls that panic have no step.
-/

namespace Arcturus.ProxyNetwork

open TunnelPacket TunnelHandler Overlay Routes Aggregator AggregatorParts Eviction
open PacketCargo
open RouteCache (Server)

inductive Side where
  | request
  | response
  deriving DecidableEq, Repr

/-- One of the two aggregators of a node, `GlobalAggRequest` or `GlobalAggResponse`. -/
structure Site where
  node : UInt32
  side : Side
  deriving DecidableEq, Repr

def serve : Server → List PathInfo → UInt32 → List UInt8 → Except Failure Request
  | .tcp => handleConnection
  | .tcpKeepAlive => handleConnectionKeepAlive
  | .udp => handleUDPConnection

/-- The workers, the messages in the input channels, the streams on their way with their
destinations and the tasks of the back-sourcers. The last three fields are a record of the
calls of `AddToBatch`, of the calls of `Submit` and `Deliver`, and of the origins' answers. -/
structure Network where
  workers : List (Site × Evicting)
  waiting : List (Site × AggregatorMsg)
  air : List (UInt32 × List UInt8)
  tasks : List (UInt32 × BackSourceTask)
  added : List (Site × AggregatorMsg)
  calls : List (UInt32 × Effect)
  answers : List (UInt32 × BackSourceTask × List UInt8)

/-- All workers at rest and nothing on its way. -/
def Network.start (sites : List Site) : Network where
  workers := sites.map fun site => (site, Evicting.start)
  waiting := []
  air := []
  tasks := []
  added := []
  calls := []
  answers := []

def Network.addToBatch (net : Network) (site : Site) (msg : AggregatorMsg) : Network :=
  { net with waiting := net.waiting ++ [(site, msg)], added := net.added ++ [(site, msg)] }

/-- The packets that a worker flushed between two states. `SendPacket` refuses a missing
address. -/
def emitted (s s' : Evicting) : List (UInt32 × List UInt8) :=
  (s'.worker.flushed.drop s.worker.flushed.length).filterMap fun f =>
    f.nextHop.map fun nextHop => (nextHop, f.buf)

/-- The worker with number `k` goes from one state to the next one. -/
def Network.moved (net : Network) (k : ℕ) (site : Site) (s s' : Evicting) : Network :=
  { net with workers := net.workers.set k (site, s'), air := net.air ++ emitted s s' }

/-- A node carries out a call of the packet handler. -/
def perform (node : UInt32) (net : Network) : Effect → Network
  | .send ip out => { net with air := net.air ++ [(ip, out)] }
  | .submit protocol task =>
    { net with
      calls := net.calls ++ [(node, .submit protocol task)]
      tasks := net.tasks ++ [(node, task)] }
  | .deliver userID data => { net with calls := net.calls ++ [(node, .deliver userID data)] }

inductive NetAction where
  | request (node : UInt32) (server : Server) (routing : List PathInfo) (reqID : UInt32)
      (data : List UInt8)
  | take (k : ℕ)
  | work (k : ℕ) (a : Eviction.Action)
  | arrive (i : ℕ)
  | lose (i : ℕ)
  | answer (j : ℕ) (resp : Option (List UInt8))

/-- The worker takes the oldest message in the channel of its aggregator. -/
def takeStep (cfg : Config) (net : Network) (k : ℕ) : Option Network :=
  match net.workers[k]? with
  | none => none
  | some (site, s) =>
    match net.waiting.findIdx? fun x => x.1 = site with
    | none => none
    | some i =>
      match net.waiting[i]? with
      | none => none
      | some (_, msg) =>
        (Eviction.step cfg s (.work (.receive msg))).map fun s' =>
          { net.moved k site s s' with waiting := net.waiting.eraseIdx i }

/-- One of the goroutines of a worker makes a step of its own. -/
def workStep (cfg : Config) (net : Network) (k : ℕ) (a : Eviction.Action) : Option Network :=
  match net.workers[k]? with
  | none => none
  | some (site, s) =>
    if takes a = [] then (Eviction.step cfg s a).map (net.moved k site s) else none

/-- A stream arrives at its destination, which handles the packet in it. -/
def arriveStep (net : Network) (i : ℕ) : Option Network :=
  match net.air[i]? with
  | none => none
  | some (node, stream) =>
    let net' := { net with air := net.air.eraseIdx i }
    match receive stream with
    | none => some net'
    | some pkt =>
      match handleQUICPacket pkt with
      | .error _ => none
      | .ok effects => some (effects.foldl (perform node) net')

/-- A worker of a back-sourcer has asked the origin for a task. -/
def answerStep (net : Network) (j : ℕ) (resp : Option (List UInt8)) : Option Network :=
  match net.tasks[j]? with
  | none => none
  | some (node, task) =>
    let net' := { net with tasks := net.tasks.eraseIdx j }
    match doOriginRequest task resp with
    | .error _ => none
    | .ok none => some net'
    | .ok (some msg) =>
      some { net'.addToBatch ⟨node, .response⟩ msg with
        answers := net.answers ++ [(node, task, resp.getD [])] }

def netStep (cfg : Config) (net : Network) : NetAction → Option Network
  | .request node server routing reqID data =>
    match serve server routing reqID data with
    | .error _ => none
    | .ok (.batched msg) => some (net.addToBatch ⟨node, .request⟩ msg)
    | .ok _ => some net
  | .take k => takeStep cfg net k
  | .work k a => workStep cfg net k a
  | .arrive i => arriveStep net i
  | .lose i => if i < net.air.length then some { net with air := net.air.eraseIdx i } else none
  | .answer j resp => answerStep net j resp

def Requests : NetAction → Bool
  | .request .. => true
  | _ => false

/-- The node, for a message of this side. -/
def onSide (side : Side) (x : Site × AggregatorMsg) : Option (UInt32 × AggregatorMsg) :=
  if x.1.side = side then some (x.1.node, x.2) else none

/-- The requests that were accepted, each with the node that accepted it. -/
def Network.requests (net : Network) : List (UInt32 × AggregatorMsg) :=
  net.added.filterMap (onSide .request)

def deliveryOf (node : UInt32) : Effect → Option (UInt32 × SubPacket)
  | .deliver userID data => some (node, ⟨userID, data⟩)
  | _ => none

def submissionOf (node : UInt32) : Effect → Option (UInt32 × String × BackSourceTask)
  | .submit protocol task => some (node, protocol, task)
  | _ => none

/-- The answers that were delivered, each with the node that delivered it. -/
def Network.deliveries (net : Network) : List (UInt32 × SubPacket) :=
  net.calls.filterMap fun c => deliveryOf c.1 c.2

/-- The tasks that were submitted, each with its protocol and the node that submitted it. -/
def Network.submissions (net : Network) : List (UInt32 × String × BackSourceTask) :=
  net.calls.filterMap fun c => submissionOf c.1 c.2

section Steps
variable {cfg : Config} {net net' : Network}

theorem takeStep_eq {k : ℕ} (h : takeStep cfg net k = some net') :
    ∃ site s s' i msg, net.workers[k]? = some (site, s) ∧ net.waiting[i]? = some (site, msg) ∧
      Eviction.step cfg s (.work (.receive msg)) = some s' ∧
      net' = { net.moved k site s s' with waiting := net.waiting.eraseIdx i } := by
  unfold takeStep at h
  split at h
  · cases h
  rename_i site s hk
  split at h
  · cases h
  rename_i i hi
  split at h
  · cases h
  rename_i other msg hmsg
  obtain ⟨s', hs', rfl⟩ := Option.map_eq_some_iff.mp h
  obtain ⟨hlt, hsite, -⟩ := List.findIdx?_eq_some_iff_getElem.mp hi
  rw [List.getElem?_eq_getElem hlt, Option.some.injEq] at hmsg
  rw [hmsg, decide_eq_true_iff] at hsite
  cases hsite
  exact ⟨other, s, s', i, msg, hk, by rw [List.getElem?_eq_getElem hlt, hmsg], hs', rfl⟩

theorem workStep_eq {k : ℕ} {a : Eviction.Action} (h : workStep cfg net k a = some net') :
    ∃ site s s', net.workers[k]? = some (site, s) ∧ takes a = [] ∧
      Eviction.step cfg s a = some s' ∧ net' = net.moved k site s s' := by
  unfold workStep at h
  split at h
  · cases h
  rename_i site s hk
  split at h
  · rename_i htakes
    obtain ⟨s', hs', rfl⟩ := Option.map_eq_some_iff.mp h
    exact ⟨site, s, s', hk, htakes, hs', rfl⟩
  · cases h

theorem arriveStep_eq {i : ℕ} (h : arriveStep net i = some net') :
    ∃ node stream, net.air[i]? = some (node, stream) ∧
      ((receive stream = none ∧ net' = { net with air := net.air.eraseIdx i }) ∨
        ∃ pkt effects, receive stream = some pkt ∧ handleQUICPacket pkt = .ok effects ∧
          net' = effects.foldl (perform node) { net with air := net.air.eraseIdx i }) := by
  unfold arriveStep at h
  split at h
  · cases h
  rename_i node stream hi
  refine ⟨node, stream, hi, ?_⟩
  simp only at h
  split at h
  · rename_i hnone
    cases h
    exact Or.inl ⟨hnone, rfl⟩
  · rename_i pkt hpkt
    split at h
    · cases h
    · rename_i effects heffects
      cases h
      exact Or.inr ⟨pkt, effects, hpkt, heffects, rfl⟩

theorem answerStep_eq {j : ℕ} {resp : Option (List UInt8)}
    (h : answerStep net j resp = some net') :
    ∃ node task, net.tasks[j]? = some (node, task) ∧
      ((doOriginRequest task resp = .ok none ∧
          net' = { net with tasks := net.tasks.eraseIdx j }) ∨
        ∃ msg bytes, resp = some bytes ∧ doOriginRequest task (some bytes) = .ok (some msg) ∧
          net' = { net with
            tasks := net.tasks.eraseIdx j
            waiting := net.waiting ++ [(⟨node, .response⟩, msg)]
            added := net.added ++ [(⟨node, .response⟩, msg)]
            answers := net.answers ++ [(node, task, bytes)] }) := by
  unfold answerStep at h
  split at h
  · cases h
  rename_i node task hj
  refine ⟨node, task, hj, ?_⟩
  simp only at h
  split at h
  · cases h
  · rename_i hnone
    cases h
    exact Or.inl ⟨hnone, rfl⟩
  · rename_i msg hmsg
    cases h
    cases resp with
    | none => cases hmsg
    | some bytes => exact Or.inr ⟨msg, bytes, rfl, hmsg, rfl⟩

theorem foldl_perform_records (node : UInt32) (effects : List Effect) (net : Network) :
    (effects.foldl (perform node) net).added = net.added ∧
      net.calls ⊆ (effects.foldl (perform node) net).calls := by
  induction effects generalizing net with
  | nil => exact ⟨rfl, List.Subset.refl _⟩
  | cons e effects ih =>
    obtain ⟨hadded, hcalls⟩ := ih (perform node net e)
    have hgrow : net.calls ⊆ (perform node net e).calls := by cases e <;> simp [perform]
    rw [List.foldl_cons, hadded]
    exact ⟨by cases e <;> rfl, List.Subset.trans hgrow hcalls⟩

/-- The handler sends the packet on. -/
theorem foldl_perform_send (node ip : UInt32) (out : List UInt8) (net : Network) :
    [Effect.send ip out].foldl (perform node) net = { net with air := net.air ++ [(ip, out)] } :=
  rfl

/-- The handler hands sub-packets over and sends nothing. -/
theorem foldl_perform_calls (node : UInt32) {effects : List Effect}
    (hnone : ∀ ip out, .send ip out ∉ effects) (net : Network) :
    effects.foldl (perform node) net = { net with
      calls := net.calls ++ effects.map (Prod.mk node)
      tasks := net.tasks ++ effects.filterMap fun e => (submissionOf node e).map fun x =>
        (x.1, x.2.2) } := by
  induction effects generalizing net with
  | nil => simp
  | cons e effects ih =>
    have hrest : ∀ ip out, .send ip out ∉ effects :=
      fun ip out hmem => hnone ip out (List.mem_cons_of_mem _ hmem)
    rw [List.foldl_cons, ih hrest]
    cases e with
    | submit protocol task => simp [perform, submissionOf]
    | send ip out => exact absurd List.mem_cons_self (hnone ip out)
    | deliver userID data => simp [perform, submissionOf]

/-- What a step does with the records of messages and of calls. -/
structure Change (a : NetAction) (net net' : Network) : Prop where
  added : ∃ new, net'.added = net.added ++ new ∧
    (Requests a = false → ∀ x ∈ new, x.1.side = .response)
  calls : net.calls ⊆ net'.calls

theorem change_of_same {a : NetAction} (hadded : net'.added = net.added)
    (hcalls : net.calls ⊆ net'.calls) : Change a net net' :=
  ⟨⟨[], by rw [hadded, List.append_nil], by simp⟩, hcalls⟩

theorem change_of_step {a : NetAction} (hs : netStep cfg net a = some net') :
    Change a net net' := by
  cases a with
  | request node server routing reqID data =>
    simp only [netStep] at hs
    split at hs
    · cases hs
    · cases hs
      exact ⟨⟨_, rfl, by simp [Requests]⟩, List.Subset.refl _⟩
    · cases hs
      exact change_of_same rfl (List.Subset.refl _)
  | take j =>
    obtain ⟨site, s, s', i, msg, -, -, -, rfl⟩ := takeStep_eq hs
    exact change_of_same rfl (List.Subset.refl _)
  | work j b =>
    obtain ⟨site, s, s', -, -, -, rfl⟩ := workStep_eq hs
    exact change_of_same rfl (List.Subset.refl _)
  | arrive i =>
    obtain ⟨node, stream, -, ⟨-, rfl⟩ | ⟨pkt, effects, -, -, rfl⟩⟩ := arriveStep_eq hs
    · exact change_of_same rfl (List.Subset.refl _)
    · obtain ⟨hadded, hcalls⟩ :=
        foldl_perform_records node effects { net with air := net.air.eraseIdx i }
      exact change_of_same hadded hcalls
  | lose i =>
    obtain ⟨-, heq⟩ := Option.ite_none_right_eq_some.mp hs
    cases heq
    exact change_of_same rfl (List.Subset.refl _)
  | answer j resp =>
    obtain ⟨node, task, -, ⟨-, rfl⟩ | ⟨msg, bytes, -, -, rfl⟩⟩ := answerStep_eq hs
    · exact change_of_same rfl (List.Subset.refl _)
    · exact ⟨⟨_, rfl, by simp⟩, List.Subset.refl _⟩

end Steps

end Arcturus.ProxyNetwork
