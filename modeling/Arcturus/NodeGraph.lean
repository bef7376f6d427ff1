import Arcturus.EdgeLists
import Arcturus.Upserts

/-!
What a node reports about itself and its links, and the graph that the control plane keeps of
these reports. A report makes the edges from its node to the origins it has probed and to the
nodes that are in the graph at that moment; an edge that exists already only gets a new weight.
Numbers are exact rationals, and the functions of the mathematics library are parameters. Log
records are left out.
-/

namespace Arcturus.NodeGraph

open GoMaps Upserts EdgeLists

/-- The kind of a probed target; every kind but the first is treated as a node. -/
inductive TargetType where
  | source
  | node
  deriving DecidableEq, Repr, Inhabited

structure ProbeTask where
  targetType : TargetType
  provider : String
  ip : String
  port : ℤ
  region : String
  id : String
  deriving DecidableEq, Repr, Inhabited

structure LinkCongestion where
  targetIP : String
  target : ProbeTask
  packetLoss : ℚ
  averageLatency : ℚ
  deriving DecidableEq, Repr, Inhabited

structure NodeTelemetry where
  publicIP : String
  provider : String
  continent : String
  cpuPressure : ℚ
  linksCongestion : GoMap String LinkCongestion

/-- The value of a variable that nothing was read into. -/
instance : Inhabited NodeTelemetry := ⟨"", "", "", 0, GoMap.empty⟩

/-- The links of a report. -/
def NodeTelemetry.links (t : NodeTelemetry) : List LinkCongestion :=
  t.linksCongestion.keys.map t.linksCongestion.val

/-- The functions `math.Pow` and `math.Exp`. -/
structure Math where
  pow : ℚ → ℚ → ℚ
  exp : ℚ → ℚ

def edgeRisk (math : Math) (cpuPressure loss latency : ℚ) : ℚ :=
  let cpuMax := 60
  let cpuPower := 2
  let lossInflection := 1 / 20
  let lossSharpness := 40
  let latencyMax := 150
  let latPower := 3 / 2
  let wCPU := 1 / 2
  let wLoss := 0
  let wLat := 1 / 2
  let cpuRisk := if cpuPressure < 50 then 0 else math.pow (cpuPressure / cpuMax) cpuPower
  let lossRisk := if loss ≥ 1 then 1 else if loss ≤ 0 then 0
    else 1 / (1 + math.exp (-lossSharpness * (loss - lossInflection)))
  let latRatio := if latency / latencyMax < 0 then 0 else latency / latencyMax
  let latRisk := math.pow latRatio latPower
  wCPU * cpuRisk + wLoss * lossRisk + wLat * latRisk

abbrev Nodes := GoMap String (Option NodeTelemetry)

structure GraphManager where
  edges : GoMap String (Option Edge)
  nodes : Nodes

def newGraphManager : GraphManager := ⟨GoMap.empty, GoMap.empty⟩

/-- The name of an origin. -/
def originName (task : ProbeTask) : String := task.ip ++ ":" ++ toString task.port

/-- The edge that a link of a report stands for; none towards an unknown node. -/
def linkEdge (math : Math) (nodes : Nodes) (node : NodeTelemetry) (v : LinkCongestion) :
    Option Edge :=
  match v.target.targetType with
  | .source => some {
      sourceIp := node.publicIP
      destinationIp := originName v.target
      edgeWeight := edgeRisk math 0 v.packetLoss v.averageLatency
      load := 0
      latency := v.averageLatency }
  | .node =>
    match nodes.val v.target.ip with
    | none => none
    | some outNode => some {
        sourceIp := node.publicIP
        destinationIp := v.target.ip
        edgeWeight := edgeRisk math outNode.cpuPressure v.packetLoss v.averageLatency
        load := outNode.cpuPressure
        latency := v.averageLatency }

/-- The key of an edge. -/
def line (e : Edge) : String := edgeKey e.sourceIp e.destinationIp

/-- An edge that is there already keeps everything but its weight. -/
def renew : Option Edge → Edge → Edge
  | some oldLine, e => { oldLine with edgeWeight := e.edgeWeight }
  | none, e => e

namespace GraphManager

variable (math : Math) (g : GraphManager)

/-- The links are taken in the order of the range loop over them. -/
def addNode (node : NodeTelemetry) (order : node.linksCongestion.Range) : GraphManager :=
  let nodes := g.nodes.set node.publicIP (some node)
  { nodes
    edges := (order.keys.filterMap fun k =>
      linkEdge math nodes node (node.linksCongestion.val k)).foldl (upsert line renew) g.edges }

def removeNode (id : String) : GraphManager where
  nodes := g.nodes.erase id
  edges := g.edges.eraseWhere fun e => e.any fun e => e.sourceIp = id ∨ e.destinationIp = id

def getEdges (order : g.edges.Range) : List Edge := order.keys.filterMap g.edges.val

/-- A node of the graph. -/
def HasNode (id : String) : Prop := (g.nodes.val id).isSome

/-- An edge of the graph. -/
def HasEdge (e : Edge) : Prop := ∃ k, g.edges.val k = some e

end GraphManager

/-- A change of the graph by its callers. -/
inductive Call where
  | addNode (node : NodeTelemetry) (order : node.linksCongestion.Range)
  | removeNode (id : String)

def apply (math : Math) (g : GraphManager) : Call → GraphManager
  | .addNode node order => g.addNode math node order
  | .removeNode id => g.removeNode id

def run (math : Math) (calls : List Call) : GraphManager :=
  calls.foldl (apply math) newGraphManager

/-- The target of a link is an origin or one of these nodes. -/
def Known (nodes : Nodes) (v : LinkCongestion) : Prop :=
  v.target.targetType = .source ∨ (nodes.val v.target.ip).isSome

instance (nodes : Nodes) (v : LinkCongestion) : Decidable (Known nodes v) :=
  inferInstanceAs (Decidable (_ ∨ _))

/-- Where a link leads. -/
def destination (v : LinkCongestion) : String :=
  match v.target.targetType with
  | .source => originName v.target
  | .node => v.target.ip

/-- The load of the node that a link leads to; an origin has none. -/
def targetLoad (nodes : Nodes) (v : LinkCongestion) : ℚ :=
  match v.target.targetType with
  | .source => 0
  | .node => (nodes.val v.target.ip).elim 0 (·.cpuPressure)

/-- The edge that a link of a report should be. -/
def reportedEdge (math : Math) (nodes : Nodes) (t : NodeTelemetry) (v : LinkCongestion) : Edge where
  sourceIp := t.publicIP
  destinationIp := destination v
  edgeWeight := edgeRisk math (targetLoad nodes v) v.packetLoss v.averageLatency
  load := targetLoad nodes v
  latency := v.averageLatency

theorem linkEdge_eq (math : Math) (nodes : Nodes) (t : NodeTelemetry) (v : LinkCongestion) :
    linkEdge math nodes t v =
      if Known nodes v then some (reportedEdge math nodes t v) else none := by
  cases htype : v.target.targetType with
  | source => simp [linkEdge, reportedEdge, destination, targetLoad, Known, htype]
  | node =>
    cases hnode : nodes.val v.target.ip with
    | none => simp [linkEdge, Known, htype, hnode]
    | some outNode => simp [linkEdge, reportedEdge, destination, targetLoad, Known, htype, hnode]

/-- The edges that a report writes for these of its links, in their order. -/
def written (math : Math) (nodes : Nodes) (t : NodeTelemetry) (links : List LinkCongestion) :
    List Edge :=
  (links.filter fun v => Known nodes v).map (reportedEdge math nodes t)

theorem filterMap_linkEdge (math : Math) (nodes : Nodes) (t : NodeTelemetry)
    (links : List LinkCongestion) :
    links.filterMap (linkEdge math nodes t) = written math nodes t links := by
  unfold written
  induction links with
  | nil => rfl
  | cons v links ih =>
    by_cases hv : Known nodes v
    · rw [List.filterMap_cons_some (by rw [linkEdge_eq, if_pos hv]), ih,
        List.filter_cons_of_pos (by simpa using hv), List.map_cons]
    · rw [List.filterMap_cons_none (by rw [linkEdge_eq, if_neg hv]), ih,
        List.filter_cons_of_neg (by simpa using hv)]

theorem run_concat (math : Math) (calls : List Call) (c : Call) :
    run math (calls ++ [c]) = apply math (run math calls) c := by
  simp [run]

theorem edgeKey_inj {s d d' : String} : edgeKey s d = edgeKey s d' ↔ d = d' := by
  unfold edgeKey
  exact String.append_right_inj _

/-- Later entries for an edge only change its weight. -/
theorem combined_renew_some (l : List Edge) (old : Edge) :
    combined renew l (some old) =
      some { old with edgeWeight := (l.getLast?.map (·.edgeWeight)).getD old.edgeWeight } := by
  induction l using List.reverseRecOn with
  | nil => rfl
  | append_singleton l e ih =>
    unfold combined at ih ⊢
    rw [List.foldl_append, ih]
    simp [renew]

theorem combined_renew_cons (e : Edge) (l : List Edge) :
    combined renew (e :: l) none = combined renew l (some e) := rfl

/-- An edge is the old one or the first of the new ones, up to its weight. -/
theorem combined_renew_eq_some {l : List Edge} {start : Option Edge} {e : Edge}
    (h : combined renew l start = some e) :
    ∃ first w, e = { first with edgeWeight := w } ∧
      (start = some first ∨ start = none ∧ l.head? = some first) := by
  cases start with
  | some old =>
    rw [combined_renew_some, Option.some.injEq] at h
    exact ⟨old, _, h.symm, Or.inl rfl⟩
  | none =>
    cases l with
    | nil => simp [combined] at h
    | cons f l =>
      rw [combined_renew_cons, combined_renew_some, Option.some.injEq] at h
      exact ⟨f, _, h.symm, Or.inr ⟨rfl, rfl⟩⟩

section Operations
variable {math : Math} {g : GraphManager}

@[simp] theorem addNode_nodes (node : NodeTelemetry) (order : node.linksCongestion.Range) :
    (g.addNode math node order).nodes = g.nodes.set node.publicIP (some node) := rfl

theorem addNode_edges (node : NodeTelemetry) (order : node.linksCongestion.Range) :
    (g.addNode math node order).edges =
      (written math (g.nodes.set node.publicIP (some node)) node
        (order.keys.map node.linksCongestion.val)).foldl (upsert line renew) g.edges := by
  rw [← filterMap_linkEdge, List.filterMap_map]
  rfl

/-- The order of the range loop is an order of the links. -/
theorem written_perm (math : Math) (nodes : Nodes) (node : NodeTelemetry)
    (order : node.linksCongestion.Range) :
    (written math nodes node (order.keys.map node.linksCongestion.val)).Perm
      (written math nodes node node.links) :=
  ((order.perm.map _).filter _).map _

theorem addNode_hasNode {node : NodeTelemetry} {order : node.linksCongestion.Range} {id : String} :
    (g.addNode math node order).HasNode id ↔ id = node.publicIP ∨ g.HasNode id := by
  unfold GraphManager.HasNode
  rw [addNode_nodes]
  by_cases hid : id = node.publicIP
  · subst hid
    simp
  · rw [GoMap.set_val_of_ne _ _ hid]
    simp [hid]

theorem removeNode_hasNode {id a : String} :
    (g.removeNode id).HasNode a ↔ a ≠ id ∧ g.HasNode a := by
  unfold GraphManager.HasNode GraphManager.removeNode
  by_cases ha : a = id
  · subst ha
    simp [Option.default_eq_none]
  · rw [GoMap.erase_val_of_ne _ ha]
    simp [ha]

theorem removeNode_edges_val {id k : String} {e : Edge} :
    (g.removeNode id).edges.val k = some e ↔
      g.edges.val k = some e ∧ e.sourceIp ≠ id ∧ e.destinationIp ≠ id := by
  unfold GraphManager.removeNode
  rw [GoMap.eraseWhere_val]
  cases g.edges.val k with
  | none => simp
  | some f =>
    by_cases hf : f.sourceIp = id ∨ f.destinationIp = id
    · simp only [Option.any_some, decide_eq_true hf, if_true]
      constructor
      · simp
      · rintro ⟨heq, hno⟩
        rw [Option.some.injEq] at heq
        subst heq
        exact absurd hf (not_or.mpr hno)
    · simp only [Option.any_some, decide_eq_false hf]
      rw [not_or] at hf
      constructor
      · intro heq
        simp only [Bool.false_eq_true, if_false, Option.some.injEq] at heq
        subst heq
        exact ⟨rfl, hf⟩
      · intro heq
        exact heq.1

end Operations

end Arcturus.NodeGraph
