import Arcturus.EdgeLists
import Arcturus.RandomChoices
import Mathlib.Data.Rat.Floor

/-!
The carousel-greedy solver for many destinations. Numbers are exact rationals. Map
orders, shuffles and random numbers come from a stream of draws. The residual graph is
a map from ordered pairs of nodes. The nodes that a search has visited are those on
its path. The record of the states that the solver goes through and the list of its
searches are not part of the source; they are only written. Log records are left out.
-/

namespace Arcturus.Carousel

open GoMaps GoStrings RandomChoices SimplePaths EdgeLists

/-- The largest number of sixty-four bit floating point. -/
def maxFloat64 : ℚ := 2 ^ 1024 - 2 ^ 971

def bannedPenalty : ℚ := 100

structure FlowOptimizationSolver where
  edges : List Edge
  alpha : ℚ
  beta : ℚ
  capacity : ℚ
  flowsPerDest : ℕ
  Tu : ℚ
  Uhot : ℚ
  epsilon : ℚ
  thetaLMap : GoMap String ℚ
  kspK : ℤ
  latencyMap : GoMap String ℚ

def newFlowOptimizationSolver (edges : List Edge) : FlowOptimizationSolver where
  edges := edges
  alpha := 2
  beta := 1 / 2
  capacity := 0
  flowsPerDest := 2
  Tu := 60
  Uhot := 0
  epsilon := 1 / 1000
  thetaLMap := GoMap.empty
  kspK := 3
  latencyMap := edges.foldl
    (fun m e => m.set (edgeKey e.sourceIp e.destinationIp) e.latency) GoMap.empty

structure EdgeFlow where
  flow : ℚ
  cap : ℚ
  thetaA : ℚ
  effCap : ℚ
  banned : Bool
  residual : ℚ
  deriving DecidableEq, Repr, Inhabited

def EdgeFlow.updateResidual (ef : EdgeFlow) : EdgeFlow :=
  { ef with residual := ef.effCap - ef.flow }

/-- The backward residual capacity. -/
def EdgeFlow.getReverseResidual (ef : EdgeFlow) : ℚ := ef.flow

def EdgeFlow.penalty (ef : EdgeFlow) : ℚ := if ef.banned then bannedPenalty else 0

theorem penalty_nonneg (ef : EdgeFlow) : 0 ≤ ef.penalty := by
  unfold EdgeFlow.penalty bannedPenalty
  split
  · norm_num
  · exact le_rfl

abbrev ResidualGraph := GoMap (String × String) EdgeFlow

structure PathWithInfo where
  path : List String
  pathStr : String
  dest : String
  latency : ℚ
  deriving DecidableEq, Repr

def PathWithInfo.toPathInfo (pi : PathWithInfo) : PathInfo :=
  { hops := pi.path, rtt := pi.latency, rawRTT := pi.latency }

/-- The paths found so far by their text form, and how often. -/
structure PathAccumulator where
  paths : GoMap String (Option PathWithInfo)
  freq : GoMap String ℕ

def newPathAccumulator : PathAccumulator := ⟨GoMap.empty, GoMap.empty⟩

def PathAccumulator.addPath (pa : PathAccumulator) (pi : PathWithInfo) : PathAccumulator where
  paths := pa.paths.set pi.pathStr (some pi)
  freq := pa.freq.set pi.pathStr (pa.freq.val pi.pathStr + 1)

/-- The first most frequent one in the order of the range loop. -/
def PathAccumulator.getMostFrequent (pa : PathAccumulator) (r : Draws) :
    Option PathWithInfo × Draws :=
  let order := shuffle pa.freq.keys r
  ((order.1.foldl (fun best pathStr =>
      if best.1 < pa.freq.val pathStr then (pa.freq.val pathStr, pa.paths.val pathStr) else best)
    (0, none)).2, order.2)

def pathToString (path : List String) : String := join path "->"

namespace FlowOptimizationSolver

variable (d : FlowOptimizationSolver)

def nodes : List String := (d.edges.flatMap fun e => [e.sourceIp, e.destinationIp]).dedup

def computeThetaA (cpuLoad : ℚ) : ℚ :=
  let numerator := if cpuLoad - d.Tu < 0 then 0 else cpuLoad - d.Tu
  let denominator := if d.Uhot - d.Tu < d.epsilon then d.epsilon else d.Uhot - d.Tu
  let U_prime := if numerator / denominator > 1 then 1 else numerator / denominator
  1 - U_prime

/-- The latency bound for one destination; `none` if the search does not end. -/
def computeThetaL (start end_ : String) : Option ℚ :=
  let ksp := KShortest.newKShortestSolverWithLatency (d.edges.map Edge.toEdge) d.kspK true
  (ksp.computing start end_).map fun res =>
    match res with
    | .error _ => 100
    | .ok [] => 100
    | .ok paths => (paths.map KShortest.PathInfo.rtt).sum / paths.length * (3 / 2)

def computeThetaLForDestinations (start : String) (ends : List String) :
    Option FlowOptimizationSolver :=
  ends.foldlM (fun d end_ => (d.computeThetaL start end_).map fun thetaL =>
    { d with thetaLMap := d.thetaLMap.set end_ thetaL }) d

def computePercentile (percentile : ℚ) : ℚ :=
  let loads := ExchangeSort.sort id (d.edges.map Edge.load)
  match loads.getLast? with
  | none => 0
  | some last =>
    let index := percentile / 100 * (loads.length - 1)
    let lowerIndex := index.floor.toNat
    match loads[lowerIndex]?, loads[lowerIndex + 1]? with
    | some lower, some upper => lower + (index - lowerIndex) * (upper - lower)
    | _, _ => last

/-- The latency bound for a destination. -/
def thetaL (t : String) : ℚ := if t ∈ d.thetaLMap.keys then d.thetaLMap.val t else 100

def getEdgeLatency (source dest : String) : ℚ :=
  if edgeKey source dest ∈ d.latencyMap.keys then d.latencyMap.val (edgeKey source dest)
  else maxFloat64

def newEdgeFlow (e : Edge) : EdgeFlow :=
  let thetaA := d.computeThetaA e.load
  let effCap := thetaA * d.capacity
  { flow := 0, cap := d.capacity, thetaA, effCap, banned := false, residual := effCap }

def buildResidualGraphWithCapacity : ResidualGraph :=
  d.edges.foldl (fun g e => g.set (e.sourceIp, e.destinationIp) (d.newEdgeFlow e)) GoMap.empty

end FlowOptimizationSolver

/-- A step that the search may take. -/
structure EdgeInfo where
  to_ : String
  cost : ℚ
  deriving DecidableEq, Repr

/-- The best path so far, its latency, and the draws still to come. -/
structure SearchState where
  bestPath : Option (List String)
  bestLatency : ℚ
  draws : Draws

namespace FlowOptimizationSolver

variable (d : FlowOptimizationSolver) (g : ResidualGraph)

def forwardEdges (u : String) (order : List String) : List EdgeInfo :=
  order.filterMap fun v =>
    let ef := g.val (u, v)
    if ef.residual > 0 then
      some { to_ := v, cost := d.getEdgeLatency u v + ef.penalty }
    else none

/-- A step against the direction of an edge that carries flow. -/
def backwardEdges (u : String) (order : List String) : List EdgeInfo :=
  order.filterMap fun v =>
    if v ≠ u ∧ (v, u) ∈ g.keys then
      let revEf := g.val (v, u)
      if revEf.getReverseResidual > 0 then
        some { to_ := v, cost := 0 + revEf.penalty }
      else none
    else none

def getSortedEdges (u : String) (r : Draws) : List EdgeInfo × Draws :=
  let out := shuffle ((g.keys.filter fun e => e.1 = u).map Prod.snd) r
  let all := shuffle d.nodes out.2
  (ExchangeSort.sort EdgeInfo.cost (d.forwardEdges g u out.1 ++ backwardEdges g u all.1), all.2)

section Search
variable (t : String) (thetaL : ℚ) (usedPaths : GoMap String Bool) (optimize randomize : Bool)

/-- The loop over the steps from the end of `path`; `go` continues the search. -/
def tryEdges (path : List String) (currentLatency : ℚ)
    (go : String → ℚ → SearchState → Bool × SearchState) :
    List EdgeInfo → Bool → SearchState → Bool × SearchState
  | [], found, st => (found, st)
  | ei :: rest, found, st =>
    if ei.to_ ∈ path then tryEdges path currentLatency go rest found st
    else if optimize ∧ currentLatency + ei.cost ≥ st.bestLatency then
      tryEdges path currentLatency go rest found st
    else if currentLatency + ei.cost > thetaL then tryEdges path currentLatency go rest found st
    else
      let r := go ei.to_ (currentLatency + ei.cost) st
      if r.1 then
        if optimize then tryEdges path currentLatency go rest true r.2 else (true, r.2)
      else tryEdges path currentLatency go rest found r.2

/-- The search from `u` after `path`. The first argument is the number of nodes that the
path may still take, so at zero the limit on hops is reached. -/
def dfs : ℕ → List String → String → ℚ → SearchState → Bool × SearchState
  | 0, _, _, _, st => (false, st)
  | room + 1, path, u, currentLatency, st =>
    if u = t then
      if currentLatency ≤ thetaL then
        if optimize then
          if currentLatency < st.bestLatency ∧ ¬ usedPaths.val (pathToString (path ++ [u])) then
            (false, { st with bestPath := some (path ++ [u]), bestLatency := currentLatency })
          else (false, st)
        else (true, { st with bestPath := some (path ++ [u]), bestLatency := currentLatency })
      else (false, st)
    else
      let sorted := d.getSortedEdges g u st.draws
      let edges := if randomize then shuffle sorted.1 sorted.2 else sorted
      tryEdges thetaL optimize (path ++ [u]) currentLatency
        (fun v latency st => dfs room (path ++ [u]) v latency st) edges.1 false
        { st with draws := edges.2 }

def dfsPathSearch (s : String) (r : Draws) : Option (List String × ℚ) × Draws :=
  let st := (d.dfs g t thetaL usedPaths optimize randomize maxHops [] s 0
    { bestPath := none, bestLatency := thetaL + 1, draws := r }).2
  (st.bestPath.map fun path => (path, st.bestLatency), st.draws)

end Search

def findFeasiblePathWithLatency (s t : String) (usedPaths : GoMap String Bool) (attempt : ℕ)
    (r : Draws) : Option PathWithInfo × Draws :=
  if g.keys.all fun e => e.1 ≠ s then (none, r)
  else
    let res := if attempt ≤ 1 then d.dfsPathSearch g t (d.thetaL t) usedPaths true false s r
      else d.dfsPathSearch g t (d.thetaL t) usedPaths false true s r
    (res.1.map fun found =>
      { path := found.1, pathStr := join found.1 "|", dest := t, latency := found.2 }, res.2)

end FlowOptimizationSolver

section Flows

/-- Change one edge, if it is in the graph. -/
def updateEdge (f : EdgeFlow → EdgeFlow) (g : ResidualGraph) (e : String × String) :
    ResidualGraph :=
  if e ∈ g.keys then g.set e (f (g.val e)) else g

/-- Change the edges between neighbouring hops, one after the other. -/
def updatePath (f : EdgeFlow → EdgeFlow) (g : ResidualGraph) (path : List String) : ResidualGraph :=
  (steps path).foldl (updateEdge f) g

def EdgeFlow.allocate (flow : ℚ) (ef : EdgeFlow) : EdgeFlow :=
  { ef with flow := ef.flow + flow }.updateResidual

def EdgeFlow.release (flow : ℚ) (ef : EdgeFlow) : EdgeFlow :=
  { ef with flow := if ef.flow - flow < 0 then 0 else ef.flow - flow }.updateResidual

def allocateFlow (g : ResidualGraph) (path : List String) (flow : ℚ) : ResidualGraph :=
  updatePath (EdgeFlow.allocate flow) g path

def releaseFlow (g : ResidualGraph) (path : List String) (flow : ℚ) : ResidualGraph :=
  updatePath (EdgeFlow.release flow) g path

def banEdge (g : ResidualGraph) (e : String × String) : ResidualGraph :=
  updateEdge (fun ef => { ef with banned := true }) g e

def banPathEdges (g : ResidualGraph) (path : List String) : ResidualGraph :=
  updatePath (fun ef => { ef with banned := true }) g path

def unbanAllEdges (g : ResidualGraph) : ResidualGraph :=
  g.keys.foldl (updateEdge fun ef => { ef with banned := false }) g

end Flows

section Objective

def edgeUsage (paths : List PathWithInfo) : GoMap String ℕ :=
  (paths.flatMap fun pi => steps pi.path).foldl (fun m e =>
    m.set (edgeKey e.1 e.2) (m.val (edgeKey e.1 e.2) + 1)) GoMap.empty

def congestion (g : ResidualGraph) (e : String × String) : ℚ :=
  if e ∈ g.keys ∧ (g.val e).effCap > 0 then 1 - (g.val e).residual / (g.val e).effCap else 0

/-- Many paths first, then edges that few paths share, low latency and low congestion. -/
def objective (paths : List PathWithInfo) (g : ResidualGraph) : ℚ :=
  if paths = [] then 0
  else
    let usage := edgeUsage paths
    let diversityScore := (usage.keys.map fun key => 1 / (usage.val key : ℚ)).sum
    let totalLatency := (paths.map PathWithInfo.latency).sum
    let totalCongestion := ((paths.flatMap fun pi => steps pi.path).map (congestion g)).sum
    paths.length * 10 + diversityScore * 1 - totalLatency * (1 / 10) - totalCongestion * 1

end Objective

/-- The current paths and what the solver keeps about them. -/
structure Ledger where
  graph : ResidualGraph
  allPaths : List PathWithInfo
  destFlowCount : GoMap String ℤ
  usedPaths : GoMap String Bool

/-- The points of the solver that are recorded: at the head of an iteration, after a path
was inserted, and before and after one was removed. -/
inductive Event where
  | head
  | inserted (pi : PathWithInfo)
  | removing (pi : PathWithInfo)
  | removed (pi : PathWithInfo)

def Ledger.insert (L : Ledger) (pi : PathWithInfo) : Ledger where
  graph := allocateFlow L.graph pi.path 1
  allPaths := L.allPaths ++ [pi]
  destFlowCount := L.destFlowCount.set pi.dest (L.destFlowCount.val pi.dest + 1)
  usedPaths := L.usedPaths.set (pathToString pi.path) true

def Ledger.remove (L : Ledger) (pi : PathWithInfo) (rest : List PathWithInfo) : Ledger where
  graph := releaseFlow L.graph pi.path 1
  allPaths := rest
  destFlowCount := L.destFlowCount.set pi.dest (L.destFlowCount.val pi.dest - 1)
  usedPaths := L.usedPaths.erase (pathToString pi.path)

/-- A search for a path, with the ledger before it and the random numbers that follow. -/
structure Search where
  ledger : Ledger
  dest : String
  attempt : ℕ
  draws : Draws

/-- The path that the search finds. -/
def Search.found (d : FlowOptimizationSolver) (start : String) (s : Search) :
    Option PathWithInfo :=
  (d.findFeasiblePathWithLatency s.ledger.graph start s.dest s.ledger.usedPaths s.attempt
    s.draws).1

structure State where
  ledger : Ledger
  accumulator : PathAccumulator
  draws : Draws
  record : List (Event × Ledger)
  searches : List Search

def State.note (st : State) (ev : Event) : State :=
  { st with record := st.record ++ [(ev, st.ledger)] }

def State.search (st : State) (dest : String) (attempt : ℕ) : State :=
  { st with searches := st.searches ++ [⟨st.ledger, dest, attempt, st.draws⟩] }

def State.insert (st : State) (pi : PathWithInfo) : State :=
  { st with ledger := st.ledger.insert pi }.note (.inserted pi)

/-- Remove the path at the front of the list. -/
def State.removeOldest (st : State) (pi : PathWithInfo) (rest : List PathWithInfo) : State :=
  { st.note (.removing pi) with ledger := st.ledger.remove pi rest }.note (.removed pi)

namespace FlowOptimizationSolver

variable (d : FlowOptimizationSolver) (start : String)

/-- The search for the first paths to one destination. The first number counts the
attempts that are left, the second one the paths found. -/
def fillSlots (end_ : String) : ℕ → ℕ → State → State
  | 0, _, st => st
  | left + 1, i, st =>
    if d.flowsPerDest ≤ i then st
    else
      let attempt := d.flowsPerDest * 10 - left
      let st := st.search end_ attempt
      match d.findFeasiblePathWithLatency st.ledger.graph start end_ st.ledger.usedPaths attempt
        st.draws with
      | (none, draws) => { st with draws }
      | (some pi, draws) =>
        let st := { st with draws }
        if st.ledger.usedPaths.val (pathToString pi.path) then fillSlots end_ left i st
        else fillSlots end_ left (i + 1) (st.insert pi)

def initialPaths (validEnds : List String) (st : State) : State :=
  validEnds.foldl (fun st end_ => d.fillSlots start end_ (d.flowsPerDest * 10) 0 st) st

/-- Remove paths from the front, at most the given number. -/
def removePaths : ℕ → State → State
  | 0, st => st
  | n + 1, st =>
    match st.ledger.allPaths with
    | [] => st
    | pi :: rest => removePaths n (st.removeOldest pi rest)

/-- The search for one new path to any destination that has room for it. -/
def findNewPath (attempt : ℕ) : List String → State → State
  | [], st => st
  | end_ :: ends, st =>
    if d.flowsPerDest ≤ st.ledger.destFlowCount.val end_ then findNewPath attempt ends st
    else
      let st := st.search end_ attempt
      match d.findFeasiblePathWithLatency st.ledger.graph start end_ st.ledger.usedPaths attempt
        st.draws with
      | (none, draws) => findNewPath attempt ends { st with draws }
      | (some pi, draws) =>
        let st := { st with draws }
        if st.ledger.usedPaths.val (pathToString pi.path) then findNewPath attempt ends st
        else { st.insert pi with accumulator := st.accumulator.addPath pi }

/-- The edges of the most frequent path and the first edge of the removed one. -/
def banEdges (oldest : PathWithInfo) (st : State) : State :=
  let freq := st.accumulator.getMostFrequent st.draws
  let g := match freq.1 with
    | some pi => banPathEdges st.ledger.graph pi.path
    | none => st.ledger.graph
  let g := match oldest.path with
    | a :: b :: _ => banEdge g (a, b)
    | _ => g
  { st with ledger := { st.ledger with graph := g }, draws := freq.2 }

def unban (st : State) : State :=
  { st with ledger := { st.ledger with graph := unbanAllEdges st.ledger.graph } }

/-- One iteration after the oldest path was found at the front. -/
def iteration (validEnds : List String) (i : ℕ) (oldest : PathWithInfo) (rest : List PathWithInfo)
    (st : State) : State :=
  let st := banEdges oldest (st.removeOldest oldest rest)
  let order := shuffle validEnds st.draws
  unban (d.findNewPath start (i + 1) order.1 { st with draws := order.2 })

/-- The iterations that are left, from number `i` on, and the best solution so far. -/
def iterate (validEnds : List String) : ℕ → ℕ → State → List PathWithInfo × ℚ →
    State × List PathWithInfo
  | 0, _, st, best => (st, best.1)
  | n + 1, i, st, best =>
    let st := st.note .head
    match st.ledger.allPaths with
    | [] => (st, best.1)
    | oldest :: rest =>
      let st := d.iteration start validEnds i oldest rest st
      let currentScore := objective st.ledger.allPaths st.ledger.graph
      iterate validEnds n (i + 1) st
        (if st.ledger.allPaths ≠ [] ∧ best.2 < currentScore then
          (st.ledger.allPaths, currentScore) else best)

def startLedger : Ledger where
  graph := d.buildResidualGraphWithCapacity
  allPaths := []
  destFlowCount := GoMap.empty
  usedPaths := GoMap.empty

def startState (draws : Draws) : State where
  ledger := d.startLedger
  accumulator := newPathAccumulator
  draws := draws
  record := []
  searches := []

/-- What follows the initial search: paths are removed from the front, and then the
iterations look for a better solution than the initial one. -/
def improve (validEnds : List String) (st : State) : State × List PathWithInfo :=
  let paths := st.ledger.allPaths
  let accumulator := paths.foldl PathAccumulator.addPath newPathAccumulator
  let best := (paths, objective paths st.ledger.graph)
  let removeNum := (d.beta * paths.length).floor.toNat
  let maxIter := (d.alpha * paths.length).floor.toNat
  d.iterate start validEnds maxIter 0 (removePaths removeNum { st with accumulator }) best

/-- The paths selected for destinations that are in the graph, and the record of the
states on the way; no paths if the initial search finds none. -/
def select (validEnds : List String) (draws : Draws) :
    Option (List PathWithInfo) × List (Event × Ledger) :=
  let st := d.initialPaths start validEnds (d.startState draws)
  if st.ledger.allPaths = [] then (none, st.record)
  else
    let res := d.improve start validEnds st
    (some res.2, res.1.record)

/-- The searches of a selection, from the first one on. -/
def searches (validEnds : List String) (draws : Draws) : List Search :=
  let st := d.initialPaths start validEnds (d.startState draws)
  if st.ledger.allPaths = [] then st.searches else (d.improve start validEnds st).1.searches

/-- The solver with the capacity and the threshold for these destinations. -/
def withCapacity (validEnds : List String) : FlowOptimizationSolver :=
  let d := { d with capacity := (validEnds.length * d.flowsPerDest : ℕ) }
  { d with Uhot := d.computePercentile 90 }

/-- The same with the latency bounds. -/
def prepare (validEnds : List String) : Option FlowOptimizationSolver :=
  (d.withCapacity validEnds).computeThetaLForDestinations start validEnds

def validEnds (ends : List String) : List String := ends.filter fun end_ => end_ ∈ d.nodes

/-- The answer and the record; `none` if the computation of the bounds does not end. -/
def execute (ends : List String) (draws : Draws) :
    Option (Except String (List PathInfo) × List (Event × Ledger)) :=
  if ends = [] then some (.error "no destinations provided", [])
  else if start ∉ d.nodes then some (.error s!"start node {start} not found in graph", [])
  else if d.validEnds ends = [] then
    some (.error s!"no valid destinations found in graph from {start}", [])
  else
    (d.prepare start (d.validEnds ends)).map fun d' =>
      match d'.select start (d.validEnds ends) draws with
      | (none, record) =>
        (.error s!"no feasible path found from {start} to any destination", record)
      | (some paths, record) =>
        (.ok (paths.map PathWithInfo.toPathInfo), record)

def computingMulti (ends : List String) (draws : Draws) : Option (Except String (List PathInfo)) :=
  (d.execute start ends draws).map Prod.fst

end FlowOptimizationSolver

end Arcturus.Carousel
