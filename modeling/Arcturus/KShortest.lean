import Mathlib.Data.Rat.Defs
import Mathlib.Algebra.Order.Ring.Rat
import Mathlib.Algebra.Order.Monoid.WithTop
import Arcturus.IndexedHeap
import Arcturus.ExchangeSort
import Arcturus.GoMaps
import Arcturus.GoStrings

/-!
The k-shortest route solver of the control plane. Weights are exact rationals
and an unset distance is the top element. The two unbounded loops of the search
and the outer loop of Yen's algorithm run on fuel; `none` means that the fuel
ran out, which is proved not to happen. Log records are left out.
-/

namespace Arcturus.KShortest

open IndexedHeap GoMaps GoStrings

structure Edge where
  sourceIp : String
  destinationIp : String
  edgeWeight : ℚ
  latency : ℚ
  deriving DecidableEq, Repr

/-- The route handed to the caller. The latency is that of the solver that fills it in, and may
be infinite. -/
structure PathInfo where
  hops : List String
  rtt : ℚ
  rawRTT : WithTop ℚ := 0
  deriving DecidableEq

structure KShortestSolver where
  edges : List Edge
  alpha : ℚ
  k : ℕ
  useLatency : Bool

/-- A requested count that is not positive becomes five. -/
def newKShortestSolverWithLatency (edges : List Edge) (k : ℤ) (useLatency : Bool) :
    KShortestSolver :=
  { edges, alpha := 1, k := if k ≤ 0 then 5 else k.toNat, useLatency }

def newKShortestSolver (edges : List Edge) (k : ℤ) : KShortestSolver :=
  newKShortestSolverWithLatency edges k false

structure Path where
  hops : List String
  cost : ℚ
  rawRTT : WithTop ℚ

structure PQNode where
  node : String
  cost : ℚ
  rawRTT : WithTop ℚ

abbrev PriorityQueue := MinHeap PQNode.cost

abbrev Graph := GoMap String (List Edge)

namespace KShortestSolver

variable (ks : KShortestSolver)

/-- The weight of an edge in both the search and the root cost. -/
def weight (e : Edge) : ℚ :=
  if ks.useLatency then e.latency * ks.alpha else e.edgeWeight * ks.alpha

def hasDuplicateNodes : List String → Bool
  | [] => false
  | hop :: hops => hops.contains hop || hasDuplicateNodes hops

def removeConsecutiveDuplicates : List String → List String
  | a :: b :: rest =>
    if b ≠ a then a :: removeConsecutiveDuplicates (b :: rest)
    else removeConsecutiveDuplicates (b :: rest)
  | hops => hops

/-- Two neighbouring hops are equal. -/
def hasDup : List String → Bool
  | a :: b :: rest => a == b || hasDup (b :: rest)
  | _ => false

def isInPath (node : String) (path : List String) : Bool := path.contains node

def pathsSharePrefix (path1 path2 : List String) : Bool :=
  if path1.length < path2.length then path1.isPrefixOf path2 else path2.isPrefixOf path1

def isPathInList (hops : List String) (list : List Path) : Bool :=
  list.any fun p => join p.hops "->" == join hops "->"

def isPathInQueue (hops : List String) (pq : PriorityQueue) : Bool :=
  pq.toList.any fun item => item.node == join hops "->"

/-- The first edge towards the next hop counts; a missing one counts nothing. -/
def calculatePathCost (graph : Graph) : List String → ℚ
  | source :: dest :: rest =>
    ((graph.val source).find? fun e => e.destinationIp == dest).elim 0 ks.weight +
      calculatePathCost graph (dest :: rest)
  | _ => 0

def calculatePathRTT (graph : Graph) : List String → ℚ
  | source :: dest :: rest =>
    ((graph.val source).find? fun e => e.destinationIp == dest).elim 0 Edge.latency +
      calculatePathRTT graph (dest :: rest)
  | _ => 0

structure SearchState where
  dist : String → WithTop ℚ
  prev : String → String
  rawRTT : String → WithTop ℚ
  pq : PriorityQueue

/-- The nodes of the adjacency map and the nodes its edges lead to. -/
def allNodes (graph : Graph) : List String :=
  graph.keys ++ graph.keys.flatMap fun node => (graph.val node).map Edge.destinationIp

def edgeCount (graph : Graph) : ℕ := (graph.keys.map fun node => (graph.val node).length).sum

def forbidden (forbiddenNodes forbiddenEdges : Option (List String)) (currNode : String)
    (e : Edge) : Bool :=
  forbiddenNodes.any (fun nodes => nodes.contains e.destinationIp) ||
    forbiddenEdges.any fun edges => edges.contains (currNode ++ "->" ++ e.destinationIp)

def relax (forbiddenNodes forbiddenEdges : Option (List String)) (currNode : String)
    (currCost : ℚ) (s : SearchState) (e : Edge) : SearchState :=
  if forbidden forbiddenNodes forbiddenEdges currNode e then s
  else
    let newCost := currCost + ks.weight e
    let newRTT := s.rawRTT currNode + e.latency
    if newCost < s.dist e.destinationIp then
      { dist := Function.update s.dist e.destinationIp newCost
        prev := Function.update s.prev e.destinationIp currNode
        rawRTT := Function.update s.rawRTT e.destinationIp newRTT
        pq := s.pq.push { node := e.destinationIp, cost := newCost, rawRTT := 0 } }
    else s

/-- Follow the predecessors from `node` until the empty name. -/
def buildPath (prev : String → String) : ℕ → String → List String → Option (List String)
  | 0, _, _ => none
  | fuel + 1, node, path =>
    if node = "" then some path else buildPath prev fuel (prev node) (node :: path)

def searchLoop (start end_ : String) (graph : Graph)
    (forbiddenNodes forbiddenEdges : Option (List String)) :
    ℕ → SearchState → Option (Except String Path)
  | 0, _ => none
  | fuel + 1, s =>
    match s.pq.pop with
    | none => some (.error s!"no path found from {start} to {end_}")
    | some (u, pq) =>
      let s := { s with pq }
      let currNode := u.val.node
      let currCost := u.val.cost
      if s.dist currNode < (currCost : WithTop ℚ) then
        searchLoop start end_ graph forbiddenNodes forbiddenEdges fuel s
      else if currNode = end_ then
        (buildPath s.prev (edgeCount graph + 2) end_ []).map fun path =>
          .ok { hops := if hasDup path then removeConsecutiveDuplicates path else path
                cost := currCost
                rawRTT := s.rawRTT end_ }
      else if s.dist end_ ≠ ⊤ then
        -- The destination already has a distance: no neighbour is relaxed any more.
        searchLoop start end_ graph forbiddenNodes forbiddenEdges fuel s
      else
        searchLoop start end_ graph forbiddenNodes forbiddenEdges fuel
          ((graph.val currNode).foldl
            (ks.relax forbiddenNodes forbiddenEdges currNode currCost) s)

def initialState (start : String) (graph : Graph) : SearchState where
  dist := Function.update (fun node => if node ∈ allNodes graph then ⊤ else 0) start 0
  prev := fun _ => ""
  rawRTT := Function.update (fun node => if node ∈ allNodes graph then ⊤ else 0) start 0
  pq := (MinHeap.empty PQNode.cost).push { node := start, cost := 0, rawRTT := 0 }

/-- Each edge is relaxed at most once, so one round per edge is enough. -/
def findShortestPath (start end_ : String) (graph : Graph)
    (forbiddenNodes forbiddenEdges : Option (List String)) : Option (Except String Path) :=
  ks.searchLoop start end_ graph forbiddenNodes forbiddenEdges (edgeCount graph + 2)
    (initialState start graph)

structure YenState where
  graphCopy : Graph
  B : PriorityQueue

/-- Remove from the spur node the edges that continue found paths with this root. -/
def removeFoundEdges (A : List Path) (rootPath : List String) (spurNode : String) (j : ℕ)
    (graphCopy : Graph) : Graph :=
  A.foldl (fun g path =>
    if path.hops.length > j ∧ pathsSharePrefix path.hops rootPath then
      match path.hops[j + 1]? with
      | some target =>
        g.set spurNode ((g.val spurNode).filter fun e => e.destinationIp ≠ target)
      | none => g
    else g) graphCopy

/-- The path made of the root without its last node and the spur path. -/
def completePath (rootPath : List String) (spurPath : Path) (graphCopy : Graph) : Path where
  hops := removeConsecutiveDuplicates (rootPath.dropLast ++ spurPath.hops)
  cost := ks.calculatePathCost graphCopy rootPath + spurPath.cost
  rawRTT := calculatePathRTT graphCopy rootPath + spurPath.rawRTT

def pushCandidate (A : List Path) (path : Path) (B : PriorityQueue) : PriorityQueue :=
  if hasDuplicateNodes path.hops then B
  else if isPathInList path.hops A || isPathInQueue path.hops B then B
  else B.push { node := join path.hops "->", cost := path.cost, rawRTT := path.rawRTT }

/-- The body of the loop over the spur positions `j` of one found path. -/
def spurStep (end_ : String) (A : List Path) (prevHops : List String) (st : YenState) (j : ℕ) :
    Option YenState :=
  let rootPath := prevHops.take (j + 1)
  match prevHops[j]? with
  | none => some st
  | some spurNode =>
    if spurNode ∉ st.graphCopy.keys then some st
    else
      let originalEdges := st.graphCopy.val spurNode
      let kept := originalEdges.filter fun e => !isInPath e.destinationIp rootPath
      let edited := removeFoundEdges A rootPath spurNode j (st.graphCopy.set spurNode kept)
      let restored := edited.set spurNode originalEdges
      if spurNode = end_ then some { st with graphCopy := restored }
      else if isInPath end_ rootPath then some { st with graphCopy := restored }
      else
        match ks.findShortestPath spurNode end_ edited (some rootPath.dropLast) none with
        | none => none
        | some (.error _) => some { st with graphCopy := restored }
        | some (.ok spurPath) =>
          -- This branch leaves the edges of the spur node removed.
          if hasDuplicateNodes spurPath.hops then some { st with graphCopy := edited }
          else
            some { graphCopy := restored
                   B := pushCandidate A (ks.completePath rootPath spurPath edited) st.B }

/-- One pass over all found paths and all their spur positions. -/
def spurRound (end_ : String) (A : List Path) (st : YenState) : Option YenState :=
  A.foldlM (fun st path =>
    (List.range (path.hops.length - 1)).foldlM (ks.spurStep end_ A path.hops) st) st

def yensLoop (end_ : String) : ℕ → List Path → YenState → Option (List Path)
  | 0, _, _ => none
  | fuel + 1, A, st =>
    if ¬ A.length < ks.k then some A
    else
      (ks.spurRound end_ A st).bind fun st =>
        match st.B.pop with
        | none => some A
        | some (shortest, B) =>
          let hops := removeConsecutiveDuplicates (split shortest.val.node "->")
          if isPathInList hops A then yensLoop end_ fuel A { st with B }
          else
            yensLoop end_ fuel
              (A ++ [{ hops, cost := shortest.val.cost, rawRTT := shortest.val.rawRTT }])
              { st with B }

def yensAlgorithm (start end_ : String) (graph : Graph) : Option (Except String (List Path)) :=
  match ks.findShortestPath start end_ graph none none with
  | none => none
  | some (.error err) => some (.error err)
  | some (.ok firstPath) =>
    let first := { firstPath with hops := removeConsecutiveDuplicates firstPath.hops }
    (ks.yensLoop end_ ks.k [first]
        { graphCopy := graph, B := MinHeap.empty PQNode.cost }).map fun A =>
      .ok ((ExchangeSort.sort Path.cost A).map fun path =>
        { path with hops := removeConsecutiveDuplicates path.hops })

def buildGraph : Graph :=
  ks.edges.foldl (fun g e => g.set e.sourceIp (g.val e.sourceIp ++ [e])) GoMap.empty

def nodes : List String := ks.edges.flatMap fun e => [e.sourceIp, e.destinationIp]

def computing (start end_ : String) : Option (Except String (List PathInfo)) :=
  if start ∉ ks.nodes then some (.error s!"start node {start} not found")
  else if end_ ∉ ks.nodes then some (.error s!"end node {end_} not found")
  else
    (ks.yensAlgorithm start end_ ks.buildGraph).map fun res =>
      res.map fun paths => paths.map fun path => { hops := path.hops, rtt := path.cost }

end KShortestSolver

end Arcturus.KShortest
