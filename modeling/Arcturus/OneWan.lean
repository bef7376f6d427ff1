import Arcturus.EdgeLists
import Arcturus.RandomChoices

/-!
The ONE-WAN solver for many destinations. Candidate paths come from depth-first searches
in random order, and the selection among them is the best of a hundred weighted random
ones. Numbers are exact rationals. The nodes that a search has visited are those on its
path. Log records are left out.
-/

namespace Arcturus.OneWan

open GoMaps GoStrings RandomChoices SimplePaths EdgeLists

structure ONEWANSolver where
  edges : List Edge
  alpha : ℚ
  maxPaths : ℤ

def newONEWANSolver (edges : List Edge) (maxPaths : ℤ) : ONEWANSolver :=
  { edges, alpha := 1, maxPaths }

structure Path where
  hops : List String
  cost : ℚ
  rawRTT : ℚ
  deriving DecidableEq, Repr

structure DestCandidates where
  end_ : String
  paths : List PathInfo
  probs : List ℚ
  deriving DecidableEq, Repr

abbrev Graph := GoMap String (List Edge)

section Generation

/-- The loop over the shuffled edges out of a node; `go` continues the search. -/
def tryNeighbors (hops : List String) (go : String → Draws → Option (List String × ℚ) × Draws) :
    List Edge → Draws → Option (List String × ℚ) × Draws
  | [], r => (none, r)
  | edge :: rest, r =>
    if edge.destinationIp ∈ hops then tryNeighbors hops go rest r
    else
      match go edge.destinationIp r with
      | (some found, r) => (some (found.1, found.2 + edge.latency), r)
      | (none, r) => tryNeighbors hops go rest r

/-- The search from `node` after `hops`: all hops of the path and the latency from the
node on. The first argument is the number of nodes that the path may still take. -/
def dfs (graph_ : Graph) (target : String) :
    ℕ → List String → String → Draws → Option (List String × ℚ) × Draws
  | 0, _, _, r => (none, r)
  | room + 1, hops, node, r =>
    if node = target then (some (hops ++ [node], 0), r)
    else
      let neighbors := shuffle (graph_.val node) r
      tryNeighbors (hops ++ [node]) (fun next r => dfs graph_ target room (hops ++ [node]) next r)
        neighbors.1 neighbors.2

def dfsRandomPath (current target : String) (graph_ : Graph) (maxHops : ℕ) (r : Draws) :
    Option Path × Draws :=
  let res := dfs graph_ target (maxHops + 1) [] current r
  (res.1.map fun found => { hops := found.1, cost := found.2, rawRTT := found.2 }, res.2)

/-- The limit on the edges of a candidate. -/
def dfsMaxHops : ℕ := 15

/-- The attempts that are left; a path is known by its text. -/
def attempts (start end_ : String) (graph_ : Graph) (maxPaths : ℤ) :
    ℕ → List Path → GoMap String Bool → Draws → List Path × Draws
  | 0, paths, _, r => (paths, r)
  | left + 1, paths, usedPaths, r =>
    if maxPaths ≤ paths.length then (paths, r)
    else
      match dfsRandomPath start end_ graph_ dfsMaxHops r with
      | (none, r) => attempts start end_ graph_ maxPaths left paths usedPaths r
      | (some path, r) =>
        let pathStr := join path.hops "->"
        if usedPaths.val pathStr then attempts start end_ graph_ maxPaths left paths usedPaths r
        else
          attempts start end_ graph_ maxPaths left (paths ++ [path]) (usedPaths.set pathStr true) r

def randomDFSPaths (start end_ : String) (graph_ : Graph) (maxPaths : ℤ) (r : Draws) :
    List Path × Draws :=
  let res := attempts start end_ graph_ maxPaths 100 [] GoMap.empty r
  (ExchangeSort.sort Path.cost res.1, res.2)

/-- The first hop, and each later one that differs from the hop before it. -/
def deduplicateHops (hops : List String) : List String :=
  hops.take 1 ++ ((steps hops).filter fun e => e.2 ≠ e.1).map Prod.snd

def filterPathsByHops (paths : List PathInfo) (maxHops : ℕ) : List PathInfo :=
  paths.filter fun path => path.hops.length - 1 ≤ maxHops

/-- The paths of a search as they are handed on. -/
def pathInfos (paths : List Path) : List PathInfo :=
  let infos := paths.filterMap fun path =>
    let cleanHops := deduplicateHops path.hops
    if cleanHops.length - 1 > maxHops then none
    else some { hops := cleanHops, rtt := path.cost, rawRTT := path.rawRTT }
  filterPathsByHops infos maxHops

namespace ONEWANSolver

variable (os : ONEWANSolver)

def graph : Graph :=
  os.edges.foldl (fun g e => g.set e.sourceIp (g.val e.sourceIp ++ [e])) GoMap.empty

def nodes : List String := os.edges.flatMap fun e => [e.sourceIp, e.destinationIp]

/-- The candidates for the destinations that have any, in the order of the list. -/
def candidatePaths (start : String) : List String → Draws → List DestCandidates
  | [], _ => []
  | end_ :: ends, r =>
    if end_ ∉ os.nodes then candidatePaths start ends r
    else
      let found := randomDFSPaths start end_ os.graph os.maxPaths r
      let infos := pathInfos found.1
      if infos = [] then candidatePaths start ends found.2
      else
        let paths := if infos.length > os.maxPaths then infos.take os.maxPaths.toNat else infos
        { end_, paths, probs := [] } :: candidatePaths start ends found.2

def generateCandidatePaths (start : String) (ends : List String) (r : Draws) :
    Except String (List DestCandidates) :=
  let allCandidates := os.candidatePaths start ends r
  if allCandidates = [] then
    .error ("no paths found from " ++ start ++ " to any of [" ++ join ends " " ++ "]")
  else .ok allCandidates

end ONEWANSolver

end Generation

section Selection

/-- Selection probabilities by inverse latency; a latency that is not positive counts as
an equal share. -/
def DestCandidates.withProbs (dc : DestCandidates) : DestCandidates :=
  let totalInverseLatency := (dc.paths.map fun p => if p.rawRTT > 0 then 1 / p.rawRTT else 0).sum
  { dc with
    probs := dc.paths.map fun p =>
      if p.rawRTT > 0 ∧ totalInverseLatency > 0 then 1 / p.rawRTT / totalInverseLatency
      else 1 / (dc.paths.length : ℚ) }

/-- The first path whose cumulative probability reaches `r`, and the path at zero if
there is none. -/
def pick (r : ℚ) : ℚ → List (ℚ × ℕ) → ℕ
  | _, [] => 0
  | cumulative, (prob, pathIdx) :: rest =>
    if r ≤ cumulative + prob then pathIdx else pick r (cumulative + prob) rest

def unselected (probs : List ℚ) (selected : List ℕ) : List (ℚ × ℕ) :=
  probs.zipIdx.filter fun p => p.2 ∉ selected

def selectIndex (probs : List ℚ) (selected : List ℕ) (f : Fraction) : ℕ :=
  let totalProb := ((unselected probs selected).map Prod.fst).sum
  pick (f.val * totalProb) 0 (unselected probs selected)

/-- The selections that are left, after those in the list. -/
def selectIndices (probs : List ℚ) : ℕ → List ℕ → Fractions → List ℕ × Fractions
  | 0, selected, f => (selected, f)
  | n + 1, selected, f =>
    selectIndices probs n (selected ++ [selectIndex probs selected (f 0)]) fun k => f (k + 1)

def pathsPerDest : ℕ := 2

def selectPaths (dc : DestCandidates) (f : Fractions) : List PathInfo × Fractions :=
  let res := selectIndices dc.probs (min pathsPerDest dc.paths.length) [] f
  (res.1.filterMap fun pathIdx => dc.paths[pathIdx]?, res.2)

/-- One selection for all destinations. -/
def selectAll : List DestCandidates → Fractions → List PathInfo × Fractions
  | [], f => ([], f)
  | dc :: rest, f =>
    let part := selectPaths dc f
    let more := selectAll rest part.2
    (part.1 ++ more.1, more.2)

def edgeUsage (paths : List PathInfo) : GoMap String ℚ :=
  (paths.flatMap fun p => steps p.hops).foldl (fun m e =>
    m.set (edgeKey e.1 e.2) (m.val (edgeKey e.1 e.2) + 1)) GoMap.empty

def loadWeight : ℚ := 5

/-- The latencies of the paths, and for each edge a penalty for its load and for the
square of the number of paths on it. -/
def totalScore (edgeLoadMap : GoMap String ℚ) (paths : List PathInfo) : ℚ :=
  let usage := edgeUsage paths
  (paths.foldl (fun (st : ℚ × GoMap String Bool) path =>
    (steps path.hops).foldl (fun st e =>
      let key := edgeKey e.1 e.2
      if st.2.val key then st
      else
        let penalty := usage.val key * usage.val key * max (edgeLoadMap.val key) 1 * loadWeight
        (st.1 + penalty, st.2.set key true)) (st.1 + path.rawRTT, st.2)) (0, GoMap.empty)).1

/-- The solutions of the iterations that are left, with their scores. -/
def solutions (edgeLoadMap : GoMap String ℚ) (candidates : List DestCandidates) :
    ℕ → Fractions → List (List PathInfo × ℚ)
  | 0, _ => []
  | n + 1, f =>
    let sol := selectAll candidates f
    (sol.1, totalScore edgeLoadMap sol.1) :: solutions edgeLoadMap candidates n sol.2

/-- The first solution with the lowest score. -/
def bestSolution : List (List PathInfo × ℚ) → List PathInfo
  | [] => []
  | sol :: rest => (rest.foldl (fun best sol => if sol.2 < best.2 then sol else best) sol).1

namespace ONEWANSolver

variable (os : ONEWANSolver)

def edgeLoadMap : GoMap String ℚ :=
  os.edges.foldl (fun m e => m.set (edgeKey e.sourceIp e.destinationIp) e.load) GoMap.empty

def numIterations : ℕ := 100

def beamSearchSelection (allCandidates : List DestCandidates) (f : Fractions) : List PathInfo :=
  bestSolution
    (solutions os.edgeLoadMap (allCandidates.map DestCandidates.withProbs) numIterations f)

def computingMulti (start : String) (ends : List String) (r : Draws) (f : Fractions) :
    Except String (List PathInfo) :=
  if start ∉ os.nodes then .error s!"start node {start} not found"
  else do
    let allCandidates ← os.generateCandidatePaths start ends r
    return os.beamSearchSelection allCandidates f

end ONEWANSolver

end Selection

end Arcturus.OneWan
