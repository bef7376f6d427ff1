import Arcturus.CarouselReversals

/-!
When the latencies that the carousel-greedy solver reports are those of the edges on the
paths. The reported number is what the search paid: nothing for a step against an edge
with flow, a penalty on top of the latency of a banned edge, and for an edge whose key
another pair of nodes has the latency of the later one.
-/

namespace Arcturus.Carousel

open GoMaps RandomChoices SimplePaths EdgeLists

/-- A step along an edge that costs the latency of the edge. -/
def EdgeStep (edges : List Edge) (u v : String) (c : ℚ) : Prop :=
  Arc edges u v ∧ c = hopLatency edges u v

/-- What a search pays for a step beyond the latency of the edge: the penalty of a banned edge
and the difference to the latency under its key; against an edge with flow, the latency is
not paid. -/
def Surcharge (d : FlowOptimizationSolver) (g : ResidualGraph) (u v : String) (x : ℚ) : Prop :=
  ∃ c, ResidualStep d g u v c ∧ x = c - hopLatency d.edges u v

/-- The path goes along edges, and both its numbers are the latency of these, which is within
the bound of its destination. -/
structure Accurate (edges : List Edge) (thetaLMap : GoMap String ℚ) (p : PathInfo) : Prop where
  chain : p.hops.IsChain (Arc edges)
  rtt : p.rtt = routeLatency edges p.hops
  rawRTT : p.rawRTT = routeLatency edges p.hops
  within : ∀ dest, p.hops.getLast? = some dest → routeLatency edges p.hops ≤ thetaLMap.val dest

/-- Every path that is offered to the search at some cost goes along edges, each of which
costs its latency. -/
def PricedPaths (d : FlowOptimizationSolver) (start : String) (s : Search) : Prop :=
  ∀ hops cost, Offers d start s hops cost → CostPath (EdgeStep d.edges) s.dest start hops cost

variable {d : FlowOptimizationSolver} {start : String} {s : Search}

theorem edgeStep_path_iff {edges : List Edge} {t : String} {hops : List String} {cost : ℚ} :
    CostPath (EdgeStep edges) t start hops cost ↔
      IsSimplePath (Arc edges) start t hops ∧ cost = routeLatency edges hops :=
  costPath_iff

/-- A selected path is within its bound at what the search paid. -/
theorem accurate_of_chain {edges : List Edge} {d' : FlowOptimizationSolver} {ends : List String}
    {L : Ledger} {pi : PathWithInfo}
    (hd' : (newFlowOptimizationSolver edges).prepare start ends = some d')
    (hadmitted : Admitted d' start ends L pi) (hchain : pi.path.IsChain (Arc edges))
    (hcost : pi.latency = routeLatency edges pi.path) :
    Accurate edges d'.thetaLMap pi.toPathInfo := by
  refine ⟨hchain, hcost, hcost, fun dest hdest => ?_⟩
  obtain ⟨hsimple, -⟩ := hadmitted.found.isSimplePath
  have hsame : pi.dest = dest := Option.some.inj (hsimple.last.symm.trans hdest)
  obtain ⟨_, -, -, hle, -⟩ := hadmitted.found
  rw [((prepare_spec hd').2 pi.dest hadmitted.listed).2, hsame] at hle
  exact hcost ▸ hle

/-- The prices are right if the nodes that can be reached have no edge with a shared key, only
edges from the start and to the destination carry flow, and the bound is below the penalty. -/
theorem pricedPaths_of_closed (hg : ResidualState d s.ledger.graph) {N : List String}
    (hstart : start ∈ N) (hbound : d.thetaL s.dest < bannedPenalty)
    (hclosed : ∀ e ∈ s.ledger.graph.keys, e.1 ∈ N →
      e.2 ∈ N ∧ d.getEdgeLatency e.1 e.2 = hopLatency d.edges e.1 e.2)
    (hflow : ∀ e ∈ s.ledger.graph.keys, 0 < (s.ledger.graph.val e).flow →
      e.1 = start ∨ e.2 = s.dest) : PricedPaths d start s := by
  intro hops cost hoffers
  have hpath := hoffers.feasible.costPath
  obtain ⟨l, rfl⟩ := hpath.isSimplePath.eq_cons
  refine hpath.imp (N := { x | x ∈ N }) (s := start) (fun _ _ _ => hg.cost_nonneg) ?_ hstart
    (List.nodup_cons.mp hpath.isSimplePath.nodup).1 hoffers.feasible.within
  intro u v c hu hut hvs hc hstep
  cases hstep with
  | forward hkey _ =>
    obtain ⟨hv, hprice⟩ := hclosed (u, v) hkey hu
    refine ⟨hv, hg.arcs (u, v) hkey, ?_⟩
    have hnonneg := hg.latencies (u, v) hkey
    unfold EdgeFlow.penalty at hc ⊢
    split at hc
    · simp only at hnonneg
      linarith
    · rename_i hban
      rw [if_neg hban, add_zero]
      exact hprice
  | backward _ hkey hpos =>
    rcases hflow (v, u) hkey hpos with hs | ht
    · exact absurd hs hvs
    · exact absurd ht hut

/-- Two ways to the destination, and two edges with the same key that are out of reach. -/
def sharedKeys : List Edge :=
  [link "S" "M" 1 0, link "M" "T" 1 0, link "S" "T" 3 0, link "A->B" "C" 5 0,
    link "A" "B->C" 7 0]

theorem sharedKeys_searches :
    ((newFlowOptimizationSolver sharedKeys).prepare "S" ["T"]).map (fun d' =>
      (d'.thetaL "T", (d'.searches "S" ["T"] fun _ => 0).length,
        (d'.searches "S" ["T"] fun _ => 0).all fun s => s.dest = "T" ∧
          ∀ e ∈ s.ledger.graph.keys,
            (e.1 ∈ ["S", "M", "T"] → e.2 ∈ ["S", "M", "T"] ∧
              d'.getEdgeLatency e.1 e.2 = hopLatency d'.edges e.1 e.2) ∧
            (0 < (s.ledger.graph.val e).flow → e.1 = "S" ∨ e.2 = "T"))) =
      some (15 / 4, 6, true) := by
  decide +kernel

/-- The diamond with an edge back from B to A that is slower than the search assumes. -/
def slowBack : List Edge := diamond ++ [link "B" "A" 3 0]

end Arcturus.Carousel
