import Arcturus.CarouselExact
import Arcturus.CarouselSelection

/-!
When the paths of the carousel-greedy solver are routes along edges. A search may run
against an edge that carries flow at no cost, and the nodes it passes are taken as a
route. A selected path is real exactly if the search that found it did not go against an
edge where there is none in its own direction, and all of them are if no search is offered
such a path.
-/

namespace Arcturus.Carousel

open GoMaps RandomChoices SimplePaths EdgeLists

/-- The step goes against an edge with flow, and no edge leads in its own direction. -/
def Reverses (s : Search) (hop : String × String) : Prop :=
  hop ∉ s.ledger.graph.keys ∧ (hop.2, hop.1) ∈ s.ledger.graph.keys ∧
    0 < (s.ledger.graph.val (hop.2, hop.1)).flow

instance (s : Search) (hop : String × String) : Decidable (Reverses s hop) :=
  inferInstanceAs (Decidable (_ ∧ _ ∧ _))

/-- Every path that is offered to the search moves along edges. -/
def RealPaths (d : FlowOptimizationSolver) (start : String) (s : Search) : Prop :=
  ∀ hops cost, Offers d start s hops cost → hops.IsChain (Arc d.edges)

section Real

variable {d d' : FlowOptimizationSolver} {start : String} {ends : List String} {s : Search}

/-- The latency of a step along an edge is that of an edge with the same key. -/
theorem getEdgeLatency_spec {edges : List Edge} {u v : String}
    (h : Arc edges u v) :
    ∃ e ∈ edges, edgeKey e.sourceIp e.destinationIp = edgeKey u v ∧
      (newFlowOptimizationSolver edges).getEdgeLatency u v = e.latency := by
  obtain ⟨e, he, rfl, rfl⟩ := h
  have hkey : edgeKey e.sourceIp e.destinationIp ∈
      (newFlowOptimizationSolver edges).latencyMap.keys :=
    (GoMap.mem_foldl_set_keys (fun e : Edge => edgeKey e.sourceIp e.destinationIp)
      (fun e => e.latency) edges GoMap.empty _).mpr (Or.inr ⟨e, he, rfl⟩)
  rw [FlowOptimizationSolver.getEdgeLatency, if_pos hkey]
  rcases GoMap.foldl_set_val (fun e : Edge => edgeKey e.sourceIp e.destinationIp)
    (fun e => e.latency) edges GoMap.empty (edgeKey e.sourceIp e.destinationIp) with h | ⟨h, -⟩
  · exact h
  · exact absurd rfl (h e he)

theorem getEdgeLatency_nonneg {edges : List Edge} (hnonneg : ∀ e ∈ edges, 0 ≤ e.latency)
    (u v : String) (h : Arc edges u v) :
    0 ≤ (newFlowOptimizationSolver edges).getEdgeLatency u v := by
  obtain ⟨e, he, -, heq⟩ := getEdgeLatency_spec h
  rw [heq]
  exact hnonneg e he

/-- Every residual network that the solver reaches is of this kind. -/
theorem residualState_of_reached {edges : List Edge} (hnonneg : ∀ e ∈ edges, 0 ≤ e.latency)
    {d : FlowOptimizationSolver} {start : String} {ends : List String} {L : Ledger}
    (hd : (newFlowOptimizationSolver edges).prepare start ends = some d)
    (h : Reached d start ends L) : ResidualState d L.graph := by
  have hbalanced := (consistent_of_reached h).balanced
  obtain ⟨⟨m, rfl⟩, -⟩ := prepare_spec hd
  exact ⟨fun e he => hbalanced.arc he,
    fun e he => getEdgeLatency_nonneg hnonneg e.1 e.2 (hbalanced.arc he)⟩

theorem mem_keys_iff_of_reached {L : Ledger} (h : Reached d start ends L)
    (e : String × String) : e ∈ L.graph.keys ↔ Arc d.edges e.1 e.2 := by
  rw [(consistent_of_reached h).balanced.keys]
  exact mem_build_keys

/-- A path of the residual network moves along edges exactly if no step of it reverses one. -/
theorem chain_iff_of_costPath (hs : Reached d start ends s.ledger) {t u : String}
    {hops : List String} {cost : ℚ}
    (h : CostPath (ResidualStep d s.ledger.graph) t u hops cost) :
    hops.IsChain (Arc d.edges) ↔ ∀ hop ∈ steps hops, ¬ Reverses s hop := by
  rw [← forall_mem_steps]
  constructor
  · intro hreal hop hmem hrev
    exact hrev.1 ((mem_keys_iff_of_reached hs hop).mpr (hreal hop hmem))
  · intro hno hop hmem
    obtain ⟨c, hstep⟩ := forall_mem_steps.mpr h.isSimplePath.chain hop hmem
    cases hstep with
    | forward hkey _ => exact (mem_keys_iff_of_reached hs hop).mp hkey
    | backward _ hkey hflow =>
      by_contra harc
      exact hno hop hmem ⟨mt (mem_keys_iff_of_reached hs hop).mp harc, hkey, hflow⟩

theorem execute_of_computingMulti {draws : Draws} {infos : List PathInfo}
    (h : d.computingMulti start ends draws = some (.ok infos)) :
    ∃ d', d.prepare start (d.validEnds ends) = some d' ∧ ∃ paths,
      Chosen d' start (d.validEnds ends) (d'.searches start (d.validEnds ends) draws) paths ∧
        infos = paths.map PathWithInfo.toPathInfo := by
  obtain ⟨⟨ans, record⟩, hexecute, rfl⟩ := Option.map_eq_some_iff.mp h
  rcases execute_spec hexecute with ⟨-, herror⟩ | ⟨d', hd', -, hans⟩
  · exact absurd rfl (herror infos)
  · exact ⟨d', hd', hans infos rfl⟩

/-- Each selected path was found by one of the searches, to which it was offered. -/
theorem exists_offers_of_chosen {edges : List Edge} (hnonneg : ∀ e ∈ edges, 0 ≤ e.latency)
    {draws : Draws} {paths : List PathWithInfo} {pi : PathWithInfo}
    (hd' : (newFlowOptimizationSolver edges).prepare start ends = some d')
    (h : Chosen d' start ends (d'.searches start ends draws) paths) (hpi : pi ∈ paths) :
    ∃ s ∈ d'.searches start ends draws, s.found d' start = some pi ∧
      Admitted d' start ends s.ledger pi ∧ Offers d' start s pi.path pi.latency := by
  obtain ⟨s, hs, hadmitted, hfound⟩ := h.sought pi hpi
  have hreached := (select_tracked d' start ends draws).2.1 s hs
  exact ⟨s, hs, hfound, hadmitted, offers_of_found (residualState_of_reached hnonneg hd' hreached)
    hfound (Bool.eq_false_iff.mp hadmitted.fresh)⟩

/-- A search goes against an edge only if the edge carries flow. It does not come back to the
start and does not go on from its destination. -/
theorem realPaths_of_flows (hg : ResidualState d s.ledger.graph)
    (h : ∀ e ∈ s.ledger.graph.keys, 0 < (s.ledger.graph.val e).flow →
      e.1 = start ∨ e.2 = s.dest ∨ Arc d.edges e.2 e.1) : RealPaths d start s := by
  intro hops cost hoffers
  have hpath := hoffers.feasible.costPath
  obtain ⟨l, rfl⟩ := hpath.isSimplePath.eq_cons
  have hreal : CostPath (fun u v _ => Arc d.edges u v) s.dest start (start :: l) cost := by
    refine hpath.imp (N := Set.univ) (s := start) (fun _ _ _ => hg.cost_nonneg) ?_ trivial
      (List.nodup_cons.mp hpath.isSimplePath.nodup).1 le_rfl
    intro u v c _ hu hv _ hstep
    refine ⟨trivial, ?_⟩
    cases hstep with
    | forward hkey _ => exact hg.arcs (u, v) hkey
    | backward _ hkey hflow =>
      rcases h (v, u) hkey hflow with hs | ht | harc
      · exact absurd hs hv
      · exact absurd ht hu
      · exact harc
  exact hreal.isSimplePath.chain.imp fun _ _ ⟨_, harc⟩ => harc

/-- The diamond with a node A that is too busy to pass anything on to B. -/
def busyDiamond : List Edge :=
  [link "S" "A" 2 0, link "A" "B" 0 100, link "B" "T" 2 0, link "S" "B" (5 / 2) 0,
    link "A" "T" (5 / 2) 0]

/-- Only edges from the start and to the destination carry flow. -/
theorem busyDiamond_flows :
    ((newFlowOptimizationSolver busyDiamond).prepare "S" ["T"]).map (fun d' =>
      ((d'.searches "S" ["T"] fun _ => 0).length,
        (d'.searches "S" ["T"] fun _ => 0).all fun s => s.ledger.graph.keys.all fun e =>
          s.dest = "T" ∧ (0 < (s.ledger.graph.val e).flow → e.1 = "S" ∨ e.2 = "T"))) =
      some (6, true) := by
  decide +kernel

end Real

end Arcturus.Carousel
