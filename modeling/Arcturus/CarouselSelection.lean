import Arcturus.CarouselRuns
import Arcturus.KShortestRoutes

/-!
The shape of the paths that the carousel-greedy solver selects, and the exactness of the
counts and flows that it keeps about its current paths.
-/

namespace Arcturus.Carousel

open GoMaps RandomChoices SimplePaths EdgeLists

variable {d d' : FlowOptimizationSolver} {start : String} {ends validEnds : List String}
  {ans : Except String (List PathInfo)} {record : List (Event × Ledger)}

/-- A selection of paths from one node to some of the listed ones. -/
structure WellShaped (d : FlowOptimizationSolver) (start : String) (ends : List String)
    (infos : List PathInfo) : Prop where
  nonempty : infos ≠ []
  distinct : (infos.map PathInfo.hops).Nodup
  path : ∀ p ∈ infos, ∃ dest ∈ ends, dest ∈ d.nodes ∧
    IsSimplePath (Beside d.edges) start dest p.hops ∧ p.hops.length ≤ maxHops
  share : ∀ x, (infos.countP fun p => p.hops.getLast? = some x) ≤ d.flowsPerDest * ends.count x

/-- Two nodes between the start and the destination, with an edge from one to the other. -/
def diamond : List Edge :=
  [link "S" "A" 2 0, link "A" "B" 0 0, link "B" "T" 2 0, link "S" "B" (5 / 2) 0,
    link "A" "T" (5 / 2) 0]

theorem mem_validEnds {x : String} : x ∈ d.validEnds ends ↔ x ∈ ends ∧ x ∈ d.nodes := by
  simp [FlowOptimizationSolver.validEnds]

theorem wellShaped_of_chosen (hd' : d.prepare start (d.validEnds ends) = some d')
    {searches : List Search} {paths : List PathWithInfo}
    (h : Chosen d' start (d.validEnds ends) searches paths) :
    WellShaped d start ends (paths.map PathWithInfo.toPathInfo) := by
  obtain ⟨hne, ⟨L, hreached, rfl⟩, -⟩ := h
  obtain ⟨⟨m, rfl⟩, -⟩ := prepare_spec hd'
  obtain ⟨-, hmirrored, hkept⟩ := consistent_of_reached hreached
  refine ⟨by simpa using hne, ?_, ?_, ?_⟩
  · rw [List.map_map]
    exact hmirrored.nodup_paths
  · intro p hp
    obtain ⟨pi, hpi, rfl⟩ := List.mem_map.mp hp
    have hlisted := mem_validEnds.mp (hkept pi hpi).listed
    exact ⟨pi.dest, hlisted.1, hlisted.2, (hkept pi hpi).simple, (hkept pi hpi).short⟩
  · intro x
    have hcount : ((L.allPaths.map PathWithInfo.toPathInfo).countP fun p =>
        p.hops.getLast? = some x) = L.allPaths.countP fun pi => pi.dest = x := by
      rw [List.countP_map]
      apply List.countP_congr
      intro pi hpi
      have hlast := (hkept pi hpi).simple.last
      simp [PathWithInfo.toPathInfo, hlast]
    rw [hcount]
    apply (hmirrored.room x).trans
    exact Nat.mul_le_mul_left _ (List.Sublist.count_le x List.filter_sublist)

theorem selection_wellShaped (d : FlowOptimizationSolver) (start : String) (ends : List String)
    (draws : Draws) (h : d.execute start ends draws = some (ans, record)) :
    (∀ infos, ans = .ok infos → WellShaped d start ends infos) ∧
      ∀ L, (Event.head, L) ∈ record →
        (∀ x, L.destFlowCount.val x = L.allPaths.countP fun pi => pi.dest = x) ∧
        (∀ s, s ∈ L.usedPaths.keys ↔ ∃ pi ∈ L.allPaths, pathToString pi.path = s) ∧
        ∀ s, L.usedPaths.val s = true ↔ s ∈ L.usedPaths.keys := by
  rcases execute_spec h with ⟨rfl, herror⟩ | ⟨d', hd', hrecord, hans⟩
  · exact ⟨fun infos hok => absurd hok (herror infos), fun L hL => absurd hL List.not_mem_nil⟩
  · refine ⟨?_, ?_⟩
    · intro infos hok
      obtain ⟨paths, hchosen, rfl⟩ := hans infos hok
      exact wellShaped_of_chosen hd' hchosen
    · intro L hL
      have hmirrored := (consistent_of_reached (hrecord _ hL).1).mirrored
      exact ⟨hmirrored.count, hmirrored.used, hmirrored.used_val⟩

theorem diamond_wellShaped : ∃ infos record,
    (newFlowOptimizationSolver diamond).execute "S" ["T"] (fun _ => 0) = some (.ok infos, record) ∧
      infos.length = 2 ∧ WellShaped (newFlowOptimizationSolver diamond) "S" ["T"] infos := by
  have hrun : (newFlowOptimizationSolver diamond).computingMulti "S" ["T"] (fun _ => 0) =
      some (.ok [⟨["S", "A", "B", "T"], 4, 4⟩, ⟨["S", "B", "T"], 9 / 2, 9 / 2⟩]) := by
    decide +kernel
  obtain ⟨⟨ans, record⟩, hexecute, hans⟩ := Option.map_eq_some_iff.mp hrun
  subst hans
  exact ⟨_, record, hexecute, rfl, (selection_wellShaped _ _ _ _ hexecute).1 _ rfl⟩

/-- An edge list with one edge for each ordered pair, usable names and latencies that are not
negative, as the search for the bounds reads it. -/
def latencyNetwork (edges : List Edge) (hnonneg : ∀ e ∈ edges, 0 ≤ e.latency)
    (hunique : (edges.map fun e => (e.sourceIp, e.destinationIp)).Nodup)
    (hnames : ∀ e ∈ edges, ∀ name ∈ [e.sourceIp, e.destinationIp],
      name ≠ "" ∧ ¬ GoStrings.Contains name "->") : RouteGraph.Network where
  edges := edges.map Edge.toEdge
  useLatency := true
  nonneg := by
    intro e he
    obtain ⟨f, hf, rfl⟩ := List.mem_map.mp he
    exact hnonneg f hf
  unique := by
    rw [List.map_map]
    exact hunique
  names := by
    intro e he
    obtain ⟨f, hf, rfl⟩ := List.mem_map.mp he
    exact hnames f hf

/-- On such a list the computation of the bounds ends, so that every execution has an answer. -/
theorem execute_isSome {edges : List Edge} (hnonneg : ∀ e ∈ edges, 0 ≤ e.latency)
    (hunique : (edges.map fun e => (e.sourceIp, e.destinationIp)).Nodup)
    (hnames : ∀ e ∈ edges, ∀ name ∈ [e.sourceIp, e.destinationIp],
      name ≠ "" ∧ ¬ GoStrings.Contains name "->")
    (start : String) (ends : List String) (draws : Draws) :
    ((newFlowOptimizationSolver edges).execute start ends draws).isSome := by
  have hbound : ∀ d : FlowOptimizationSolver, d.edges = edges → d.kspK = 3 →
      ∀ end_, (d.computeThetaL start end_).isSome := by
    intro d hedges hk end_
    rw [FlowOptimizationSolver.computeThetaL, hedges, hk, Option.isSome_map]
    exact KShortestRoutes.computing_isSome (latencyNetwork edges hnonneg hunique hnames) start end_
      (by decide)
  have hprepare : ∀ (validEnds : List String) (d : FlowOptimizationSolver), d.edges = edges →
      d.kspK = 3 → (d.computeThetaLForDestinations start validEnds).isSome := by
    intro validEnds
    induction validEnds with
    | nil => exact fun _ _ _ => rfl
    | cons end_ rest ih =>
      intro d hedges hk
      obtain ⟨bound, hsome⟩ := Option.isSome_iff_exists.mp (hbound d hedges hk end_)
      rw [FlowOptimizationSolver.computeThetaLForDestinations, List.foldlM_cons, hsome]
      exact ih _ hedges hk
  unfold FlowOptimizationSolver.execute
  split
  · rfl
  split
  · rfl
  split
  · rfl
  · rw [Option.isSome_map]
    exact hprepare _ _ rfl rfl

/-- The loop of `releaseFlow` over the edges of the path at the front never meets an edge
with less than one unit of flow. -/
theorem Consistent.release_nonneg {L : Ledger} {pi : PathWithInfo} {rest : List PathWithInfo}
    (h : Consistent d start validEnds L) (hfront : L.allPaths = pi :: rest)
    {before after : List (String × String)} {e : String × String}
    (hsteps : steps pi.path = before ++ e :: after) (hkey : e ∈ L.graph.keys) :
    0 ≤ ((before.foldl (updateEdge (EdgeFlow.release 1)) L.graph).val e).flow - 1 := by
  have hpi := h.kept pi (by rw [hfront]; exact List.mem_cons_self)
  have hnodup := nodup_steps hpi.simple.nodup
  rw [hsteps, List.nodup_middle, List.nodup_cons, List.mem_append, not_or] at hnodup
  have he : e ∈ steps pi.path := by simp [hsteps]
  rw [foldl_updateEdge_val_of_notMem hnodup.1.1, h.balanced.flow_front hfront hkey he]
  simp

theorem flows_exact (d : FlowOptimizationSolver) (start : String) (ends : List String)
    (draws : Draws) (h : d.execute start ends draws = some (ans, record)) :
    ∀ ev L, (ev, L) ∈ record →
      (∀ e ∈ L.graph.keys, (L.graph.val e).flow = passing L.allPaths e ∧
        (L.graph.val e).residual = (L.graph.val e).effCap - (L.graph.val e).flow) ∧
      (∀ pi, ev = .removing pi → ∀ before e after, steps pi.path = before ++ e :: after →
        e ∈ L.graph.keys →
        0 ≤ ((before.foldl (updateEdge (EdgeFlow.release 1)) L.graph).val e).flow - 1) ∧
      (ev = .head → ∀ e ∈ L.graph.keys, (L.graph.val e).banned = false) := by
  intro ev L hL
  rcases execute_spec h with ⟨rfl, -⟩ | ⟨d', -, hrecord, -⟩
  · exact absurd hL List.not_mem_nil
  · obtain ⟨hreached, hev⟩ := hrecord _ hL
    have hcons := consistent_of_reached hreached
    refine ⟨fun e he => ⟨hcons.balanced.flow e he, hcons.balanced.residual e he⟩, ?_, ?_⟩
    · intro pi hremoving before e after hsteps hkey
      subst hremoving
      obtain ⟨rest, hfront⟩ := hev
      exact hcons.release_nonneg hfront hsteps hkey
    · intro hhead e _
      subst hhead
      exact hev e

theorem diamond_flows_exact : ∃ ans record,
    (newFlowOptimizationSolver diamond).execute "S" ["T"] (fun _ => 0) = some (ans, record) ∧
      record.length = 12 ∧ ∀ ev L, (ev, L) ∈ record →
        ∀ e ∈ L.graph.keys, (L.graph.val e).flow = passing L.allPaths e := by
  have hrun : ((newFlowOptimizationSolver diamond).execute "S" ["T"] (fun _ => 0)).map
      (fun p => p.2.length) = some 12 := by
    decide +kernel
  obtain ⟨⟨ans, record⟩, hexecute, hlength⟩ := Option.map_eq_some_iff.mp hrun
  refine ⟨ans, record, hexecute, hlength, ?_⟩
  intro ev L hL e he
  exact ((flows_exact _ _ _ _ hexecute ev L hL).1 e he).1

end Arcturus.Carousel
