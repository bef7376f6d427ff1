import Arcturus.KShortestRoutes
import Arcturus.RouteLatencies

/-!
The live-style solver: of the five paths of Yen's algorithm it takes those of least latency
among the ones with few edges. The algorithm looks for low weights, so that the order of its
paths is not that of their latencies.
-/

namespace Arcturus.LiveStyle

open GoMaps GoStrings KShortest SimplePaths RouteGraph YenRounds KShortestRoutes

structure LiveStyleSolver where
  edges : List Edge
  k : ℤ

/-- A requested count that is not positive becomes two. -/
def newLiveStyleSolver (edges : List Edge) (k : ℤ) : LiveStyleSolver :=
  { edges, k := if k ≤ 0 then 2 else k }

def toPathInfo (path : Path) : PathInfo := ⟨path.hops, path.cost, path.rawRTT⟩

/-- At most ten edges. -/
def isShort (path : Path) : Bool := (path.hops.length : ℤ) - 1 ≤ 10

def selectTopPaths (paths : List Path) (count : ℤ) : List Path :=
  let validPaths := ExchangeSort.sort Path.rawRTT (paths.filter isShort)
  if (validPaths.length : ℤ) > count then validPaths.take count.toNat else validPaths

namespace LiveStyleSolver
variable (ls : LiveStyleSolver)

def graph : Graph :=
  ls.edges.foldl (fun g e => g.set e.sourceIp (g.val e.sourceIp ++ [e])) GoMap.empty

def nodes : List String := ls.edges.flatMap fun e => [e.sourceIp, e.destinationIp]

/-- The paths that the selection is made from. -/
def kspPaths (start end_ : String) : Option (Except String (List Path)) :=
  (newKShortestSolver ls.edges 5).yensAlgorithm start end_ ls.graph

def computing (start end_ : String) : Option (Except String (List PathInfo)) :=
  if start ∉ ls.nodes then some (.error s!"start node {start} not found")
  else if end_ ∉ ls.nodes then some (.error s!"end node {end_} not found")
  else
    (ls.kspPaths start end_).map fun res =>
      res.map fun paths => (selectTopPaths paths ls.k).map toPathInfo

end LiveStyleSolver

/-- An edge list with weights that are not negative, one edge for each ordered pair and usable
names. -/
structure Table where
  edges : List Edge
  nonneg : ∀ e ∈ edges, 0 ≤ e.edgeWeight
  unique : (edges.map fun e => (e.sourceIp, e.destinationIp)).Nodup
  names : ∀ e ∈ edges, ∀ name ∈ [e.sourceIp, e.destinationIp], name ≠ "" ∧ ¬ Contains name "->"

def Table.network (T : Table) : Network :=
  { edges := T.edges, useLatency := false, nonneg := T.nonneg, unique := T.unique,
    names := T.names }

/-- The returned paths are the first ones by latency among the short ones of the given paths,
and both metrics are those of their own edges. -/
structure Selects (N : Network) (start end_ : String) (k : ℤ) (paths : List Path)
    (infos : List PathInfo) : Prop where
  least : ∃ chosen rest : List Path, infos = chosen.map toPathInfo ∧
    (chosen ++ rest).Perm (paths.filter isShort) ∧
    ∀ p ∈ chosen, ∀ q ∈ rest, N.routeLatency p.hops ≤ N.routeLatency q.hops
  count : (infos.length : ℤ) = min k (paths.filter isShort).length
  sorted : infos.Pairwise (·.rawRTT ≤ ·.rawRTT)
  route : ∀ info ∈ infos, N.IsRoute start end_ info.hops
  latency : ∀ info ∈ infos, info.rawRTT = (N.routeLatency info.hops : ℚ)
  weight : ∀ info ∈ infos, info.rtt = N.routeWeight info.hops

theorem selectTopPaths_eq_take (paths : List Path) {count : ℤ} (h : 0 ≤ count) :
    selectTopPaths paths count =
      (ExchangeSort.sort Path.rawRTT (paths.filter isShort)).take count.toNat := by
  unfold selectTopPaths
  dsimp only
  split
  · rfl
  · rw [List.take_of_length_le (by omega)]

/-- A path as the algorithm returns it. -/
structure Measured (N : Network) (start end_ : String) (p : Path) : Prop where
  route : N.IsRoute start end_ p.hops
  latency : p.rawRTT = (N.routeLatency p.hops : ℚ)
  weight : p.cost = N.routeWeight p.hops

theorem measured_returned {N : Network} {start end_ : String} (hs : start ≠ "")
    (hname : ¬ Contains start "->") {A : List Path}
    {st : KShortestSolver.YenState} (h : Run N start end_ A st) :
    ∀ p ∈ returned A, Measured N start end_ p := by
  have hinv : YenInv N start end_ hs A st := h.inv hname
  intro p hp
  obtain ⟨path, hpath, rfl⟩ := List.mem_map.mp hp
  have hmem := (ExchangeSort.sort_perm Path.cost A).mem_iff.mp hpath
  have hroute := hinv.route _ (List.mem_map_of_mem hmem)
  have hhops := SpurStep.removeConsecutiveDuplicates_of_nodup hroute.nodup
  rw [hhops]
  exact ⟨hroute, (RouteLatencies.run_latency hs hname h).2 path hmem, hinv.cost path hmem⟩

theorem selects_selectTopPaths {N : Network} {start end_ : String} {k : ℤ} (hk : 0 ≤ k)
    {paths : List Path} (h : ∀ p ∈ paths, Measured N start end_ p) :
    Selects N start end_ k paths ((selectTopPaths paths k).map toPathInfo) := by
  rw [selectTopPaths_eq_take paths hk]
  have hperm := ExchangeSort.sort_perm Path.rawRTT (paths.filter isShort)
  have hsorted := ExchangeSort.sort_sorted Path.rawRTT (paths.filter isShort)
  generalize ExchangeSort.sort Path.rawRTT (paths.filter isShort) = l at hperm hsorted
  have hmeasured : ∀ p ∈ l, Measured N start end_ p :=
    fun p hp => h p (List.mem_of_mem_filter (hperm.mem_iff.mp hp))
  have htake : ∀ info ∈ (l.take k.toNat).map toPathInfo,
      ∃ p, Measured N start end_ p ∧ toPathInfo p = info := by
    intro info hinfo
    obtain ⟨p, hp, heq⟩ := List.mem_map.mp hinfo
    exact ⟨p, hmeasured p (List.mem_of_mem_take hp), heq⟩
  refine ⟨⟨l.take k.toNat, l.drop k.toNat, rfl, ?_, ?_⟩, ?_, ?_, ?_, ?_, ?_⟩
  · rw [List.take_append_drop]
    exact hperm
  · intro p hp q hq
    rw [← List.take_append_drop k.toNat l, List.pairwise_append] at hsorted
    have hle := hsorted.2.2 p hp q hq
    rw [(hmeasured p (List.mem_of_mem_take hp)).latency,
      (hmeasured q (List.mem_of_mem_drop hq)).latency] at hle
    exact WithTop.coe_le_coe.mp hle
  · rw [List.length_map, List.length_take, hperm.length_eq]
    omega
  · rw [List.pairwise_map]
    exact hsorted.sublist (List.take_sublist _ _)
  · intro info hinfo
    obtain ⟨p, hp, rfl⟩ := htake info hinfo
    exact hp.route
  · intro info hinfo
    obtain ⟨p, hp, rfl⟩ := htake info hinfo
    exact hp.latency
  · intro info hinfo
    obtain ⟨p, hp, rfl⟩ := htake info hinfo
    exact hp.weight

/-- The solver returns the short paths of least latency among those of Yen's algorithm, or an
error if a node is missing or the algorithm finds no path. -/
theorem computing_selects (T : Table) (start end_ : String) (k : ℤ) (hk : 1 ≤ k) :
    (∃ paths infos, (newLiveStyleSolver T.edges k).kspPaths start end_ = some (.ok paths) ∧
      (newLiveStyleSolver T.edges k).computing start end_ = some (.ok infos) ∧
      Selects T.network start end_ k paths infos) ∨
    ∃ err, (newLiveStyleSolver T.edges k).computing start end_ = some (.error err) ∧
      (start ∉ (newLiveStyleSolver T.edges k).nodes ∨ end_ ∉ (newLiveStyleSolver T.edges k).nodes ∨
        (newLiveStyleSolver T.edges k).kspPaths start end_ = some (.error err)) := by
  unfold LiveStyleSolver.computing
  by_cases hstart : start ∈ (newLiveStyleSolver T.edges k).nodes
  swap
  · rw [if_pos hstart]
    exact Or.inr ⟨_, rfl, Or.inl hstart⟩
  by_cases hend : end_ ∈ (newLiveStyleSolver T.edges k).nodes
  swap
  · rw [if_neg (not_not.mpr hstart), if_pos hend]
    exact Or.inr ⟨_, rfl, Or.inr (Or.inl hend)⟩
  rw [if_neg (not_not.mpr hstart), if_neg (not_not.mpr hend)]
  obtain ⟨hs, hname⟩ := Occurs.name_ok ((mem_nodes_iff (N := T.network) 5).mp hstart)
  have hcount : (newLiveStyleSolver T.edges k).k = k := if_neg (by omega)
  rcases @yensAlgorithm_cases T.network start end_ hs hname 5 (by decide) with
    ⟨A, st, hA, hyen⟩ | ⟨err, hyen⟩
  · have hksp : (newLiveStyleSolver T.edges k).kspPaths start end_ = some (.ok (returned A)) := hyen
    refine Or.inl ⟨returned A, (selectTopPaths (returned A) k).map toPathInfo, hksp, ?_,
      selects_selectTopPaths (by omega) (measured_returned hs hname hA)⟩
    rw [hksp, hcount]
    rfl
  · have hksp : (newLiveStyleSolver T.edges k).kspPaths start end_ = some (.error err) := hyen
    refine Or.inr ⟨err, ?_, Or.inr (Or.inr hksp)⟩
    rw [hksp]
    rfl

/-- A direct edge of low weight, and a detour of low latency. -/
def detour : Table where
  edges := [⟨"A", "B", 1, 10⟩, ⟨"A", "C", 1, 2⟩, ⟨"C", "B", 1, 3⟩]
  nonneg := by decide +kernel
  unique := by decide +kernel
  names := by decide +kernel

theorem detour_selected :
    ((newLiveStyleSolver detour.edges 1).computing "A" "B").map Except.toOption =
        some (some [⟨["A", "C", "B"], 2, (5 : ℚ)⟩]) ∧
      ∃ paths infos, (newLiveStyleSolver detour.edges 1).kspPaths "A" "B" = some (.ok paths) ∧
        Selects detour.network "A" "B" 1 paths infos := by
  have hrun : ((newLiveStyleSolver detour.edges 1).computing "A" "B").map Except.toOption =
      some (some [⟨["A", "C", "B"], 2, (5 : ℚ)⟩]) := by
    decide +kernel
  refine ⟨hrun, ?_⟩
  rcases computing_selects detour "A" "B" 1 (by decide) with
    ⟨paths, infos, hpaths, -, hselects⟩ | ⟨err, herr, -⟩
  · exact ⟨paths, infos, hpaths, hselects⟩
  · rw [herr] at hrun
    cases hrun

end Arcturus.LiveStyle
