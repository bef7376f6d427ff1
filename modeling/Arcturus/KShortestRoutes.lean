import Mathlib.Data.Set.Card
import Arcturus.YenRounds

/-!
What `computing` returns for a valid edge table: routes with their weights,
sorted and all different, as many as were asked for or exist. Whether they are
the cheapest ones depends on the searches, which look no further than the
nearest neighbour of the end node.
-/

namespace Arcturus.KShortestRoutes

open GoStrings KShortest KShortestSolver SimplePaths RouteGraph SpurSearch SpurStep YenRounds
open Deviation

/-- The node is an end of some edge. -/
def Occurs (N : Network) (node : String) : Prop :=
  ∃ e ∈ N.edges, node = e.sourceIp ∨ node = e.destinationIp

section Results
variable {N : Network} {start end_ : String}

theorem mem_nodes_iff (k : ℤ) {node : String} : node ∈ (N.solver k).nodes ↔ Occurs N node := by
  simp [nodes, Network.solver, newKShortestSolverWithLatency, Occurs]

theorem Occurs.name_ok {node : String} (h : Occurs N node) : node ≠ "" ∧ ¬ Contains node "->" := by
  obtain ⟨e, he, hnode⟩ := h
  exact N.names e he node (by simpa using hnode)

theorem solver_k {k : ℤ} (hk : 1 ≤ k) : (N.solver k).k = k.toNat := by
  rw [Network.solver, newKShortestSolverWithLatency, if_neg (by omega)]

/-- A run as it is handed to the caller. -/
def pathInfos (A : List Path) : List PathInfo :=
  (ExchangeSort.sort Path.cost A).map fun path => { hops := path.hops, rtt := path.cost }

theorem mem_pathInfos {A : List Path} {info : PathInfo} :
    info ∈ pathInfos A ↔
      ∃ path ∈ A, path.hops = info.hops ∧ path.cost = info.rtt ∧ info.rawRTT = 0 := by
  simp only [pathInfos, List.mem_map, (ExchangeSort.sort_perm Path.cost A).mem_iff]
  constructor
  · intro hpath
    obtain ⟨path, hmem, rfl⟩ := hpath
    exact ⟨path, hmem, rfl, rfl, rfl⟩
  · intro hpath
    obtain ⟨path, hmem, hhops, hcost, hraw⟩ := hpath
    exact ⟨path, hmem, by rw [hhops, hcost, ← hraw]⟩

theorem length_pathInfos (A : List Path) : (pathInfos A).length = A.length := by
  unfold pathInfos
  rw [List.length_map, (ExchangeSort.sort_perm Path.cost A).length_eq]

theorem hops_pathInfos (A : List Path) :
    ((pathInfos A).map PathInfo.hops).Perm (A.map Path.hops) := by
  have hmap : (pathInfos A).map PathInfo.hops =
      (ExchangeSort.sort Path.cost A).map Path.hops := by
    simp [pathInfos]
  rw [hmap]
  exact (ExchangeSort.sort_perm Path.cost A).map _

theorem sorted_pathInfos (A : List Path) :
    (pathInfos A).Pairwise fun a b => a.rtt ≤ b.rtt := by
  unfold pathInfos
  rw [List.pairwise_map]
  exact ExchangeSort.sort_sorted Path.cost A

theorem pathInfos_returned {A : List Path} (h : ∀ p ∈ A.map Path.hops, p.Nodup) :
    (returned A).map (fun path => { hops := path.hops, rtt := path.cost : PathInfo }) =
      pathInfos A := by
  unfold returned
  rw [pathInfos, List.map_map]
  apply List.map_congr_left
  intro path hmem
  have hmemA := (ExchangeSort.sort_perm Path.cost A).mem_iff.mp hmem
  simp [removeConsecutiveDuplicates_of_nodup (h _ (List.mem_map_of_mem hmemA))]

/-- A run that is full, or that cannot go on, is what Yen's algorithm returns. -/
theorem yensAlgorithm_of_run (hs : start ≠ "") (hname : ¬ Contains start "->") {k : ℤ}
    (hk : 1 ≤ k) {A : List Path} {st : YenState} (h : Run N start end_ A st)
    (hlen : A.length ≤ k.toNat) (hfinal : A.length = k.toNat ∨
      ∃ mid, (N.solver 1).spurRound end_ A st = some mid ∧ mid.B.pop = none) :
    (N.solver k).yensAlgorithm start end_ N.graph = some (.ok (returned A)) := by
  have hloop : (N.solver k).yensLoop end_ ((N.solver k).k - A.length + 1) A st = some A := by
    rcases hfinal with hfull | ⟨mid, hrun, hpop⟩
    · exact yensLoop_full k st _ (by rw [solver_k hk, hfull])
    · exact yensLoop_stop k _ hrun hpop
  rw [h.yensAlgorithm_eq hs hname k (by rw [solver_k hk]; exact hlen), hloop]
  rfl

theorem computing_eq (hstart : Occurs N start) (hend : Occurs N end_) (k : ℤ) :
    (N.solver k).computing start end_ = ((N.solver k).yensAlgorithm start end_ N.graph).map
      fun res => res.map fun paths => paths.map fun path => ⟨path.hops, path.cost, 0⟩ := by
  rw [computing, if_neg (not_not.mpr ((mem_nodes_iff k).mpr hstart)),
    if_neg (not_not.mpr ((mem_nodes_iff k).mpr hend))]
  rfl

theorem computing_of_run (hstart : Occurs N start) (hend : Occurs N end_) {k : ℤ} (hk : 1 ≤ k)
    {A : List Path} {st : YenState} (h : Run N start end_ A st) (hlen : A.length ≤ k.toNat)
    (hfinal : A.length = k.toNat ∨
      ∃ mid, (N.solver 1).spurRound end_ A st = some mid ∧ mid.B.pop = none) :
    (N.solver k).computing start end_ = some (.ok (pathInfos A)) := by
  obtain ⟨hs, hname⟩ := hstart.name_ok
  have hinv : YenInv N start end_ hs A st := h.inv hname
  rw [computing_eq hstart hend, yensAlgorithm_of_run hs hname hk h hlen hfinal,
    ← pathInfos_returned fun p hp => (hinv.route p hp).nodup]
  rfl

/-- A run goes on until it is full or has found every route. -/
theorem exists_final_run (hs : start ≠ "") (hname : ¬ Contains start "->") {A : List Path}
    {st : YenState} (h : Run N start end_ A st) {n : ℕ} (hlen : A.length ≤ n) :
    ∃ A' st', A <+: A' ∧ Run N start end_ A' st' ∧ A'.length ≤ n ∧
      (A'.length = n ∨ ∃ mid, (N.solver 1).spurRound end_ A' st' = some mid ∧ mid.B.pop = none) ∧
      (A'.length = n ∨ ∀ q, N.IsRoute start end_ q → q ∈ A'.map Path.hops) := by
  obtain ⟨d, hd⟩ : ∃ d, n - A.length = d := ⟨_, rfl⟩
  induction d generalizing A st with
  | zero => exact ⟨A, st, List.prefix_rfl, h, hlen, Or.inl (by omega), Or.inl (by omega)⟩
  | succ d ih =>
    have hinv : YenInv N start end_ hs A st := h.inv hname
    rcases hinv.pass hname with ⟨A', st', hr⟩ | ⟨hstop, hall⟩
    · have hsucc := (hinv.round hname hr).2
      obtain ⟨A'', st'', hleads, hrest⟩ := ih (h.next hr) (by omega) (by omega)
      obtain ⟨mid, x, B, -, -, -, rfl, -⟩ := hr
      exact ⟨A'', st'', (List.prefix_append A _).trans hleads, hrest⟩
    · exact ⟨A, st, List.prefix_rfl, h, hlen, Or.inr hstop, Or.inr hall⟩

/-- Yen's algorithm ends with a run, or with the error of the first search. -/
theorem yensAlgorithm_cases (hs : start ≠ "") (hname : ¬ Contains start "->") {k : ℤ}
    (hk : 1 ≤ k) :
    (∃ A st, Run N start end_ A st ∧
      (N.solver k).yensAlgorithm start end_ N.graph = some (.ok (returned A))) ∨
    ∃ err, (N.solver k).yensAlgorithm start end_ N.graph = some (.error err) := by
  rcases @firstSearch_cases N start end_ hs with ⟨path, hrun, -⟩ | ⟨⟨err, hrun⟩, -⟩
  · obtain ⟨A, st, -, hA, hlen, hfinal, -⟩ :=
      exists_final_run hs hname (Run.first hrun) (by simp; omega : _ ≤ k.toNat)
    exact Or.inl ⟨A, st, hA, yensAlgorithm_of_run hs hname hk hA hlen hfinal⟩
  · refine Or.inr ⟨err, ?_⟩
    unfold yensAlgorithm
    rw [findShortestPath_congr (solver_weight N k), hrun]

/-- The solver returns a final run, or an error when the end cannot be reached. -/
theorem computing_cases (hstart : Occurs N start) (hend : Occurs N end_) {k : ℤ} (hk : 1 ≤ k) :
    (∃ A st, Run N start end_ A st ∧ A.length ≤ k.toNat ∧
      (A.length = k.toNat ∨ ∀ q, N.IsRoute start end_ q → q ∈ A.map Path.hops) ∧
      (N.solver k).computing start end_ = some (.ok (pathInfos A))) ∨
    (∃ err, (N.solver k).computing start end_ = some (.error err)) ∧
      ¬ Relation.ReflTransGen N.Link start end_ := by
  obtain ⟨hs, hname⟩ := hstart.name_ok
  rcases @firstSearch_cases N start end_ hs with ⟨path, hrun, -⟩ | ⟨⟨err, hrun⟩, hno⟩
  · obtain ⟨A, st, -, hA, hlen, hfinal, hall⟩ :=
      exists_final_run hs hname (Run.first hrun) (by simp; omega : _ ≤ k.toNat)
    exact Or.inl ⟨A, st, hA, hlen, hall, computing_of_run hstart hend hk hA hlen hfinal⟩
  · refine Or.inr ⟨⟨err, ?_⟩, hno⟩
    rw [computing_eq hstart hend]
    unfold yensAlgorithm
    rw [findShortestPath_congr (solver_weight N k), hrun]
    rfl

theorem occurs_of_ok {k : ℤ} {paths : List PathInfo}
    (h : (N.solver k).computing start end_ = some (.ok paths)) :
    Occurs N start ∧ Occurs N end_ := by
  unfold computing at h
  split at h
  · simp at h
  · rename_i hstart
    split at h
    · simp at h
    · rename_i hend
      exact ⟨(mem_nodes_iff k).mp (not_not.mp hstart), (mem_nodes_iff k).mp (not_not.mp hend)⟩

theorem exists_run_of_ok {k : ℤ} (hk : 1 ≤ k) {paths : List PathInfo}
    (h : (N.solver k).computing start end_ = some (.ok paths)) :
    ∃ A st, Run N start end_ A st ∧ A.length ≤ k.toNat ∧
      (A.length = k.toNat ∨ ∀ q, N.IsRoute start end_ q → q ∈ A.map Path.hops) ∧
      paths = pathInfos A := by
  obtain ⟨hstart, hend⟩ := occurs_of_ok h
  rcases computing_cases hstart hend hk with ⟨A, st, hA, hlen, hall, hrun⟩ | ⟨⟨err, hrun⟩, -⟩
  · rw [h, Option.some.injEq, Except.ok.injEq] at hrun
    exact ⟨A, st, hA, hlen, hall, hrun⟩
  · simp [h] at hrun

theorem reflTransGen_of_run (hs : start ≠ "") (hname : ¬ Contains start "->") {A : List Path}
    {st : YenState} (h : Run N start end_ A st) : Relation.ReflTransGen N.Link start end_ := by
  have hinv : YenInv N start end_ hs A st := h.inv hname
  obtain ⟨p, rest, hp⟩ := List.exists_cons_of_ne_nil hinv.best.found.ne_nil
  exact (hinv.route p (hp ▸ List.mem_cons_self ..)).reflTransGen

theorem length_le_ncard (hs : start ≠ "") (hname : ¬ Contains start "->") {A : List Path}
    {st : YenState} (h : Run N start end_ A st) :
    A.length ≤ {hops | N.IsRoute start end_ hops}.ncard := by
  have hinv : YenInv N start end_ hs A st := h.inv hname
  calc A.length = (A.map Path.hops).toFinset.card := by
        rw [List.toFinset_card_of_nodup hinv.best.found.nodup, List.length_map]
    _ = ((A.map Path.hops).toFinset : Set (List String)).ncard := (Set.ncard_coe_finset _).symm
    _ ≤ _ := Set.ncard_le_ncard
        (fun p hp => hinv.route p (List.mem_toFinset.mp (Finset.mem_coe.mp hp)))
        (N.finite_routes start end_)

theorem ncard_le_length {A : List Path}
    (h : ∀ q, N.IsRoute start end_ q → q ∈ A.map Path.hops) :
    {hops | N.IsRoute start end_ hops}.ncard ≤ A.length := by
  calc _ ≤ ((A.map Path.hops).toFinset : Set (List String)).ncard := Set.ncard_le_ncard
        (fun p hp => Finset.mem_coe.mpr (List.mem_toFinset.mpr (h p hp))) (Finset.finite_toSet _)
    _ = (A.map Path.hops).toFinset.card := Set.ncard_coe_finset _
    _ ≤ (A.map Path.hops).length := List.toFinset_card_le _
    _ = A.length := List.length_map _

theorem length_pos_of_run (hs : start ≠ "") (hname : ¬ Contains start "->") {A : List Path}
    {st : YenState} (h : Run N start end_ A st) : 1 ≤ A.length := by
  have hinv : YenInv N start end_ hs A st := h.inv hname
  have hne := hinv.best.found.ne_nil
  rw [ne_eq, List.map_eq_nil_iff] at hne
  exact List.length_pos_of_ne_nil hne

end Results

/-- Every returned path is a route with its weight, and the list is as promised. -/
theorem computing_sound (N : Network) (start end_ : String) (k : ℤ) (hk : 1 ≤ k)
    (paths : List PathInfo) (h : (N.solver k).computing start end_ = some (.ok paths)) :
    (∀ path ∈ paths, path.hops.head? = some start ∧ path.hops.getLast? = some end_ ∧
      path.hops.Nodup ∧ path.hops.IsChain N.Link ∧ path.rtt = N.routeWeight path.hops) ∧
    (paths.map PathInfo.hops).Nodup ∧ 1 ≤ paths.length ∧ (paths.length : ℤ) ≤ k ∧
    paths.Pairwise fun a b => a.rtt ≤ b.rtt := by
  obtain ⟨A, st, hA, hlen, -, rfl⟩ := exists_run_of_ok hk h
  obtain ⟨hs, hname⟩ := (occurs_of_ok h).1.name_ok
  have hinv : YenInv N start end_ hs A st := hA.inv hname
  refine ⟨?_, ?_, ?_, ?_, sorted_pathInfos A⟩
  · intro info hinfo
    obtain ⟨path, hmem, hhops, hcost, -⟩ := mem_pathInfos.mp hinfo
    have hroute := hinv.route _ (List.mem_map_of_mem hmem)
    rw [← hhops, ← hcost]
    exact ⟨hroute.head, hroute.last, hroute.nodup, hroute.chain, hinv.cost path hmem⟩
  · exact (hops_pathInfos A).nodup_iff.mpr hinv.best.found.nodup
  · rw [length_pathInfos]
    exact length_pos_of_run hs hname hA
  · rw [length_pathInfos]
    omega

/-- A table with a direct edge and a cheaper detour. -/
def detour : Network where
  edges := [⟨"S", "E", 10, 10⟩, ⟨"S", "A", 1, 1⟩, ⟨"A", "E", 1, 1⟩]
  useLatency := false
  nonneg := by decide +kernel
  unique := by decide
  names := by decide

theorem computing_sound_detour :
    (detour.solver 2).computing "S" "E" =
      some (.ok [⟨["S", "A", "E"], 2, 0⟩, ⟨["S", "E"], 10, 0⟩]) ∧
    ([⟨["S", "A", "E"], 2, 0⟩, ⟨["S", "E"], 10, 0⟩] : List PathInfo).Pairwise
      fun a b => a.rtt ≤ b.rtt := by
  have hrun : (detour.solver 2).computing "S" "E" =
      some (.ok [⟨["S", "A", "E"], 2, 0⟩, ⟨["S", "E"], 10, 0⟩]) := by decide +kernel
  exact ⟨hrun, (computing_sound detour "S" "E" 2 (by decide) _ hrun).2.2.2.2⟩

/-- The search always ends. -/
theorem computing_isSome (N : Network) (start end_ : String) {k : ℤ} (hk : 1 ≤ k) :
    ((N.solver k).computing start end_).isSome := by
  by_cases hstart : Occurs N start
  swap
  · rw [computing, if_pos (mt (mem_nodes_iff k).mp hstart)]
    rfl
  by_cases hend : Occurs N end_
  swap
  · rw [computing, if_neg (not_not.mpr ((mem_nodes_iff k).mpr hstart)),
      if_pos (mt (mem_nodes_iff k).mp hend)]
    rfl
  rcases computing_cases hstart hend hk with ⟨A, st, -, -, -, hrun⟩ | ⟨⟨err, hrun⟩, -⟩
  · rw [hrun]
    rfl
  · rw [hrun]
    rfl

/-- The solver fails exactly when the end cannot be reached, otherwise it returns
the requested number of routes or all of them; each pass but the last adds one. -/
theorem computing_exhaustive (N : Network) (start end_ : String) (hstart : Occurs N start)
    (hend : Occurs N end_) (k : ℤ) (hk : 1 ≤ k) :
    ((∃ err, (N.solver k).computing start end_ = some (.error err)) ↔
      ¬ Relation.ReflTransGen N.Link start end_) ∧
    (Relation.ReflTransGen N.Link start end_ →
      ∃ paths, (N.solver k).computing start end_ = some (.ok paths) ∧
        paths.length = min k.toNat {hops | N.IsRoute start end_ hops}.ncard) ∧
    (start = end_ → {hops | N.IsRoute start end_ hops}.ncard = 1) ∧
    ∀ A st, Run N start end_ A st → (∃ q, N.IsRoute start end_ q ∧ q ∉ A.map Path.hops) →
      ∃ path st', Round N end_ A st (A ++ [path]) st' ∧ path.hops ∉ A.map Path.hops := by
  obtain ⟨hs, hname⟩ := hstart.name_ok
  refine ⟨?_, ?_, ?_, ?_⟩
  · rcases computing_cases hstart hend hk with ⟨A, st, hA, -, -, hrun⟩ | ⟨herr, hno⟩
    · rw [hrun]
      simp only [Option.some.injEq, reduceCtorEq, exists_false, false_iff, not_not]
      exact reflTransGen_of_run hs hname hA
    · exact ⟨fun _ => hno, fun _ => herr⟩
  · intro hreach
    rcases computing_cases hstart hend hk with ⟨A, st, hA, hlen, hall, hrun⟩ | ⟨-, hno⟩
    · refine ⟨_, hrun, ?_⟩
      rw [length_pathInfos]
      have hle := length_le_ncard hs hname hA
      rcases hall with hfull | hall
      · omega
      · have hge := ncard_le_length hall
        omega
    · exact absurd hreach hno
  · intro heq
    subst heq
    have hone : {hops | N.IsRoute start start hops} = {[start]} :=
      Set.ext fun hops => isSimplePath_self_iff
    rw [hone, Set.ncard_singleton]
  · intro A st hA hmore
    obtain ⟨q, hq, hmissing⟩ := hmore
    have hinv : YenInv N start end_ hs A st := hA.inv hname
    rcases hinv.pass hname with ⟨A', st', hr⟩ | ⟨-, hall⟩
    · have hnodup := (hinv.round hname hr).1.best.found.nodup
      obtain ⟨mid, x, B, -, -, -, rfl, -⟩ := id hr
      refine ⟨_, st', hr, ?_⟩
      rw [List.map_append, List.nodup_append] at hnodup
      exact fun hmem => hnodup.2.2 _ hmem _ (List.mem_singleton_self _) rfl
    · exact absurd (hall q hq) hmissing

theorem computing_exhaustive_detour : ∃ paths,
    (detour.solver 5).computing "S" "E" = some (.ok paths) ∧
      paths.length = min 5 {hops | detour.IsRoute "S" "E" hops}.ncard := by
  have hS : Occurs detour "S" := ⟨⟨"S", "E", 10, 10⟩, by simp [detour], Or.inl rfl⟩
  have hE : Occurs detour "E" := ⟨⟨"S", "E", 10, 10⟩, by simp [detour], Or.inr rfl⟩
  exact (computing_exhaustive detour "S" "E" hS hE 5 (by decide)).2.1
    (Relation.ReflTransGen.single ⟨⟨"S", "E", 10, 10⟩, by simp [detour], rfl, rfl⟩)

/-- No route left out is cheaper than a returned one, and the first is cheapest. -/
def KCheapest (N : Network) (start end_ : String) (k : ℤ) : Prop :=
  ∀ paths, (N.solver k).computing start end_ = some (.ok paths) →
    (∀ q, N.IsRoute start end_ q → q ∉ paths.map PathInfo.hops →
      ∀ path ∈ paths, path.rtt ≤ N.routeWeight q) ∧
    ∀ path, paths.head? = some path → ∀ q, N.IsRoute start end_ q → path.rtt ≤ N.routeWeight q

/-- A route that is not among these, and costs no more than any other one. -/
structure CheapestMissing (N : Network) (start end_ : String) (found : List (List String))
    (q : List String) : Prop where
  route : N.IsRoute start end_ q
  missing : q ∉ found
  least : ∀ p, N.IsRoute start end_ p → p ∉ found → N.routeWeight q ≤ N.routeWeight p

/-- A cheapest missing route leaves the found ones at this root, and its last edge is the one
to which the search at the root restricts itself. -/
def Prompt (N : Network) (start end_ : String) (found : List (List String)) (root : List String) :
    Prop :=
  ∃ q, CheapestMissing N start end_ found q ∧
    Leaves (N.IsRoute start end_) root (nextHops found root) q ∧
    q.dropLast.getLast? = rootGateway N start end_ root (nextHops found root)

/-- The searches for the first choice and for the one that follows these found routes. -/
def SearchedAt (found : List (List String)) (root : List String) : Prop :=
  root = [] ∧ found = [] ∨ ∃ p ∈ found, RootOf root p

/-- One of the searches before a choice is prompt. -/
def PromptAt (N : Network) (start end_ : String) (found : List (List String)) : Prop :=
  ∃ root, SearchedAt found root ∧ Prompt N start end_ found root

/-- The route is chosen right after these. -/
def Choice (N : Network) (start end_ : String) (found : List (List String)) (q : List String) :
    Prop :=
  ∃ A st, Run N start end_ A st ∧ A.map Path.hops = found ++ [q]

section Cheapest
variable {N : Network} {start end_ : String} {A : List Path} {st : YenState}

/-- The first choice is a cheapest route exactly if the first search is prompt. -/
theorem first_cheapest_iff (hs : start ≠ "") (hmore : ∃ q, N.IsRoute start end_ q) :
    (∀ q, firstRoute N start end_ = some q →
      ∀ p, N.IsRoute start end_ p → N.routeWeight q ≤ N.routeWeight p) ↔
      PromptAt N start end_ [] := by
  have hnil : ∀ {q}, N.IsRoute start end_ q →
      Leaves (N.IsRoute start end_) [] (nextHops [] []) q := by
    intro q hq
    obtain ⟨l, rfl⟩ := hq.eq_cons
    exact ⟨hq, start, by simp [nextHops], l, rfl⟩
  obtain ⟨p, hp⟩ := hmore
  rcases @firstRoute_cases N start end_ hs with ⟨q, hq, hroute, hnear, hlast⟩ | ⟨-, hno⟩
  · constructor
    · intro h
      exact ⟨[], Or.inl ⟨rfl, rfl⟩, q, ⟨hroute, by simp, fun p hp _ => h q hq p hp⟩, hnil hroute,
        hlast⟩
    · rintro ⟨root, hroot | ⟨_, habsurd, -⟩, q', hcheap, -, hlast'⟩ q'' hq'' p hp
      · obtain rfl := hroot.1
        rw [hq, Option.some.injEq] at hq''
        subst hq''
        exact (routeWeight_le_of_last hcheap.route hroute (hnear _ hcheap.route)
          (hlast.trans hlast'.symm)).trans (hcheap.least p hp (by simp))
      · cases habsurd
  · exact absurd hp (hno p)

/-- A cheapest missing route is offered exactly if one of the searches is prompt. -/
theorem fair_iff (hs : start ≠ "") {found : List (List String)}
    (hfound : ∀ p ∈ found, N.IsRoute start end_ p) (hne : found ≠ [])
    (hmore : ∃ q, N.IsRoute start end_ q ∧ q ∉ found) :
    (scheme N start end_ hs).Fair N.routeWeight found ↔ PromptAt N start end_ found := by
  constructor
  · intro hfair
    obtain ⟨r, ⟨p, hp, root, hroot, hspur⟩, hleast⟩ := hfair hmore
    rcases spurRoute_cases (hfound p hp) hroot (nextHops found root) with
      ⟨q, hq, hleaves, -, hlast⟩ | ⟨hnone, -⟩
    · obtain rfl : q = r := Option.some.inj (hq.symm.trans hspur)
      exact ⟨root, Or.inr ⟨p, hp, hroot⟩, q, ⟨hleaves.1,
        Scheme.open_notMem (S := scheme N start end_ hs) hleaves, hleast⟩, hleaves, hlast⟩
    · exact absurd (hnone.symm.trans hspur) (by simp)
  · rintro ⟨root, ⟨-, hnil⟩ | ⟨p, hp, hroot⟩, q, hcheap, hleaves, hlast⟩ -
    · exact absurd hnil hne
    · rcases spurRoute_cases (hfound p hp) hroot (nextHops found root) with
        ⟨r, hr, hopen, hnear, hlast'⟩ | ⟨-, hno⟩
      · refine ⟨r, ⟨p, hp, root, hroot, hr⟩, fun m hm hnot => ?_⟩
        exact (routeWeight_le_of_last hcheap.route hopen.1 (hnear q hleaves)
          (hlast'.trans hlast.symm)).trans (hcheap.least m hm hnot)
      · exact absurd hleaves (hno q)

/-- A choice is a cheapest one exactly if one of the searches before it is prompt. -/
theorem choice_cheapest_iff (hs : start ≠ "") (hname : ¬ Contains start "->")
    {found : List (List String)} {q : List String} (h : Choice N start end_ found q) :
    CheapestMissing N start end_ found q ↔ PromptAt N start end_ found := by
  obtain ⟨A, st, hA, hhops⟩ := h
  have hinv : YenInv N start end_ hs A st := hA.inv hname
  have hbest := hhops ▸ hinv.best
  have hmember := hbest.found.member
  have hroute : N.IsRoute start end_ q := hmember q (by simp)
  have hmissing : q ∉ found := by
    have hnodup := hbest.found.nodup
    rw [List.nodup_append] at hnodup
    exact fun hmem => hnodup.2.2 q hmem q (List.mem_singleton_self q) rfl
  have hleast : CheapestMissing N start end_ found q ↔
      ∀ p, N.IsRoute start end_ p → p ∉ found → N.routeWeight q ≤ N.routeWeight p :=
    ⟨fun h => h.least, fun h => ⟨hroute, hmissing, h⟩⟩
  rw [hleast]
  by_cases hne : found = []
  · subst hne
    rw [← first_cheapest_iff hs ⟨q, hroute⟩]
    have hfirst : firstRoute N start end_ = some q := hbest.first_of_singleton
    simp [hfirst]
  · rw [← fair_iff hs (fun p hp => hmember p (List.mem_append_left _ hp)) hne
      ⟨q, hroute, hmissing⟩]
    exact hbest.last_cheapest_iff hne

/-- Every route of a run was chosen at some point of it. -/
theorem exists_choice_of_mem (h : Run N start end_ A st) {q : List String}
    (hq : q ∈ A.map Path.hops) :
    ∃ found, Choice N start end_ found q ∧ found.length < A.length := by
  induction h with
  | @first path hrun =>
    refine ⟨[], ⟨_, _, Run.first hrun, ?_⟩, Nat.zero_lt_one⟩
    rw [List.map_singleton, List.mem_singleton] at hq
    rw [List.map_singleton, hq, List.nil_append]
  | @next A A' st st' hA hr ih =>
    have hnext := hA.next hr
    obtain ⟨mid, x, B, -, -, -, rfl, -⟩ := hr
    rw [List.map_append, List.mem_append] at hq
    rw [List.length_append, List.length_singleton]
    rcases hq with hq | hq
    · obtain ⟨found, hchoice, hlt⟩ := ih hq
      exact ⟨found, hchoice, by omega⟩
    · refine ⟨A.map Path.hops, ⟨_, _, hnext, ?_⟩, by rw [List.length_map]; omega⟩
      rw [List.map_singleton, List.mem_singleton] at hq
      rw [List.map_append, List.map_singleton, hq]

/-- A run goes on to the answer. -/
theorem exists_answer (hstart : Occurs N start) (hend : Occurs N end_) {k : ℤ} (hk : 1 ≤ k)
    (h : Run N start end_ A st) (hlen : A.length ≤ k.toNat) :
    ∃ A', A <+: A' ∧ (N.solver k).computing start end_ = some (.ok (pathInfos A')) := by
  obtain ⟨hs, hname⟩ := hstart.name_ok
  obtain ⟨A', st', hleads, hA', hlen', hfinal, -⟩ := exists_final_run hs hname h hlen
  exact ⟨A', hleads, computing_of_run hstart hend hk hA' hlen' hfinal⟩

/-- The answer holds the first `k` choices. -/
theorem mem_answer_iff {k : ℤ} (hk : 1 ≤ k) {paths : List PathInfo}
    (h : (N.solver k).computing start end_ = some (.ok paths)) {q : List String} :
    q ∈ paths.map PathInfo.hops ↔
      ∃ found, Choice N start end_ found q ∧ (found.length : ℤ) < k := by
  obtain ⟨hstart, hend⟩ := occurs_of_ok h
  constructor
  · intro hq
    obtain ⟨A, st, hA, hlen, -, rfl⟩ := exists_run_of_ok hk h
    obtain ⟨found, hchoice, hlt⟩ := exists_choice_of_mem hA ((hops_pathInfos A).mem_iff.mp hq)
    exact ⟨found, hchoice, by omega⟩
  · rintro ⟨found, ⟨A, st, hA, hhops⟩, hlt⟩
    have hlen : A.length = found.length + 1 := by
      rw [← List.length_map Path.hops, hhops, List.length_append, List.length_singleton]
    obtain ⟨A', hleads, hrun⟩ := exists_answer hstart hend hk hA (by omega)
    rw [h, Option.some.injEq, Except.ok.injEq] at hrun
    rw [hrun, (hops_pathInfos A').mem_iff]
    refine (hleads.map Path.hops).subset ?_
    rw [hhops]
    exact List.mem_append_right _ (List.mem_singleton_self q)

/-- The first of the returned routes is cheapest if no route left out costs less. -/
theorem kCheapest_of_missing {k : ℤ} (hk : 1 ≤ k)
    (h : ∀ paths, (N.solver k).computing start end_ = some (.ok paths) →
      ∀ q, N.IsRoute start end_ q → q ∉ paths.map PathInfo.hops →
        ∀ path ∈ paths, path.rtt ≤ N.routeWeight q) : KCheapest N start end_ k := by
  intro paths hrun
  refine ⟨h paths hrun, fun first hfirst q hq => ?_⟩
  obtain ⟨hsound, -, -, -, hsorted⟩ := computing_sound N start end_ k hk paths hrun
  obtain ⟨rest, rfl⟩ := List.head?_eq_some_iff.mp hfirst
  by_cases hin : q ∈ (first :: rest).map PathInfo.hops
  · obtain ⟨info, hinfo, rfl⟩ := List.mem_map.mp hin
    rw [← (hsound info hinfo).2.2.2.2]
    rcases List.mem_cons.mp hinfo with rfl | hrest
    · exact le_rfl
    · exact List.rel_of_pairwise_cons hsorted hrest
  · exact h _ hrun q hq hin first List.mem_cons_self

theorem routeWeight_le_of_kCheapest {k : ℤ} (hk : 1 ≤ k) (h : KCheapest N start end_ k)
    {paths : List PathInfo} (hrun : (N.solver k).computing start end_ = some (.ok paths))
    {p q : List String} (hq : q ∈ paths.map PathInfo.hops) (hp : N.IsRoute start end_ p)
    (hmissing : p ∉ paths.map PathInfo.hops) : N.routeWeight q ≤ N.routeWeight p := by
  obtain ⟨info, hinfo, rfl⟩ := List.mem_map.mp hq
  rw [← ((computing_sound N start end_ k hk paths hrun).1 info hinfo).2.2.2.2]
  exact (h paths hrun).1 p hp hmissing info hinfo

theorem length_of_choice {found : List (List String)} {q : List String}
    (h : A.map Path.hops = found ++ [q]) : A.length = found.length + 1 := by
  rw [← List.length_map Path.hops, h, List.length_append, List.length_singleton]

/-- A choice that is not prompt does no harm if every cheaper route is chosen as well. -/
theorem kCheapest_of_choices (hstart : Occurs N start) {k : ℤ} (hk : 1 ≤ k)
    (h : ∀ found q, Choice N start end_ found q → (found.length : ℤ) < k →
      PromptAt N start end_ found ∨
        ∀ p, N.IsRoute start end_ p → N.routeWeight p < N.routeWeight q →
          ∃ before, Choice N start end_ before p ∧ (before.length : ℤ) < k) :
    KCheapest N start end_ k := by
  obtain ⟨hs, hname⟩ := hstart.name_ok
  refine kCheapest_of_missing hk fun paths hrun p hp hmissing path hpath => ?_
  obtain ⟨found, hchoice, hlt⟩ := (mem_answer_iff hk hrun).mp (List.mem_map_of_mem hpath)
  rw [((computing_sound N start end_ k hk paths hrun).1 path hpath).2.2.2.2]
  rcases h found _ hchoice hlt with hprompt | hlater
  · refine ((choice_cheapest_iff hs hname hchoice).mpr hprompt).least p hp fun hmem => ?_
    -- What was found before this choice is part of the answer.
    obtain ⟨A, st, hA, hhops⟩ := hchoice
    have hlen := length_of_choice hhops
    obtain ⟨before, hbefore, hless⟩ :=
      exists_choice_of_mem hA (hhops ▸ List.mem_append_left _ hmem)
    exact hmissing ((mem_answer_iff hk hrun).mpr ⟨before, hbefore, by omega⟩)
  · by_contra hless
    exact hmissing ((mem_answer_iff hk hrun).mpr (hlater p hp (not_le.mp hless)))

/-- A run is the answer for its own length, so that its last choice is a cheapest one. -/
theorem cheapestMissing_of_kCheapest (hstart : Occurs N start) (hend : Occurs N end_)
    {found : List (List String)} {q : List String} (hchoice : Choice N start end_ found q)
    (h : KCheapest N start end_ (found.length + 1)) : CheapestMissing N start end_ found q := by
  obtain ⟨hs, hname⟩ := hstart.name_ok
  obtain ⟨A, st, hA, hhops⟩ := hchoice
  have hlen := length_of_choice hhops
  have hinv : YenInv N start end_ hs A st := hA.inv hname
  have hrun := computing_of_run hstart hend (by omega : (1 : ℤ) ≤ found.length + 1) hA (by omega)
    (Or.inl (by omega))
  have hmem : ∀ p, p ∈ (pathInfos A).map PathInfo.hops ↔ p ∈ found ∨ p = q := by
    intro p
    rw [(hops_pathInfos A).mem_iff, hhops, List.mem_append, List.mem_singleton]
  have hnodup := hhops ▸ hinv.best.found.nodup
  rw [List.nodup_append] at hnodup
  refine ⟨hinv.route q (hhops ▸ by simp), fun hin => ?_, fun p hp hmissing => ?_⟩
  · exact hnodup.2.2 q hin q (List.mem_singleton_self q) rfl
  · by_cases heq : p = q
    · rw [heq]
    · exact routeWeight_le_of_kCheapest (by omega) h hrun ((hmem q).mpr (Or.inr rfl)) hp
        (by simp [hmem, hmissing, heq])

end Cheapest

/-- A table in which the second search would take the wrong neighbour of the end. -/
def fork : Network where
  edges := [⟨"S", "E", 1, 1⟩, ⟨"S", "B", 5, 5⟩, ⟨"B", "E", 10, 10⟩, ⟨"S", "C", 6, 6⟩,
    ⟨"C", "E", 1, 1⟩]
  useLatency := false
  nonneg := by decide +kernel
  unique := by decide
  names := by decide

end Arcturus.KShortestRoutes
