import Arcturus.SpurSearch

/-!
One step of the loop over the spur positions. On the complete adjacency map it
makes the spur search of the enumeration, puts the edges of the spur node back
and queues the route it found, joined into one name, unless it is queued.
-/

namespace Arcturus.SpurStep

open IndexedHeap GoMaps GoStrings KShortest KShortestSolver SimplePaths SearchInvariant
open ShortestSearch RouteGraph SpurSearch Deviation

theorem removeConsecutiveDuplicates_of_nodup {hops : List String} (h : hops.Nodup) :
    removeConsecutiveDuplicates hops = hops := by
  induction hops with
  | nil => rfl
  | cons a rest ih =>
    cases rest with
    | nil => rfl
    | cons b rest =>
      rw [List.nodup_cons] at h
      have hne : b ≠ a := by
        intro heq
        subst heq
        exact h.1 (List.mem_cons_self ..)
      unfold removeConsecutiveDuplicates
      rw [if_pos hne, ih h.2]

theorem hasDuplicateNodes_of_nodup {hops : List String} (h : hops.Nodup) :
    hasDuplicateNodes hops = false := by
  induction hops with
  | nil => rfl
  | cons a rest ih =>
    rw [List.nodup_cons] at h
    simp [hasDuplicateNodes, h.1, ih h.2]

theorem relax_congr {ks ks' : KShortestSolver} (h : ks.weight = ks'.weight) :
    ks.relax = ks'.relax := by
  funext fN fE u c s e
  simp only [relax, h]

/-- A search depends on the solver through the weights only. -/
theorem findShortestPath_congr {ks ks' : KShortestSolver} (h : ks.weight = ks'.weight) :
    ks.findShortestPath = ks'.findShortestPath := by
  funext start end_ graph fN fE
  rw [findShortestPath, findShortestPath]
  generalize edgeCount graph + 2 = fuel
  generalize initialState start graph = s
  induction fuel generalizing s with
  | zero => rfl
  | succ fuel ih => simp only [searchLoop, ih, relax_congr h]

theorem solver_weight (N : Network) (k : ℤ) : (N.solver k).weight = (N.solver 1).weight := by
  funext e
  rw [Network.weight_eq, Network.weight_eq]

/-- A long enough path shares its prefix with the root when the root is its prefix. -/
theorem sharesRoot_iff {hops root : List String} {j : ℕ} (hj : root.length = j + 1) :
    (hops.length > j ∧ pathsSharePrefix hops root) ↔ root <+: hops := by
  constructor
  · intro hsame
    obtain ⟨hlen, hshare⟩ := hsame
    unfold pathsSharePrefix at hshare
    rw [if_neg (by omega)] at hshare
    exact List.isPrefixOf_iff_prefix.mp hshare
  · intro hpre
    have hlen := hpre.length_le
    refine ⟨by omega, ?_⟩
    unfold pathsSharePrefix
    rw [if_neg (by omega)]
    exact List.isPrefixOf_iff_prefix.mpr hpre

theorem removeFoundEdges_one {path : Path} {root : List String} {j : ℕ}
    (hj : root.length = j + 1) (g : Graph) (s : String) (es : List Edge) :
    removeFoundEdges [path] root s j (g.set s es) =
      g.set s (es.filter fun e => e.destinationIp ∉ nextHops [path.hops] root) := by
  unfold removeFoundEdges
  rw [List.foldl_cons, List.foldl_nil]
  by_cases hpre : root <+: path.hops
  · rw [if_pos ((sharesRoot_iff hj).mpr hpre)]
    cases hget : path.hops[j + 1]? with
    | none => simp [nextHops, hpre, hj, hget]
    | some target => simp [nextHops, hpre, hj, hget, GoMap.set_val_same, GoMap.set_set]
  · rw [if_neg fun h => hpre ((sharesRoot_iff hj).mp h)]
    simp [nextHops, hpre]

/-- The loop over the found paths removes exactly the hops that follow the root. -/
theorem removeFoundEdges_eq (A : List Path) {root : List String} {j : ℕ}
    (hj : root.length = j + 1) (g : Graph) (s : String) (es : List Edge) :
    removeFoundEdges A root s j (g.set s es) =
      g.set s (es.filter fun e => e.destinationIp ∉ nextHops (A.map Path.hops) root) := by
  induction A generalizing es with
  | nil => simp [removeFoundEdges, nextHops]
  | cons p A ih =>
    have hcons : nextHops ((p :: A).map Path.hops) root =
        nextHops [p.hops] root ∪ nextHops (A.map Path.hops) root := by
      ext x
      simp [mem_nextHops]
    have hone : removeFoundEdges (p :: A) root s j (g.set s es) =
        removeFoundEdges A root s j (removeFoundEdges [p] root s j (g.set s es)) := by
      simp [removeFoundEdges]
    rw [hone, removeFoundEdges_one hj, ih, List.filter_filter, hcons]
    simp [not_or, Bool.and_comm]

theorem hopWeight_eq_find (N : Network) (k : ℤ) (a b : String) :
    ((N.graph.val a).find? fun e => e.destinationIp == b).elim 0 (N.solver k).weight =
      N.hopWeight a b := by
  have hw : (N.solver k).weight = edgeCost N.useLatency := funext fun e => N.weight_eq k e
  rw [Network.graph_val, List.find?_filter, Network.hopWeight, hw]
  simp only [Bool.decide_and, Bool.decide_eq_true]

theorem hopLatency_eq_find (N : Network) (a b : String) :
    ((N.graph.val a).find? fun e => e.destinationIp == b).elim 0 Edge.latency =
      N.hopLatency a b := by
  rw [Network.graph_val, List.find?_filter, Network.hopLatency]
  simp only [Bool.decide_and, Bool.decide_eq_true]

/-- The root cost is read from nodes whose edges were not touched. -/
theorem calculatePathCost_eq {N : Network} (k : ℤ) {g : Graph} {r : List String} (s : String)
    (hg : ∀ u ∈ r, g.val u = N.graph.val u) :
    (N.solver k).calculatePathCost g (r ++ [s]) = N.routeWeight (r ++ [s]) := by
  induction r with
  | nil => rfl
  | cons a r ih =>
    have ih' := ih fun u hu => hg u (List.mem_cons_of_mem _ hu)
    obtain ⟨b, rest, hb⟩ : ∃ b rest, r ++ [s] = b :: rest :=
      List.exists_cons_of_ne_nil (by simp)
    rw [hb] at ih'
    rw [List.cons_append, hb, calculatePathCost, Network.routeWeight, pathSum, ih',
      hg a (List.mem_cons_self ..), hopWeight_eq_find]
    rfl

theorem calculatePathRTT_eq {N : Network} {g : Graph} {r : List String} (s : String)
    (hg : ∀ u ∈ r, g.val u = N.graph.val u) :
    calculatePathRTT g (r ++ [s]) = N.routeLatency (r ++ [s]) := by
  induction r with
  | nil => rfl
  | cons a r ih =>
    have ih' := ih fun u hu => hg u (List.mem_cons_of_mem _ hu)
    obtain ⟨b, rest, hb⟩ : ∃ b rest, r ++ [s] = b :: rest :=
      List.exists_cons_of_ne_nil (by simp)
    rw [hb] at ih'
    rw [List.cons_append, hb, calculatePathRTT, Network.routeLatency, pathSum, ih',
      hg a (List.mem_cons_self ..), hopLatency_eq_find]
    rfl

section Step
variable {N : Network} {start end_ : String}

/-- The name under which a route is queued. -/
def routeName (hops : List String) : String := join hops "->"

theorem name_ok_of_route (hs : ¬ Contains start "->") {q : List String}
    (hq : N.IsRoute start end_ q) : ∀ name ∈ q, ¬ Contains name "->" := by
  obtain ⟨l, rfl⟩ := hq.eq_cons
  intro name hname
  rcases List.mem_cons.mp hname with rfl | hmem
  · exact hs
  · exact hq.chain.cons_induction (fun v => ¬ Contains v "->") l
      (fun _ _ hlink _ => (N.name_ok_of_link hlink).2.2) hs name hmem

theorem arrow_borderFree : BorderFree "->".toList := by
  have hlist : "->".toList = ['-', '>'] := by decide
  rw [hlist]
  exact borderFree_pair (by decide)

theorem routeName_injective (hs : ¬ Contains start "->") {p q : List String}
    (hp : N.IsRoute start end_ p) (hq : N.IsRoute start end_ q)
    (h : routeName p = routeName q) : p = q :=
  join_injective arrow_borderFree hp.ne_nil hq.ne_nil
    (name_ok_of_route hs hp) (name_ok_of_route hs hq) h

theorem split_routeName (hs : ¬ Contains start "->") {q : List String}
    (hq : N.IsRoute start end_ q) : split (routeName q) "->" = q :=
  split_join arrow_borderFree q hq.ne_nil (name_ok_of_route hs hq)

theorem isPathInList_iff (hs : ¬ Contains start "->") {A : List Path}
    (hA : ∀ p ∈ A.map Path.hops, N.IsRoute start end_ p) {q : List String}
    (hq : N.IsRoute start end_ q) : isPathInList q A = true ↔ q ∈ A.map Path.hops := by
  unfold isPathInList
  rw [List.any_eq_true, List.mem_map]
  constructor
  · intro hlisted
    obtain ⟨p, hp, heq⟩ := hlisted
    exact ⟨p, hp, routeName_injective hs (hA _ (List.mem_map_of_mem hp)) hq (beq_iff_eq.mp heq)⟩
  · intro hlisted
    obtain ⟨p, hp, rfl⟩ := hlisted
    exact ⟨p, hp, beq_self_eq_true _⟩

/-- Some queue entry carries the route. -/
def Queued (B : PriorityQueue) (q : List String) : Prop :=
  ∃ x ∈ B.toList, x.node = routeName q

theorem isPathInQueue_iff {B : PriorityQueue} {q : List String} :
    isPathInQueue q B = true ↔ Queued B q := by
  simp [isPathInQueue, Queued, routeName]

/-- The queue after the route `q` was offered: unchanged, or with one entry more. -/
def Offered (N : Network) (B : PriorityQueue) (q : List String) (B' : PriorityQueue) : Prop :=
  (Queued B q ∧ B' = B) ∨
    ¬ Queued B q ∧ ∃ rtt, B' = B.push ⟨routeName q, N.routeWeight q, rtt⟩

/-- The edges removed by a spur step are those the spur search does without. -/
theorem edited_eq (A : List Path) (r : List String) (s : String) :
    removeFoundEdges A (r ++ [s]) s r.length (N.graph.set s
      ((N.graph.val s).filter fun e => !isInPath e.destinationIp (r ++ [s]))) =
      spurGraph N r s (nextHops (A.map Path.hops) (r ++ [s])) := by
  rw [removeFoundEdges_eq A (by simp), List.filter_filter, spurGraph]
  congr 1
  apply List.filter_congr
  intro e _
  simp [isInPath, Bool.and_comm, Bool.and_assoc]

/-- The spur path starts at the spur node, which is not in the rest of the root. -/
theorem exists_cons_of_spurResult {r : List String} {s : String} {X : Finset String} {path : Path}
    (h : SpurResult N start end_ r s X path) : (∃ l, path.hops = s :: l) ∧ s ∉ r := by
  have hnodup := h.leaves.1.nodup
  obtain ⟨l, hl⟩ : ∃ l, path.hops = s :: l := by
    have hhead := h.head
    cases hp : path.hops with
    | nil => simp [hp] at hhead
    | cons a l =>
      rw [hp, List.head?_cons, Option.some.injEq] at hhead
      exact ⟨l, by rw [hhead]⟩
  refine ⟨⟨l, hl⟩, ?_⟩
  rw [hl, List.nodup_append] at hnodup
  exact fun hr => hnodup.2.2 s hr s (List.mem_cons_self ..) rfl

theorem spurGraph_val_of_mem {r : List String} {s : String} {X : Finset String} (hs : s ∉ r) :
    ∀ u ∈ r, (spurGraph N r s X).val u = N.graph.val u := by
  intro u hu
  unfold spurGraph
  rw [GoMap.set_val_of_ne]
  exact ne_of_mem_of_not_mem hu hs

/-- A spur search gives a complete path with the weight of the route. -/
theorem completePath_eq (k : ℤ) {r : List String} {s : String} {X : Finset String} {path : Path}
    (h : SpurResult N start end_ r s X path) :
    (N.solver k).completePath (r ++ [s]) path (spurGraph N r s X) =
      ⟨r ++ path.hops, N.routeWeight (r ++ path.hops),
        N.routeLatency (r ++ [s]) + path.rawRTT⟩ := by
  obtain ⟨⟨l, hl⟩, hs⟩ := exists_cons_of_spurResult h
  have hkeep := @spurGraph_val_of_mem N r s X hs
  rw [completePath, List.dropLast_concat,
    removeConsecutiveDuplicates_of_nodup h.leaves.1.nodup, calculatePathCost_eq k s hkeep,
    calculatePathRTT_eq s hkeep, h.cost, hl, ← routeWeight_splice]

theorem pushCandidate_offered (hname : ¬ Contains start "->") {A : List Path}
    (hA : ∀ p ∈ A.map Path.hops, N.IsRoute start end_ p) {q : List String}
    (hq : N.IsRoute start end_ q) (hnew : q ∉ A.map Path.hops) (rtt : WithTop ℚ)
    (B : PriorityQueue) : Offered N B q (pushCandidate A ⟨q, N.routeWeight q, rtt⟩ B) := by
  have hlist : isPathInList q A = false := by
    rw [Bool.eq_false_iff]
    exact fun h => hnew ((isPathInList_iff hname hA hq).mp h)
  unfold pushCandidate
  rw [hasDuplicateNodes_of_nodup hq.nodup, hlist]
  by_cases hin : Queued B q
  · exact Or.inl ⟨hin, by simp [isPathInQueue_iff.mpr hin]⟩
  · have hqueue : isPathInQueue q B = false := by
      rw [Bool.eq_false_iff]
      exact fun h => hin (isPathInQueue_iff.mp h)
    exact Or.inr ⟨hin, rtt, by simp [hqueue, routeName]⟩

theorem rootOf_snoc {r rest : List String} {s : String} (hrest : rest ≠ []) :
    RootOf (r ++ [s]) (r ++ s :: rest) := by
  refine ⟨⟨rest, by simp⟩, ?_, by simp⟩
  intro heq
  rw [List.append_right_inj] at heq
  exact hrest (List.cons.inj heq).2.symm

/-- One step of the spur loop on the complete graph makes one search and offers its route. -/
theorem spurStep_eq (k : ℤ) {A : List Path}
    (hA : ∀ p ∈ A.map Path.hops, N.IsRoute start end_ p) {r rest : List String} {s : String}
    (hp : r ++ s :: rest ∈ A.map Path.hops) (hrest : rest ≠ []) (B : PriorityQueue) :
    (∃ path, spurSearch N end_ r s (nextHops (A.map Path.hops) (r ++ [s])) = some (.ok path) ∧
      SpurResult N start end_ r s (nextHops (A.map Path.hops) (r ++ [s])) path ∧
      (N.solver k).spurStep end_ A (r ++ s :: rest) ⟨N.graph, B⟩ r.length =
        some ⟨N.graph, pushCandidate A ⟨r ++ path.hops, N.routeWeight (r ++ path.hops),
          N.routeLatency (r ++ [s]) + path.rawRTT⟩ B⟩) ∨
    (∃ err, spurSearch N end_ r s (nextHops (A.map Path.hops) (r ++ [s])) = some (.error err)) ∧
      (N.solver k).spurStep end_ A (r ++ s :: rest) ⟨N.graph, B⟩ r.length =
        some ⟨N.graph, B⟩ := by
  have hroute := hA _ hp
  have hroot : RootOf (r ++ [s]) (r ++ s :: rest) := rootOf_snoc hrest
  obtain ⟨y, e, he, hsrc, -⟩ := exists_link_of_rootOf hroute hroot
  have hkey : s ∈ N.graph.keys := Network.mem_keys_of_mem (Network.mem_graph_val.mpr ⟨he, hsrc⟩)
  have hend := hroute.end_notMem_of_prefix hroot.1 hroot.2.1
  have hse : s ≠ end_ := by
    intro heq
    subst heq
    exact hend (by simp)
  have htake : (r ++ s :: rest).take (r.length + 1) = r ++ [s] := by simp [List.take_append]
  have hget : (r ++ s :: rest)[r.length]? = some s := by simp
  have hin : isInPath end_ (r ++ [s]) = false := by simpa [isInPath] using hend
  have hrestore : (spurGraph N r s (nextHops (A.map Path.hops) (r ++ [s]))).set s
      (N.graph.val s) = N.graph := by
    unfold spurGraph
    rw [GoMap.set_set, GoMap.set_eq_self _ hkey]
  have hsearch : (N.solver k).findShortestPath s end_
      (spurGraph N r s (nextHops (A.map Path.hops) (r ++ [s]))) (some r) none =
        spurSearch N end_ r s (nextHops (A.map Path.hops) (r ++ [s])) := by
    unfold spurSearch
    rw [findShortestPath_congr (solver_weight N k)]
  simp only [spurStep, htake, hget, hkey, not_true_eq_false, if_false, edited_eq, hse, hin,
    Bool.false_eq_true, hrestore, List.dropLast_concat, hsearch]
  rcases spurSearch_cases hroute hroot (nextHops (A.map Path.hops) (r ++ [s])) with
    ⟨path, hrun, hres⟩ | ⟨⟨err, hrun⟩, -⟩
  · refine Or.inl ⟨path, hrun, hres, ?_⟩
    rw [hrun]
    simp only [hasDuplicateNodes_of_nodup hres.nodup, completePath_eq k hres, Bool.false_eq_true,
      if_false]
  · refine Or.inr ⟨⟨err, hrun⟩, ?_⟩
    rw [hrun]

/-- What one step of the spur loop does on the complete graph. -/
theorem spurStep_snoc (hname : ¬ Contains start "->") (k : ℤ) {A : List Path}
    (hA : ∀ p ∈ A.map Path.hops, N.IsRoute start end_ p) {r rest : List String} {s : String}
    (hp : r ++ s :: rest ∈ A.map Path.hops) (hrest : rest ≠ []) (B : PriorityQueue) :
    ∃ B', (N.solver k).spurStep end_ A (r ++ s :: rest) ⟨N.graph, B⟩ r.length =
        some ⟨N.graph, B'⟩ ∧
      ((spurRoute N end_ (r ++ [s]) (nextHops (A.map Path.hops) (r ++ [s])) = none ∧ B' = B) ∨
        ∃ q, spurRoute N end_ (r ++ [s]) (nextHops (A.map Path.hops) (r ++ [s])) = some q ∧
          Offered N B q B') := by
  rw [spurRoute_snoc]
  rcases spurStep_eq k hA hp hrest B with ⟨path, hrun, hres, hstep⟩ | ⟨⟨err, hrun⟩, hstep⟩
  · refine ⟨_, hstep, Or.inr ⟨r ++ path.hops, by rw [hrun]; rfl, ?_⟩⟩
    refine pushCandidate_offered hname hA hres.leaves.1 ?_ _ B
    obtain ⟨-, x, hx, hpre⟩ := hres.leaves
    exact fun hmem => hx (mem_nextHops.mpr ⟨_, hmem, hpre⟩)
  · exact ⟨B, hstep, Or.inl ⟨by rw [hrun]; rfl, rfl⟩⟩

end Step

end Arcturus.SpurStep
