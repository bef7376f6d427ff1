import Arcturus.CarouselSearch

/-!
The depth-first search of the carousel-greedy solver misses nothing: the branches it cuts off
cost at least as much as the best path so far, or more than the bound. A path that was used
before does not tighten the bound.
-/

namespace Arcturus.Carousel

open GoMaps RandomChoices SimplePaths EdgeLists

/-- The graph has pairs of the solver's edges only, and no latency is negative. -/
structure ResidualState (d : FlowOptimizationSolver) (g : ResidualGraph) : Prop where
  arcs : ∀ e ∈ g.keys, Arc d.edges e.1 e.2
  latencies : ∀ e ∈ g.keys, 0 ≤ d.getEdgeLatency e.1 e.2

section Steps
variable {d : FlowOptimizationSolver} {g : ResidualGraph} {u v : String} {c : ℚ}

theorem ResidualState.cost_nonneg (h : ResidualState d g) (hstep : ResidualStep d g u v c) :
    0 ≤ c := by
  cases hstep with
  | forward hkey => exact add_nonneg (h.latencies (u, v) hkey) (penalty_nonneg _)
  | backward => exact add_nonneg le_rfl (penalty_nonneg _)

/-- The enumeration of the steps from a node leaves out none. -/
theorem ResidualState.exists_mem_getSortedEdges (h : ResidualState d g)
    (hstep : ResidualStep d g u v c) (r : Draws) :
    ∃ ei ∈ (d.getSortedEdges g u r).1, ei.to_ = v ∧ ei.cost = c := by
  refine ⟨⟨v, c⟩, ?_, rfl, rfl⟩
  simp only [FlowOptimizationSolver.getSortedEdges]
  rw [(ExchangeSort.sort_perm _ _).mem_iff, List.mem_append]
  cases hstep with
  | forward hkey hres =>
    refine Or.inl (List.mem_filterMap.mpr ⟨v, ?_, if_pos hres⟩)
    rw [mem_shuffle]
    exact List.mem_map.mpr ⟨(u, v), List.mem_filter.mpr ⟨hkey, decide_eq_true rfl⟩, rfl⟩
  | backward hne hkey hflow =>
    refine Or.inr (List.mem_filterMap.mpr ⟨v, ?_, ?_⟩)
    · obtain ⟨e, he, hsource, -⟩ := h.arcs (v, u) hkey
      rw [mem_shuffle]
      unfold FlowOptimizationSolver.nodes
      rw [List.mem_dedup, List.mem_flatMap]
      exact ⟨e, he, by simp [show e.sourceIp = v from hsource]⟩
    · rw [if_pos ⟨hne, hkey⟩]
      exact if_pos hflow

/-- A walk that goes on along a path with other nodes. -/
theorem Walk.costPath {s t : String} {path p : List String} {cost k : ℚ}
    (h : Walk d g s path u cost) (hp : CostPath (ResidualStep d g) t u p k)
    (hdisjoint : ∀ x ∈ p, x ∉ path) :
    CostPath (ResidualStep d g) t s (path ++ p) (cost + k) := by
  induction h generalizing p k with
  | start =>
    rw [List.nil_append, zero_add]
    exact hp
  | @step path u v cost stepCost hwalk hfresh hstep ih =>
    have hu : u ∉ p := fun hmem => hdisjoint u hmem (List.mem_append_right _ List.mem_cons_self)
    rw [List.append_assoc, List.singleton_append, add_assoc]
    refine ih (.cons hstep hp hu) ?_
    intro x hx
    rcases List.mem_cons.mp hx with rfl | hx
    · have hnodup := hwalk.isSimplePath.nodup
      exact List.disjoint_right.mp (List.disjoint_of_nodup_append hnodup) List.mem_cons_self
    · exact fun hmem => hdisjoint x hx (List.mem_append_left _ hmem)

end Steps

section Search
variable {d : FlowOptimizationSolver} {g : ResidualGraph} {t : String} {thetaL : ℚ}
  {usedPaths : GoMap String Bool} {optimize randomize : Bool}

/-- A path on which a search from `u` after `path` may still reach the target. -/
structure Completes (d : FlowOptimizationSolver) (g : ResidualGraph) (t : String) (thetaL : ℚ)
    (room : ℕ) (path : List String) (u : String) (latency : ℚ) (p : List String) (k : ℚ) :
    Prop where
  costPath : CostPath (ResidualStep d g) t u p k
  disjoint : ∀ x ∈ p, x ∉ path
  length : p.length ≤ room
  within : latency + k ≤ thetaL

/-- A completion starts with a step that the search enumerates, and goes on from there. -/
theorem Completes.exists_step (hg : ResidualState d g) {room : ℕ} {path : List String}
    {u : String} {latency : ℚ} {p : List String} {k : ℚ} (hut : u ≠ t)
    (h : Completes d g t thetaL (room + 1) path u latency p k) (r : Draws) :
    ∃ ei ∈ (d.getSortedEdges g u r).1, ∃ q j, p = u :: q ∧ k = ei.cost + j ∧
      Completes d g t thetaL room (path ++ [u]) ei.to_ (latency + ei.cost) q j ∧
      ei.to_ ∉ path ++ [u] ∧ latency + ei.cost ≤ latency + k := by
  obtain ⟨v, q, c, j, rfl, rfl, hstep, hrest, hfresh⟩ := h.costPath.exists_step hut
  obtain ⟨ei, hei, rfl, rfl⟩ := hg.exists_mem_getSortedEdges hstep r
  have hdisjoint : ∀ x ∈ q, x ∉ path ++ [u] := by
    intro x hx hmem
    rcases List.mem_append.mp hmem with hmem | hmem
    · exact h.disjoint x (List.mem_cons_of_mem _ hx) hmem
    · rw [List.mem_singleton.mp hmem] at hx
      exact hfresh hx
  have hj : 0 ≤ j := hrest.cost_nonneg fun _ _ _ => hg.cost_nonneg
  have hlength := h.length
  have hwithin := h.within
  obtain ⟨l, rfl⟩ := hrest.isSimplePath.eq_cons
  refine ⟨ei, hei, _, j, rfl, rfl, ⟨hrest, hdisjoint, by simpa using hlength, by linarith⟩,
    hdisjoint _ List.mem_cons_self, by linarith⟩

theorem mem_ite_shuffle {edges : List EdgeInfo × Draws} {ei : EdgeInfo} :
    ei ∈ (if randomize then shuffle edges.1 edges.2 else edges).1 ↔ ei ∈ edges.1 := by
  split
  · exact mem_shuffle
  · exact Iff.rfl

section Optimize

/-- What a search for the best path keeps if an improvement keeps it. -/
theorem dfs_keeps {P : SearchState → Prop} (hdraws : ∀ st r, P st → P { st with draws := r })
    (hbest : ∀ st path latency, latency < st.bestLatency →
      ¬ usedPaths.val (pathToString (path ++ [t])) → P st →
      P { st with bestPath := some (path ++ [t]), bestLatency := latency })
    {room : ℕ} {path : List String} {u : String} {latency : ℚ} {st : SearchState} (h : P st) :
    P (d.dfs g t thetaL usedPaths true randomize room path u latency st).2 := by
  induction room generalizing path u latency st with
  | zero => exact h
  | succ room ih =>
    unfold FlowOptimizationSolver.dfs
    split
    · rename_i hut
      subst hut
      split
      · rw [if_pos rfl]
        split
        · rename_i hbetter
          exact hbest st path latency hbetter.1 hbetter.2 h
        · exact h
      · exact h
    · exact tryEdges_keeps (fun _ _ _ _ hst => ih hst) (hdraws st _ h)

theorem dfs_bestLatency_le {B : ℚ} {room : ℕ} {path : List String} {u : String} {latency : ℚ}
    {st : SearchState} (h : st.bestLatency ≤ B) :
    (d.dfs g t thetaL usedPaths true randomize room path u latency st).2.bestLatency ≤ B :=
  dfs_keeps (P := fun st => st.bestLatency ≤ B) (fun _ _ h => h)
    (fun _ _ _ hlt _ hst => hlt.le.trans hst) h

/-- A step that can still lead to a cost of `B` is not cut off unless the best path is as good. -/
theorem tryEdges_bestLatency_le {B : ℚ} {path : List String} {latency : ℚ}
    {go : String → ℚ → SearchState → Bool × SearchState} {edges : List EdgeInfo} {ei : EdgeInfo}
    (hmem : ei ∈ edges) (hfresh : ei.to_ ∉ path) (hcost : latency + ei.cost ≤ B)
    (hB : B ≤ thetaL)
    (hmono : ∀ v latency st, st.bestLatency ≤ B → (go v latency st).2.bestLatency ≤ B)
    (hgo : ∀ st, (go ei.to_ (latency + ei.cost) st).2.bestLatency ≤ B) {found : Bool}
    {st : SearchState} : (FlowOptimizationSolver.tryEdges thetaL true path latency go edges found
      st).2.bestLatency ≤ B := by
  have hkeep : ∀ rest found st, st.bestLatency ≤ B → (FlowOptimizationSolver.tryEdges thetaL true
      path latency go rest found st).2.bestLatency ≤ B := fun rest found st =>
    tryEdges_keeps (P := fun st => st.bestLatency ≤ B) fun _ _ _ st hst => hmono _ _ st hst
  induction edges generalizing found st with
  | nil => cases hmem
  | cons e rest ih =>
    unfold FlowOptimizationSolver.tryEdges
    rcases List.mem_cons.mp hmem with rfl | hmem
    · rw [if_neg hfresh]
      split
      · rename_i hprune
        exact hkeep rest found st (hprune.2.trans hcost)
      · rw [if_neg (not_lt.mpr (hcost.trans hB))]
        dsimp only
        split
        · exact hkeep rest true _ (hgo st)
        · exact hkeep rest found _ (hgo st)
    · split
      · exact ih hmem
      split
      · exact ih hmem
      split
      · exact ih hmem
      dsimp only
      split
      · exact ih hmem
      · exact ih hmem

/-- The search for the best path ends with one that costs no more than any completion that
was not used. -/
theorem dfs_bestLatency_le_of_completes (hg : ResidualState d g) {room : ℕ} {path : List String}
    {u : String} {latency : ℚ} {st : SearchState} {p : List String} {k : ℚ}
    (h : Completes d g t thetaL room path u latency p k)
    (hunused : ¬ usedPaths.val (pathToString (path ++ p))) :
    (d.dfs g t thetaL usedPaths true randomize room path u latency st).2.bestLatency ≤
      latency + k := by
  induction room generalizing path u latency st p k with
  | zero =>
    have hne := h.costPath.isSimplePath.ne_nil
    exact absurd (List.length_eq_zero_iff.mp (Nat.le_zero.mp h.length)) hne
  | succ room ih =>
    unfold FlowOptimizationSolver.dfs
    split
    · rename_i hut
      subst hut
      obtain ⟨rfl, rfl⟩ := h.costPath.eq_of_self
      have hwithin := h.within
      rw [add_zero] at hwithin ⊢
      rw [if_pos hwithin, if_pos rfl]
      split
      · exact le_rfl
      · rename_i hworse
        exact not_lt.mp fun hlt => hworse ⟨hlt, hunused⟩
    · rename_i hut
      obtain ⟨ei, hei, q, j, rfl, rfl, hrest, hfresh, hcost⟩ := h.exists_step hg hut st.draws
      have hunused' : ¬ usedPaths.val (pathToString (path ++ [u] ++ q)) := by
        rw [List.append_assoc, List.singleton_append]
        exact hunused
      refine tryEdges_bestLatency_le (mem_ite_shuffle.mpr hei) hfresh hcost h.within
        (fun v latency' st' hst' => dfs_bestLatency_le hst') fun st' => ?_
      rw [← add_assoc]
      exact ih hrest hunused'

/-- The best path so far was not used before; without one the bound is still that of the
start. -/
structure Unused (thetaL : ℚ) (usedPaths : GoMap String Bool) (st : SearchState) : Prop where
  start : st.bestPath = none → st.bestLatency = thetaL + 1
  unused : ∀ found, st.bestPath = some found → ¬ usedPaths.val (pathToString found)

theorem dfs_unused {room : ℕ} {path : List String} {u : String} {latency : ℚ} {st : SearchState}
    (h : Unused thetaL usedPaths st) : Unused thetaL usedPaths
      (d.dfs g t thetaL usedPaths true randomize room path u latency st).2 := by
  refine dfs_keeps (P := Unused thetaL usedPaths) (fun _ _ hst => ⟨hst.start, hst.unused⟩) ?_ h
  intro st path latency _ hunused _
  refine ⟨fun hnone => ?_, fun found hfound => ?_⟩
  · cases hnone
  · cases hfound
    exact hunused

end Optimize

section Explore

/-- What a search for any path says: it has found one, or there was none to find. -/
structure Explored (None : Prop) (st : SearchState) (res : Bool × SearchState) : Prop where
  found : res.1 = true → res.2.bestPath.isSome
  missed : res.1 = false → None ∧ res.2.bestPath = st.bestPath

theorem explored_found {None : Prop} {st st' : SearchState} (h : st'.bestPath.isSome) :
    Explored None st (true, st') where
  found _ := h
  missed hfalse := by cases hfalse

theorem explored_missed {None : Prop} {st : SearchState} (h : None) :
    Explored None st (false, st) where
  found htrue := by cases htrue
  missed _ := ⟨h, rfl⟩

theorem Explored.imp {None None' : Prop} {st st' : SearchState} {res : Bool × SearchState}
    (h : Explored None st' res) (himp : None → None') (hst : st'.bestPath = st.bestPath) :
    Explored None' st res where
  found := h.found
  missed hfalse := ⟨himp (h.missed hfalse).1, (h.missed hfalse).2.trans hst⟩

/-- The loop stops at the first step that leads to a path. -/
theorem tryEdges_explored {path : List String} {latency : ℚ}
    {go : String → ℚ → SearchState → Bool × SearchState} {D : EdgeInfo → Prop}
    (hgo : ∀ ei st, Explored (D ei) st (go ei.to_ (latency + ei.cost) st))
    (edges : List EdgeInfo) (st : SearchState) :
    Explored (∀ ei ∈ edges, ei.to_ ∉ path → latency + ei.cost ≤ thetaL → D ei) st
      (FlowOptimizationSolver.tryEdges thetaL false path latency go edges false st) := by
  induction edges generalizing st with
  | nil => exact explored_missed fun _ hei => by cases hei
  | cons e rest ih =>
    unfold FlowOptimizationSolver.tryEdges
    by_cases hvisited : e.to_ ∈ path
    · rw [if_pos hvisited]
      refine (ih st).imp (fun hrest => ?_) rfl
      exact List.forall_mem_cons.mpr ⟨fun hfresh => absurd hvisited hfresh, hrest⟩
    rw [if_neg hvisited, if_neg fun h => Bool.false_ne_true h.1]
    by_cases hprune : latency + e.cost > thetaL
    · rw [if_pos hprune]
      refine (ih st).imp (fun hrest => ?_) rfl
      exact List.forall_mem_cons.mpr ⟨fun _ hle => absurd hprune (not_lt.mpr hle), hrest⟩
    rw [if_neg hprune]
    have hcall := hgo e st
    dsimp only
    cases hres : (go e.to_ (latency + e.cost) st).1 with
    | true =>
      rw [if_pos rfl, if_neg Bool.false_ne_true]
      exact explored_found (hcall.found hres)
    | false =>
      rw [if_neg Bool.false_ne_true]
      obtain ⟨hdead, hsame⟩ := hcall.missed hres
      refine (ih _).imp (fun hrest => ?_) hsame
      exact List.forall_mem_cons.mpr ⟨fun _ _ => hdead, hrest⟩

/-- A search for any path that comes back without one has missed none. -/
theorem dfs_explored (hg : ResidualState d g) {room : ℕ} {path : List String} {u : String}
    {latency : ℚ} {st : SearchState} :
    Explored (∀ p k, ¬ Completes d g t thetaL room path u latency p k) st
      (d.dfs g t thetaL usedPaths false randomize room path u latency st) := by
  induction room generalizing path u latency st with
  | zero =>
    refine explored_missed fun p k h => ?_
    have hne := h.costPath.isSimplePath.ne_nil
    exact hne (List.length_eq_zero_iff.mp (Nat.le_zero.mp h.length))
  | succ room ih =>
    unfold FlowOptimizationSolver.dfs
    split
    · rename_i hut
      subst hut
      split
      · rw [if_neg Bool.false_ne_true]
        exact explored_found rfl
      · rename_i hbound
        refine explored_missed fun p k h => hbound ?_
        have hwithin := h.within
        rw [h.costPath.eq_of_self.2, add_zero] at hwithin
        exact hwithin
    · rename_i hut
      refine (tryEdges_explored (D := fun ei => ∀ p k, ¬ Completes d g t thetaL room (path ++ [u])
        ei.to_ (latency + ei.cost) p k) (fun ei st' => ih) _ _).imp (fun hdead p k h => ?_) rfl
      obtain ⟨ei, hei, q, j, -, rfl, hrest, hfresh, hcost⟩ := h.exists_step hg hut st.draws
      exact hdead ei (mem_ite_shuffle.mpr hei) hfresh (hcost.trans h.within) q j hrest

end Explore

/-- A simple path of the residual network within both limits, with its cost. -/
structure Feasible (d : FlowOptimizationSolver) (g : ResidualGraph) (thetaL : ℚ) (s t : String)
    (p : List String) (cost : ℚ) : Prop where
  costPath : CostPath (ResidualStep d g) t s p cost
  nodes : p.length ≤ maxHops
  within : cost ≤ thetaL

theorem completes_of_feasible {s : String} {p : List String} {cost : ℚ}
    (h : Feasible d g thetaL s t p cost) : Completes d g t thetaL maxHops [] s 0 p cost where
  costPath := h.costPath
  disjoint := fun _ _ => List.not_mem_nil
  length := h.nodes
  within := by
    rw [zero_add]
    exact h.within

theorem feasible_of_dfsPathSearch {s : String} {r : Draws} {found : List String × ℚ}
    (h : (d.dfsPathSearch g t thetaL usedPaths optimize randomize s r).1 = some found) :
    Feasible d g thetaL s t found.1 found.2 := by
  obtain ⟨best, hbest, rfl⟩ := Option.map_eq_some_iff.mp h
  obtain ⟨path, rfl, hwalk, hle, hlen⟩ := dfs_bestFits (d := d) (g := g) (s := s) .start
    (Nat.zero_add maxHops) (fun found hnone => by cases hnone) best hbest
  have hfresh : t ∉ path :=
    List.disjoint_right.mp (List.disjoint_of_nodup_append hwalk.isSimplePath.nodup)
      List.mem_cons_self
  refine ⟨?_, ?_, hle⟩
  · have hpath := hwalk.costPath .here (by simpa using hfresh)
    rw [add_zero] at hpath
    exact hpath
  · rw [List.length_append, List.length_singleton]
    omega

/-- The search for the best path: it finds one that was not used if there is one, and then
one of least cost. -/
theorem dfsPathSearch_optimize (hg : ResidualState d g) (s t : String) (thetaL : ℚ)
    (usedPaths : GoMap String Bool) (randomize : Bool) (r : Draws) :
    ((d.dfsPathSearch g t thetaL usedPaths true randomize s r).1.isSome ↔
      ∃ p cost, Feasible d g thetaL s t p cost ∧ ¬ usedPaths.val (pathToString p)) ∧
    ∀ found, (d.dfsPathSearch g t thetaL usedPaths true randomize s r).1 = some found →
      ¬ usedPaths.val (pathToString found.1) ∧
      ∀ p cost, Feasible d g thetaL s t p cost → ¬ usedPaths.val (pathToString p) →
        found.2 ≤ cost := by
  have hunused : Unused thetaL usedPaths (d.dfs g t thetaL usedPaths true randomize maxHops [] s 0
      ⟨none, thetaL + 1, r⟩).2 :=
    dfs_unused ⟨fun _ => rfl, fun found hfound => by cases hfound⟩
  have hbest : ∀ p cost, Feasible d g thetaL s t p cost → ¬ usedPaths.val (pathToString p) →
      (d.dfs g t thetaL usedPaths true randomize maxHops [] s 0
        ⟨none, thetaL + 1, r⟩).2.bestLatency ≤ cost := by
    intro p cost hp hnew
    refine (dfs_bestLatency_le_of_completes hg (completes_of_feasible hp) hnew).trans_eq ?_
    exact zero_add cost
  have hfound : ∀ found, (d.dfsPathSearch g t thetaL usedPaths true randomize s r).1 = some found →
      ¬ usedPaths.val (pathToString found.1) ∧
      ∀ p cost, Feasible d g thetaL s t p cost → ¬ usedPaths.val (pathToString p) →
        found.2 ≤ cost := by
    intro found hfound
    obtain ⟨best, heq, rfl⟩ := Option.map_eq_some_iff.mp hfound
    exact ⟨hunused.unused best heq, hbest⟩
  refine ⟨⟨fun hsome => ?_, fun ⟨p, cost, hp, hnew⟩ => ?_⟩, hfound⟩
  · obtain ⟨found, heq⟩ := Option.isSome_iff_exists.mp hsome
    exact ⟨found.1, found.2, feasible_of_dfsPathSearch heq, (hfound found heq).1⟩
  · by_contra hnone
    rw [Option.not_isSome_iff_eq_none] at hnone
    have hstart := hunused.start (Option.map_eq_none_iff.mp hnone)
    have hle := hbest p cost hp hnew
    rw [hstart] at hle
    linarith [hp.within]

/-- The search for any path finds one if there is one. -/
theorem dfsPathSearch_explore (hg : ResidualState d g) (s t : String) (thetaL : ℚ)
    (usedPaths : GoMap String Bool) (randomize : Bool) (r : Draws) :
    (d.dfsPathSearch g t thetaL usedPaths false randomize s r).1.isSome ↔
      ∃ p cost, Feasible d g thetaL s t p cost := by
  have hsearch : Explored (∀ p k, ¬ Completes d g t thetaL maxHops [] s 0 p k)
      ⟨none, thetaL + 1, r⟩ (d.dfs g t thetaL usedPaths false randomize maxHops [] s 0
        ⟨none, thetaL + 1, r⟩) := dfs_explored hg
  constructor
  · intro hsome
    obtain ⟨found, heq⟩ := Option.isSome_iff_exists.mp hsome
    exact ⟨found.1, found.2, feasible_of_dfsPathSearch heq⟩
  · rintro ⟨p, cost, hp⟩
    unfold FlowOptimizationSolver.dfsPathSearch
    rw [Option.isSome_map]
    refine hsearch.found ?_
    by_contra hfalse
    exact (hsearch.missed (Bool.eq_false_iff.mpr hfalse)).1 p cost (completes_of_feasible hp)

/-- The steps from a node can come in one order whatever draws are to follow. -/
theorem exists_getSortedEdges_eq (d : FlowOptimizationSolver) (g : ResidualGraph) (u : String) :
    ∃ l, ∀ rest, ∃ r, d.getSortedEdges g u r = (l, rest) := by
  refine ⟨ExchangeSort.sort EdgeInfo.cost
    (d.forwardEdges g u ((g.keys.filter fun e => e.1 = u).map Prod.snd) ++
      FlowOptimizationSolver.backwardEdges g u d.nodes), fun rest => ?_⟩
  obtain ⟨r, hnodes⟩ := exists_shuffle_eq (List.Perm.refl d.nodes) rest
  obtain ⟨r', hout⟩ := exists_shuffle_eq
    (List.Perm.refl ((g.keys.filter fun e => e.1 = u).map Prod.snd)) r
  refine ⟨r', ?_⟩
  simp only [FlowOptimizationSolver.getSortedEdges, hout, hnodes]

/-- The random search may follow any completion: the shuffles put its steps first. -/
theorem exists_dfs_eq (hg : ResidualState d g) (usedPaths : GoMap String Bool) {room : ℕ}
    {path : List String} {u : String} {latency : ℚ} {p : List String} {k : ℚ}
    (h : Completes d g t thetaL room path u latency p k)
    (best : Option (List String)) (bestLatency : ℚ) (rest : Draws) :
    ∃ r, d.dfs g t thetaL usedPaths false true room path u latency ⟨best, bestLatency, r⟩ =
      (true, ⟨some (path ++ p), latency + k, rest⟩) := by
  induction room generalizing path u latency p k with
  | zero =>
    have hne := h.costPath.isSimplePath.ne_nil
    exact absurd (List.length_eq_zero_iff.mp (Nat.le_zero.mp h.length)) hne
  | succ room ih =>
    by_cases hut : u = t
    · subst hut
      have hwithin := h.within
      obtain ⟨rfl, rfl⟩ := h.costPath.eq_of_self
      rw [add_zero] at hwithin ⊢
      refine ⟨rest, ?_⟩
      rw [FlowOptimizationSolver.dfs, if_pos rfl, if_pos hwithin, if_neg Bool.false_ne_true]
    · obtain ⟨l, hl⟩ := exists_getSortedEdges_eq d g u
      obtain ⟨r₀, hr₀⟩ := hl rest
      obtain ⟨ei, hei, q, j, rfl, rfl, hq, hfresh, hcost⟩ := h.exists_step hg hut r₀
      rw [hr₀] at hei
      obtain ⟨before, after, rfl⟩ := List.append_of_mem hei
      obtain ⟨r₁, hr₁⟩ := ih hq
      have hperm : (ei :: (before ++ after)).Perm (before ++ ei :: after) := List.perm_middle.symm
      obtain ⟨r₂, hr₂⟩ := exists_shuffle_eq hperm r₁
      obtain ⟨r, hr⟩ := hl r₂
      refine ⟨r, ?_⟩
      rw [FlowOptimizationSolver.dfs, if_neg hut]
      simp only [hr, if_true, hr₂]
      rw [FlowOptimizationSolver.tryEdges, if_neg hfresh, if_neg fun hopt => by simp at hopt,
        if_neg (not_lt.mpr (hcost.trans h.within)), hr₁]
      simp [add_assoc]

end Search

/-- A path that the caller of a search may enter. The first attempts ask for the cheapest path
that is not in use, the later ones for any path; one in use is thrown away. -/
structure Offers (d : FlowOptimizationSolver) (start : String) (s : Search) (hops : List String)
    (cost : ℚ) : Prop where
  leaves : ∃ e ∈ s.ledger.graph.keys, e.1 = start
  feasible : Feasible d s.ledger.graph (d.thetaL s.dest) start s.dest hops cost
  unused : ¬ s.ledger.usedPaths.val (pathToString hops)
  cheapest : s.attempt ≤ 1 → ∀ p k, Feasible d s.ledger.graph (d.thetaL s.dest) start s.dest p k →
    ¬ s.ledger.usedPaths.val (pathToString p) → cost ≤ k

section Offered
variable {d : FlowOptimizationSolver} {start : String} {s : Search}

theorem offers_of_found (hg : ResidualState d s.ledger.graph) {r : Draws} {pi : PathWithInfo}
    (h : (d.findFeasiblePathWithLatency s.ledger.graph start s.dest s.ledger.usedPaths s.attempt
      r).1 = some pi) (hunused : ¬ s.ledger.usedPaths.val (pathToString pi.path)) :
    Offers d start s pi.path pi.latency := by
  unfold FlowOptimizationSolver.findFeasiblePathWithLatency at h
  split at h
  · cases h
  · rename_i hleaves
    obtain ⟨found, hfound, rfl⟩ := Option.map_eq_some_iff.mp h
    refine ⟨by simpa using hleaves, ?_, hunused, fun hattempt => ?_⟩
    · split at hfound
      · exact feasible_of_dfsPathSearch hfound
      · exact feasible_of_dfsPathSearch hfound
    · rw [if_pos hattempt] at hfound
      exact ((dfsPathSearch_optimize hg _ _ _ _ _ _).2 found hfound).2

/-- The later attempts may return every path that is offered to them. -/
theorem exists_found_of_offers (hg : ResidualState d s.ledger.graph) (hattempt : 2 ≤ s.attempt)
    {hops : List String} {cost : ℚ} (h : Offers d start s hops cost) :
    ∃ r, (d.findFeasiblePathWithLatency s.ledger.graph start s.dest s.ledger.usedPaths s.attempt
      r).1 = some ⟨hops, GoStrings.join hops "|", s.dest, cost⟩ := by
  obtain ⟨r, hr⟩ := exists_dfs_eq hg s.ledger.usedPaths
    (completes_of_feasible h.feasible) none (d.thetaL s.dest + 1) fun _ => 0
  refine ⟨r, ?_⟩
  unfold FlowOptimizationSolver.findFeasiblePathWithLatency
  rw [if_neg (by simpa using h.leaves), if_neg (by omega)]
  simp [FlowOptimizationSolver.dfsPathSearch, hr]

/-- An attempt that takes any path finds only paths of one kind, whatever the draws, if and only
if it is offered only such paths. -/
theorem forall_offers_iff (hg : ResidualState d s.ledger.graph) (hattempt : 2 ≤ s.attempt)
    (P : List String → ℚ → Prop) :
    (∀ hops cost, Offers d start s hops cost → P hops cost) ↔
      ∀ r pi, (d.findFeasiblePathWithLatency s.ledger.graph start s.dest s.ledger.usedPaths
        s.attempt r).1 = some pi → ¬ s.ledger.usedPaths.val (pathToString pi.path) →
        P pi.path pi.latency := by
  constructor
  · intro h r pi hfound hunused
    exact h _ _ (offers_of_found hg hfound hunused)
  · intro h hops cost hoffers
    obtain ⟨r, hr⟩ := exists_found_of_offers hg hattempt hoffers
    exact h r _ hr hoffers.unused

end Offered

end Arcturus.Carousel
