import Arcturus.Carousel

/-!
What the depth-first search of the carousel-greedy solver finds: a simple path of the
residual network within the latency bound and the limit on hops. A step of that
network goes along an edge with residual capacity or against one that carries flow.
-/

namespace Arcturus.Carousel

open GoMaps RandomChoices SimplePaths EdgeLists

section Residual

variable (d : FlowOptimizationSolver) (g : ResidualGraph)

/-- A step of the residual network and its cost. -/
inductive ResidualStep (u v : String) : ℚ → Prop where
  | forward (hkey : (u, v) ∈ g.keys) (hres : 0 < (g.val (u, v)).residual) :
      ResidualStep u v (d.getEdgeLatency u v + (g.val (u, v)).penalty)
  | backward (hne : v ≠ u) (hkey : (v, u) ∈ g.keys) (hflow : 0 < (g.val (v, u)).flow) :
      ResidualStep u v (0 + (g.val (v, u)).penalty)

/-- The nodes before the last one, the last one, and the cost of a walk that repeats no
node. -/
inductive Walk (s : String) : List String → String → ℚ → Prop where
  | start : Walk s [] s 0
  | step {path : List String} {u v : String} {cost stepCost : ℚ} (hwalk : Walk s path u cost)
      (hfresh : v ∉ path ++ [u]) (hstep : ResidualStep d g u v stepCost) :
      Walk s (path ++ [u]) v (cost + stepCost)

variable {d g}

theorem residualStep_of_mem {u : String} {r : Draws} {ei : EdgeInfo}
    (h : ei ∈ (d.getSortedEdges g u r).1) : ResidualStep d g u ei.to_ ei.cost := by
  simp only [FlowOptimizationSolver.getSortedEdges] at h
  rw [(ExchangeSort.sort_perm _ _).mem_iff, List.mem_append] at h
  rcases h with h | h
  · obtain ⟨v, hv, hei⟩ := List.mem_filterMap.mp h
    simp only [mem_shuffle, List.mem_map, List.mem_filter, decide_eq_true_eq] at hv
    obtain ⟨⟨a, b⟩, ⟨hkey, rfl⟩, rfl⟩ := hv
    simp only [gt_iff_lt, Option.ite_none_right_eq_some] at hei
    obtain ⟨hres, hei⟩ := hei
    cases Option.some.inj hei
    exact .forward hkey hres
  · obtain ⟨v, hv, hei⟩ := List.mem_filterMap.mp h
    simp only [gt_iff_lt, Option.ite_none_right_eq_some] at hei
    obtain ⟨⟨hne, hkey⟩, hflow, hei⟩ := hei
    cases Option.some.inj hei
    exact .backward hne hkey hflow

/-- A walk is a simple path of the residual network. -/
theorem Walk.isSimplePath {s u : String} {path : List String} {cost : ℚ}
    (h : Walk d g s path u cost) :
    IsSimplePath (fun a b => ∃ c, ResidualStep d g a b c) s u (path ++ [u]) := by
  induction h with
  | start => exact ⟨by simp, by simp, by simp, by simp⟩
  | @step path u v cost stepCost hwalk hfresh hstep ih =>
    refine ⟨?_, ?_, by simp, ?_⟩
    · refine List.isChain_append.mpr ⟨ih.chain, by simp, ?_⟩
      intro a ha b hb
      simp only [List.getLast?_append, List.getLast?_singleton, Option.some_or, Option.mem_some_iff,
        List.head?_cons] at ha hb
      subst ha hb
      exact ⟨_, hstep⟩
    · rw [List.head?_append, ih.head]
      rfl
    · rw [← List.concat_eq_append, List.nodup_concat]
      exact ⟨hfresh, ih.nodup⟩

end Residual

section Search

variable {d : FlowOptimizationSolver} {g : ResidualGraph}
  {thetaL : ℚ} {usedPaths : GoMap String Bool} {optimize randomize : Bool}

/-- What the loop over the steps keeps if each search that it starts keeps it. -/
theorem tryEdges_keeps {P : SearchState → Prop} {path : List String} {latency : ℚ}
    {go : String → ℚ → SearchState → Bool × SearchState} {edges : List EdgeInfo}
    (hgo : ∀ ei ∈ edges, ei.to_ ∉ path → ∀ st, P st → P (go ei.to_ (latency + ei.cost) st).2)
    {found : Bool} {st : SearchState} (h : P st) :
    P (FlowOptimizationSolver.tryEdges thetaL optimize path latency go edges found st).2 := by
  induction edges generalizing found st with
  | nil => exact h
  | cons ei rest ih =>
    have hrest := fun a ha => hgo a (List.mem_cons_of_mem ei ha)
    unfold FlowOptimizationSolver.tryEdges
    split
    · exact ih hrest h
    · rename_i hfresh
      have hnext := hgo ei List.mem_cons_self hfresh st h
      split
      · exact ih hrest h
      split
      · exact ih hrest h
      simp only
      split
      · split
        · exact ih hrest hnext
        · exact hnext
      · exact ih hrest hnext

/-- The best path so far is a walk to the target within both limits. -/
def BestFits (d : FlowOptimizationSolver) (g : ResidualGraph) (thetaL : ℚ) (s t : String)
    (st : SearchState) : Prop :=
  ∀ found, st.bestPath = some found → ∃ path, found = path ++ [t] ∧
    Walk d g s path t st.bestLatency ∧ st.bestLatency ≤ thetaL ∧ path.length < maxHops

theorem dfs_bestFits {s t u : String} {room : ℕ} {path : List String} {latency : ℚ}
    {st : SearchState} (hwalk : Walk d g s path u latency) (hroom : path.length + room = maxHops)
    (h : BestFits d g thetaL s t st) :
    BestFits d g thetaL s t
      (d.dfs g t thetaL usedPaths optimize randomize room path u latency st).2 := by
  induction room generalizing path u latency st with
  | zero => exact h
  | succ room ih =>
    unfold FlowOptimizationSolver.dfs
    split
    · rename_i hut
      subst hut
      split
      · rename_i hle
        have hfound : BestFits d g thetaL s u
            { st with bestPath := some (path ++ [u]), bestLatency := latency } := by
          intro found heq
          cases Option.some.inj heq
          exact ⟨path, rfl, hwalk, hle, by omega⟩
        split
        · split
          · exact hfound
          · exact h
        · exact hfound
      · exact h
    · refine tryEdges_keeps (P := BestFits d g thetaL s t) ?_ h
      intro ei hei hfresh st' hst'
      have hmem : ei ∈ (d.getSortedEdges g u st.draws).1 := by
        split at hei
        · exact mem_shuffle.mp hei
        · exact hei
      apply ih (.step hwalk hfresh (residualStep_of_mem hmem)) _ hst'
      simp only [List.length_append, List.length_singleton]
      omega

/-- A path that the solver may insert: a walk from the start to its destination. -/
def Found (d : FlowOptimizationSolver) (g : ResidualGraph) (s : String) (pi : PathWithInfo) :
    Prop :=
  ∃ path, pi.path = path ++ [pi.dest] ∧ Walk d g s path pi.dest pi.latency ∧
    pi.latency ≤ d.thetaL pi.dest ∧ path.length < maxHops

theorem findFeasiblePathWithLatency_found {s t : String} {attempt : ℕ} {r : Draws}
    {pi : PathWithInfo}
    (h : (d.findFeasiblePathWithLatency g s t usedPaths attempt r).1 = some pi) :
    pi.dest = t ∧ Found d g s pi := by
  have hsearch : ∀ optimize randomize found,
      (d.dfsPathSearch g t (d.thetaL t) usedPaths optimize randomize s r).1 = some found →
      ∃ path, found.1 = path ++ [t] ∧ Walk d g s path t found.2 ∧ found.2 ≤ d.thetaL t ∧
        path.length < maxHops := by
    intro optimize randomize found hfound
    obtain ⟨best, hbest, heq⟩ := Option.map_eq_some_iff.mp hfound
    subst heq
    apply dfs_bestFits (d := d) .start (Nat.zero_add _) _ best hbest
    intro found hnone
    exact absurd hnone (by simp)
  unfold FlowOptimizationSolver.findFeasiblePathWithLatency at h
  split at h
  · exact absurd h (by simp)
  · obtain ⟨found, hfound, heq⟩ := Option.map_eq_some_iff.mp h
    subst heq
    refine ⟨rfl, ?_⟩
    split at hfound
    · exact hsearch _ _ found hfound
    · exact hsearch _ _ found hfound

/-- A found path is a simple path of the residual network with few nodes. -/
theorem Found.isSimplePath {s : String} {pi : PathWithInfo} (h : Found d g s pi) :
    IsSimplePath (fun a b => ∃ c, ResidualStep d g a b c) s pi.dest pi.path ∧
      pi.path.length ≤ maxHops := by
  obtain ⟨path, hpath, hwalk, -, hlen⟩ := h
  rw [hpath]
  refine ⟨hwalk.isSimplePath, ?_⟩
  simp only [List.length_append, List.length_singleton]
  omega

end Search

end Arcturus.Carousel
