import Arcturus.CarouselReversals

/-!
The search of the carousel-greedy solver with the variables of its closure: the visited nodes,
the path and the best path so far are shared by all branches of the recursion. It agrees with
the search that passes the path on, so that it is exact for every order of the edges.
-/

namespace Arcturus.CarouselBacktracking

open GoMaps RandomChoices SimplePaths EdgeLists Carousel

/-- The variables that the closure captures, and the draws still to come. -/
structure Vars where
  visited : GoMap String Bool
  path : List String
  bestPath : Option (List String)
  bestLatency : ℚ
  draws : Draws

section Closure
variable (d : FlowOptimizationSolver) (g : ResidualGraph) (t : String) (thetaL : ℚ)
  (usedPaths : GoMap String Bool) (optimize randomize : Bool)

/-- The loop over the edges; `go` is the recursive call. -/
def tryAll (currentLatency : ℚ) (go : String → ℚ → Vars → Bool × Vars) :
    List EdgeInfo → Bool → Vars → Bool × Vars
  | [], found, v => (found, v)
  | ei :: rest, found, v =>
    if v.visited.val ei.to_ then tryAll currentLatency go rest found v
    else if optimize ∧ currentLatency + ei.cost ≥ v.bestLatency then
      tryAll currentLatency go rest found v
    else if currentLatency + ei.cost > thetaL then tryAll currentLatency go rest found v
    else
      let r := go ei.to_ (currentLatency + ei.cost) v
      if r.1 then
        if optimize then tryAll currentLatency go rest true r.2 else (true, r.2)
      else tryAll currentLatency go rest found r.2

/-- The closure. The first argument bounds the recursion; it is not used up before the path
has reached the limit. -/
def search : ℕ → String → ℚ → Vars → Bool × Vars
  | 0, _, _, v => (false, v)
  | fuel + 1, u, currentLatency, v =>
    if v.path.length ≥ maxHops then (false, v)
    else if u = t then
      if currentLatency ≤ thetaL then
        if optimize then
          if currentLatency < v.bestLatency then
            let tempPath := v.path ++ [u]
            if ¬ usedPaths.val (pathToString tempPath) then
              (false, { v with bestLatency := currentLatency, bestPath := some tempPath })
            else (false, v)
          else (false, v)
        else (true, { v with bestPath := some (v.path ++ [u]), bestLatency := currentLatency })
      else (false, v)
    else
      let v := { v with visited := v.visited.set u true, path := v.path ++ [u] }
      let sorted := d.getSortedEdges g u v.draws
      let edges := if randomize then shuffle sorted.1 sorted.2 else sorted
      let res := tryAll thetaL optimize currentLatency (search fuel) edges.1 false
        { v with draws := edges.2 }
      (res.1, { res.2 with path := res.2.path.dropLast, visited := res.2.visited.set u false })

def dfsPathSearch (s : String) (r : Draws) : Option (List String × ℚ) × Draws :=
  let v := (search d g t thetaL usedPaths optimize randomize (maxHops + 1) s 0
    { visited := GoMap.empty, path := [], bestPath := none, bestLatency := thetaL + 1,
      draws := r }).2
  (v.bestPath.map fun path => (path, v.bestLatency), v.draws)

end Closure

section Refinement
variable {d : FlowOptimizationSolver} {g : ResidualGraph} {t u : String} {thetaL latency : ℚ}
  {usedPaths : GoMap String Bool} {optimize randomize : Bool} {v v' : Vars}

/-- What the search that passes the path on keeps of the variables. -/
def Vars.state (v : Vars) : SearchState := ⟨v.bestPath, v.bestLatency, v.draws⟩

/-- The visited nodes are those on the path. -/
def Tracks (v : Vars) : Prop := ∀ x, v.visited.val x = true ↔ x ∈ v.path

/-- The path and the visited nodes are as they were. -/
structure Restored (v v' : Vars) : Prop where
  path : v'.path = v.path
  visited : ∀ x, v'.visited.val x = v.visited.val x

theorem restored_rfl : Restored v v := ⟨rfl, fun _ => rfl⟩

theorem Restored.trans {v'' : Vars} (h : Restored v v') (h' : Restored v' v'') :
    Restored v v'' where
  path := h'.path.trans h.path
  visited x := (h'.visited x).trans (h.visited x)

theorem Restored.tracks (h : Restored v v') (hv : Tracks v) : Tracks v' := by
  intro x
  rw [h.visited, h.path]
  exact hv x

/-- What the closure leaves behind, compared to the search that passes the path on. -/
structure Agrees (v : Vars) (res : Bool × Vars) (res' : Bool × SearchState) : Prop where
  found : res.1 = res'.1
  state : res.2.state = res'.2
  restored : Restored v res.2

theorem tryAll_agrees (thetaL latency : ℚ) (optimize : Bool) {go : String → ℚ → Vars → Bool × Vars}
    {go' : String → ℚ → SearchState → Bool × SearchState} {path : List String}
    (hgo : ∀ next latency v, Tracks v → v.path = path → next ∉ path →
      Agrees v (go next latency v) (go' next latency v.state))
    (edges : List EdgeInfo) (found : Bool) (hv : Tracks v) (hpath : v.path = path) :
    Agrees v (tryAll thetaL optimize latency go edges found v)
      (FlowOptimizationSolver.tryEdges thetaL optimize path latency go' edges found v.state) := by
  induction edges generalizing v found with
  | nil => exact ⟨rfl, rfl, restored_rfl⟩
  | cons ei rest ih =>
    unfold tryAll FlowOptimizationSolver.tryEdges
    have hvisited : v.visited.val ei.to_ = true ↔ ei.to_ ∈ path := hpath ▸ hv _
    by_cases hmem : ei.to_ ∈ path
    · rw [if_pos hmem, if_pos (hvisited.mpr hmem)]
      exact ih found hv hpath
    rw [if_neg hmem, if_neg fun h => hmem (hvisited.mp h)]
    change Agrees v (if optimize = true ∧ latency + ei.cost ≥ v.bestLatency then _ else _)
      (if optimize = true ∧ latency + ei.cost ≥ v.bestLatency then _ else _)
    split
    · exact ih found hv hpath
    split
    · exact ih found hv hpath
    have hcall := hgo ei.to_ (latency + ei.cost) v hv hpath hmem
    generalize go ei.to_ (latency + ei.cost) v = res at hcall ⊢
    generalize go' ei.to_ (latency + ei.cost) v.state = res' at hcall ⊢
    obtain ⟨b, v₁⟩ := res
    obtain ⟨b', st⟩ := res'
    obtain rfl : b = b' := hcall.found
    obtain rfl : v₁.state = st := hcall.state
    have hrest := fun found => ih found (hcall.restored.tracks hv)
      (hcall.restored.path.trans hpath)
    have hgo_on : ∀ found, Agrees v (tryAll thetaL optimize latency go rest found v₁)
        (FlowOptimizationSolver.tryEdges thetaL optimize path latency go' rest found v₁.state) :=
      fun found => ⟨(hrest found).found, (hrest found).state,
        hcall.restored.trans (hrest found).restored⟩
    dsimp only
    split
    · split
      · exact hgo_on true
      · exact ⟨rfl, rfl, hcall.restored⟩
    · exact hgo_on found

theorem Tracks.enter (hv : Tracks v) (u : String) (r : Draws) :
    Tracks ⟨v.visited.set u true, v.path ++ [u], v.bestPath, v.bestLatency, r⟩ :=
  GoMap.set_true_iff hv u

/-- A node that is entered and left again. -/
theorem Restored.leave {u : String} {r : Draws}
    (h : Restored ⟨v.visited.set u true, v.path ++ [u], v.bestPath, v.bestLatency, r⟩ v')
    (hu : v.visited.val u = false) :
    Restored v { v' with path := v'.path.dropLast, visited := v'.visited.set u false } := by
  refine ⟨?_, fun x => ?_⟩
  · change v'.path.dropLast = v.path
    rw [h.path, List.dropLast_concat]
  · change (v'.visited.set u false).val x = v.visited.val x
    by_cases hx : x = u
    · subst hx
      rw [GoMap.set_val_same, hu]
    · rw [GoMap.set_val_of_ne _ _ hx, h.visited]
      exact GoMap.set_val_of_ne _ _ hx

/-- The closure and the search that passes the path on agree, and the closure puts the path
and the visited nodes back. -/
theorem search_agrees {room : ℕ} (hroom : v.path.length + room = maxHops) (hv : Tracks v)
    (hu : u ∉ v.path) :
    Agrees v (search d g t thetaL usedPaths optimize randomize (room + 1) u latency v)
      (d.dfs g t thetaL usedPaths optimize randomize room v.path u latency v.state) := by
  induction room generalizing u latency v with
  | zero =>
    unfold search
    rw [if_pos (by omega)]
    exact ⟨rfl, rfl, restored_rfl⟩
  | succ room ih =>
    unfold search FlowOptimizationSolver.dfs
    rw [if_neg (by omega)]
    split
    · split
      · split
        · change Agrees v _ (if latency < v.bestLatency ∧
            ¬ usedPaths.val (pathToString (v.path ++ [u])) then _ else _)
          by_cases hlt : latency < v.bestLatency
          · by_cases hused : usedPaths.val (pathToString (v.path ++ [u]))
            · rw [if_pos hlt, if_neg (not_not.mpr hused), if_neg fun h => h.2 hused]
              exact ⟨rfl, rfl, restored_rfl⟩
            · rw [if_pos hlt, if_pos hused, if_pos ⟨hlt, hused⟩]
              exact ⟨rfl, rfl, rfl, fun _ => rfl⟩
          · rw [if_neg hlt, if_neg fun h => hlt h.1]
            exact ⟨rfl, rfl, restored_rfl⟩
        · exact ⟨rfl, rfl, rfl, fun _ => rfl⟩
      · exact ⟨rfl, rfl, restored_rfl⟩
    · have hgo : ∀ next latency v₁, Tracks v₁ → v₁.path = v.path ++ [u] → next ∉ v.path ++ [u] →
          Agrees v₁ (search d g t thetaL usedPaths optimize randomize (room + 1) next latency v₁)
            (d.dfs g t thetaL usedPaths optimize randomize room (v.path ++ [u]) next latency
              v₁.state) := by
        intro next latency v₁ hv₁ hpath hnext
        rw [← hpath] at hnext ⊢
        refine ih ?_ hv₁ hnext
        rw [hpath, List.length_append, List.length_singleton]
        omega
      have hloop := fun edges r =>
        tryAll_agrees thetaL latency optimize hgo edges false (hv.enter u r) rfl
      have hfresh : v.visited.val u = false := GoMap.val_eq_false_of_marks hv hu
      exact ⟨(hloop _ _).found, (hloop _ _).state, (hloop _ _).restored.leave hfresh⟩

theorem dfsPathSearch_eq (s : String) (r : Draws) :
    dfsPathSearch d g t thetaL usedPaths optimize randomize s r =
      d.dfsPathSearch g t thetaL usedPaths optimize randomize s r := by
  have hagrees : Agrees ⟨GoMap.empty, [], none, thetaL + 1, r⟩
      (search d g t thetaL usedPaths optimize randomize (maxHops + 1) s 0
        ⟨GoMap.empty, [], none, thetaL + 1, r⟩)
      (d.dfs g t thetaL usedPaths optimize randomize maxHops [] s 0 ⟨none, thetaL + 1, r⟩) :=
    search_agrees (Nat.zero_add maxHops) (fun x => by simp [GoMap.empty]) List.not_mem_nil
  unfold dfsPathSearch FlowOptimizationSolver.dfsPathSearch
  rw [← hagrees.state]
  rfl

end Refinement

/-- The search is exact, for every order in which it meets the edges. For the best path it
returns one of least cost among those that were not used, if there is one; for any path it
returns one exactly if there is one, used or not. -/
theorem dfsPathSearch_exact {d : FlowOptimizationSolver} {g : ResidualGraph}
    (hg : ResidualState d g) (s t : String) (thetaL : ℚ) (usedPaths : GoMap String Bool)
    (randomize : Bool) (r : Draws) :
    ((dfsPathSearch d g t thetaL usedPaths true randomize s r).1.isSome ↔
      ∃ p cost, Feasible d g thetaL s t p cost ∧ ¬ usedPaths.val (pathToString p)) ∧
    (∀ found, (dfsPathSearch d g t thetaL usedPaths true randomize s r).1 = some found →
      Feasible d g thetaL s t found.1 found.2 ∧ ¬ usedPaths.val (pathToString found.1) ∧
      ∀ p cost, Feasible d g thetaL s t p cost → ¬ usedPaths.val (pathToString p) →
        found.2 ≤ cost) ∧
    ((dfsPathSearch d g t thetaL usedPaths false randomize s r).1.isSome ↔
      ∃ p cost, Feasible d g thetaL s t p cost) ∧
    ∀ found, (dfsPathSearch d g t thetaL usedPaths false randomize s r).1 = some found →
      Feasible d g thetaL s t found.1 found.2 := by
  rw [dfsPathSearch_eq, dfsPathSearch_eq]
  obtain ⟨hsome, hleast⟩ := dfsPathSearch_optimize hg s t thetaL usedPaths randomize r
  exact ⟨hsome, fun found hfound => ⟨feasible_of_dfsPathSearch hfound, hleast found hfound⟩,
    dfsPathSearch_explore hg s t thetaL usedPaths randomize r,
    fun found hfound => feasible_of_dfsPathSearch hfound⟩

/-- The diamond for one destination with two flows. -/
def wideDiamond : FlowOptimizationSolver :=
  { newFlowOptimizationSolver diamond with capacity := 2 }

/-- Its residual graph with the path through both middle nodes allocated. -/
def filled : ResidualGraph :=
  allocateFlow wideDiamond.buildResidualGraphWithCapacity ["S", "A", "B", "T"] 1

theorem filled_residualState : ResidualState wideDiamond filled where
  arcs := by
    unfold Arc
    decide +kernel
  latencies := by decide +kernel

/-- The two paths over A. -/
def usedOverA : GoMap String Bool :=
  (GoMap.empty.set (pathToString ["S", "A", "B", "T"]) true).set (pathToString ["S", "A", "T"]) true

/-- Both paths over A are used: the search leaves A again and returns the one that is left,
and not the one that goes against the edge from A to B. -/
theorem filled_exact :
    (dfsPathSearch wideDiamond filled "T" 100 usedOverA true false "S" fun _ => 0).1 =
      some (["S", "B", "T"], 9 / 2) ∧
    ∀ p cost, Feasible wideDiamond filled 100 "S" "T" p cost →
      ¬ usedOverA.val (pathToString p) → 9 / 2 ≤ cost := by
  have hfound : (dfsPathSearch wideDiamond filled "T" 100 usedOverA true false "S" fun _ => 0).1 =
      some (["S", "B", "T"], 9 / 2) := by
    decide +kernel
  have hexact := dfsPathSearch_exact filled_residualState "S" "T" 100 usedOverA false fun _ => 0
  exact ⟨hfound, (hexact.2.1 _ hfound).2.2⟩

end Arcturus.CarouselBacktracking
