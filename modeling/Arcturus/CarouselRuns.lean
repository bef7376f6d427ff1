import Arcturus.CarouselLedger

/-!
Every ledger that the carousel-greedy solver records is reached by the changes of a
ledger, and the paths that it selects are those of such a ledger.
-/

namespace Arcturus.Carousel

open GoMaps RandomChoices SimplePaths EdgeLists

/-- No edge is banned. -/
def Unbanned (L : Ledger) : Prop := ∀ e, (L.graph.val e).banned = false

section Tracking

variable (d : FlowOptimizationSolver) (start : String) (validEnds : List String)

/-- What holds of a ledger recorded with an event. -/
def Fits (ev : Event) (L : Ledger) : Prop :=
  Reached d start validEnds L ∧
    match ev with
    | .head => Unbanned L
    | .removing pi => ∃ rest, L.allPaths = pi :: rest
    | _ => True

/-- One of the searches found the path, and it was free to be entered then. -/
def Sought (searches : List Search) (pi : PathWithInfo) : Prop :=
  ∃ s ∈ searches, Admitted d start validEnds s.ledger pi ∧ s.found d start = some pi

structure Tracked (st : State) : Prop where
  reached : Reached d start validEnds st.ledger
  record : ∀ p ∈ st.record, Fits d start validEnds p.1 p.2
  searched : ∀ s ∈ st.searches, Reached d start validEnds s.ledger
  sought : ∀ pi ∈ st.ledger.allPaths, Sought d start validEnds st.searches pi

/-- The paths of a ledger that the solver reaches, each from one of the searches. -/
structure Chosen (searches : List Search) (paths : List PathWithInfo) : Prop where
  ne_nil : paths ≠ []
  reached : ∃ L, Reached d start validEnds L ∧ L.allPaths = paths
  sought : ∀ pi ∈ paths, Sought d start validEnds searches pi

variable {d start validEnds} {st : State} {pi : PathWithInfo} {rest : List PathWithInfo}

theorem Tracked.note (h : Tracked d start validEnds st) {ev : Event}
    (hev : Fits d start validEnds ev st.ledger) : Tracked d start validEnds (st.note ev) := by
  refine ⟨h.reached, ?_, h.searched, h.sought⟩
  exact List.forall_mem_append.mpr ⟨h.record, List.forall_mem_singleton.mpr hev⟩

theorem Sought.mono {searches searches' : List Search} (h : Sought d start validEnds searches pi)
    (hsub : searches ⊆ searches') : Sought d start validEnds searches' pi := by
  obtain ⟨s, hs, hpi⟩ := h
  exact ⟨s, hsub hs, hpi⟩

theorem Tracked.search (h : Tracked d start validEnds st) (end_ : String) (attempt : ℕ) :
    Tracked d start validEnds (st.search end_ attempt) where
  reached := h.reached
  record := h.record
  searched := List.forall_mem_append.mpr ⟨h.searched, List.forall_mem_singleton.mpr h.reached⟩
  sought pi hpi := (h.sought pi hpi).mono (List.subset_append_left _ _)

/-- The search that was noted last is the one that found the path. -/
theorem sought_search {end_ : String} {attempt : ℕ}
    (hpi : Admitted d start validEnds st.ledger pi)
    (hfound : (d.findFeasiblePathWithLatency st.ledger.graph start end_ st.ledger.usedPaths attempt
      st.draws).1 = some pi) : Sought d start validEnds (st.search end_ attempt).searches pi :=
  ⟨⟨st.ledger, end_, attempt, st.draws⟩, List.mem_append_right _ List.mem_cons_self, hpi, hfound⟩

theorem Tracked.insert (h : Tracked d start validEnds st)
    (hpi : Admitted d start validEnds st.ledger pi)
    (hsought : Sought d start validEnds st.searches pi) :
    Tracked d start validEnds (st.insert pi) := by
  have hreached := h.reached.tail (.insert hpi)
  have hst : Tracked d start validEnds { st with ledger := st.ledger.insert pi } :=
    ⟨hreached, h.record, h.searched,
      List.forall_mem_append.mpr ⟨h.sought, List.forall_mem_singleton.mpr hsought⟩⟩
  exact hst.note ⟨hreached, trivial⟩

theorem Tracked.removeOldest (h : Tracked d start validEnds st)
    (hfront : st.ledger.allPaths = pi :: rest) :
    Tracked d start validEnds (st.removeOldest pi rest) := by
  have hreached := h.reached.tail (.remove hfront)
  have hbefore : Tracked d start validEnds (st.note (.removing pi)) :=
    h.note ⟨h.reached, rest, hfront⟩
  have hst : Tracked d start validEnds
      { st.note (.removing pi) with ledger := st.ledger.remove pi rest } := by
    refine ⟨hreached, hbefore.record, h.searched, fun p hp => h.sought p ?_⟩
    rw [hfront]
    exact List.mem_cons_of_mem pi hp
  exact hst.note ⟨hreached, trivial⟩

theorem unbanned_update {L L' : Ledger} (h : Unbanned L) {f : EdgeFlow → EdgeFlow}
    (hf : ∀ ef, (f ef).banned = ef.banned) {path : List String}
    (hgraph : L'.graph = updatePath f L.graph path) : Unbanned L' := by
  intro e
  rw [hgraph, ← h e]
  exact foldl_updateEdge_proj (π := EdgeFlow.banned) hf _ e

theorem unbanned_insert (h : Unbanned st.ledger) : Unbanned (st.insert pi).ledger :=
  unbanned_update (f := EdgeFlow.allocate 1) h (fun _ => rfl) rfl

theorem unbanned_removeOldest (h : Unbanned st.ledger) :
    Unbanned (st.removeOldest pi rest).ledger :=
  unbanned_update (f := EdgeFlow.release 1) h (fun _ => rfl) rfl

end Tracking

section Construction

variable {d : FlowOptimizationSolver} {start : String} {validEnds : List String} {st : State}

/-- The number of paths to each destination is at most what the destinations before this
one allow, and `i` more for this one. -/
def Within (d : FlowOptimizationSolver) (before : List String) (end_ : String) (i : ℕ)
    (L : Ledger) : Prop :=
  ∀ x, L.destFlowCount.val x ≤
    ((d.flowsPerDest * before.count x + if x = end_ then i else 0 : ℕ) : ℤ)

theorem Within.insert {before : List String} {end_ : String} {i : ℕ} {L : Ledger}
    {pi : PathWithInfo} (h : Within d before end_ i L) (hdest : pi.dest = end_) :
    Within d before end_ (i + 1) (L.insert pi) := by
  intro x
  have hx := h x
  change (L.destFlowCount.set pi.dest _).val x ≤ _
  subst hdest
  by_cases hne : x = pi.dest
  · subst hne
    rw [if_pos rfl] at hx ⊢
    rw [GoMap.set_val_same]
    push_cast at hx ⊢
    omega
  · rw [if_neg hne] at hx ⊢
    rwa [GoMap.set_val_of_ne _ _ hne]

theorem Within.finish {before : List String} {end_ : String} {i : ℕ} {L : Ledger}
    (h : Within d before end_ i L) (hi : i ≤ d.flowsPerDest) (next : String) :
    Within d (before ++ [end_]) next 0 L := by
  intro x
  apply (h x).trans
  have hcount : (before ++ [end_]).count x = before.count x + if x = end_ then 1 else 0 := by
    rw [List.count_append, List.count_singleton, beq_eq_decide]
    simp only [decide_eq_true_eq, eq_comm (a := x)]
  rw [hcount, Nat.mul_add]
  split
  · omega
  · omega

theorem fillSlots_tracked {before after : List String} {end_ : String}
    (hends : validEnds = before ++ end_ :: after) (left : ℕ) {i : ℕ} (hi : i ≤ d.flowsPerDest)
    (h : Tracked d start validEnds st) (hban : Unbanned st.ledger)
    (hwithin : Within d before end_ i st.ledger) (next : String) :
    Tracked d start validEnds (d.fillSlots start end_ left i st) ∧
      Unbanned (d.fillSlots start end_ left i st).ledger ∧
      Within d (before ++ [end_]) next 0 (d.fillSlots start end_ left i st).ledger := by
  induction left generalizing i st with
  | zero => exact ⟨h, hban, hwithin.finish hi next⟩
  | succ left ih =>
    unfold FlowOptimizationSolver.fillSlots
    split
    · exact ⟨h, hban, hwithin.finish hi next⟩
    · rename_i hlt
      have hsearch := h.search end_ (d.flowsPerDest * 10 - left)
      simp only
      split
      · exact ⟨⟨h.reached, h.record, hsearch.searched, hsearch.sought⟩, hban,
          hwithin.finish hi next⟩
      · rename_i pi draws hfound
        obtain ⟨hdest, hpi⟩ := findFeasiblePathWithLatency_found (congrArg Prod.fst hfound)
        split
        · exact ih hi ⟨h.reached, h.record, hsearch.searched, hsearch.sought⟩ hban hwithin
        · rename_i hfresh
          have hroom : st.ledger.destFlowCount.val pi.dest <
              (d.flowsPerDest * validEnds.count pi.dest : ℕ) := by
            have hx := hwithin pi.dest
            rw [if_pos hdest] at hx
            have hcount : before.count pi.dest + 1 ≤ validEnds.count pi.dest := by
              rw [hends, hdest, List.count_append, List.count_cons_self]
              omega
            have hmul := Nat.mul_le_mul_left d.flowsPerDest hcount
            rw [Nat.mul_add] at hmul
            omega
          have hadmitted : Admitted d start validEnds st.ledger pi :=
            ⟨hpi, Bool.eq_false_iff.mpr hfresh, by rw [hends, hdest]; simp, hroom⟩
          exact ih (by omega)
            (Tracked.insert ⟨h.reached, h.record, hsearch.searched, hsearch.sought⟩ hadmitted
              (sought_search hadmitted (congrArg Prod.fst hfound)))
            (unbanned_insert hban) (hwithin.insert hdest)

theorem initialPaths_tracked {before after : List String} (hends : validEnds = before ++ after)
    (h : Tracked d start validEnds st) (hban : Unbanned st.ledger)
    (hwithin : ∀ next, Within d before next 0 st.ledger) :
    Tracked d start validEnds (d.initialPaths start after st) ∧
      Unbanned (d.initialPaths start after st).ledger := by
  induction after generalizing before st with
  | nil => exact ⟨h, hban⟩
  | cons end_ after ih =>
    have hfill := fillSlots_tracked hends (d.flowsPerDest * 10) (Nat.zero_le _) h hban
      (hwithin end_)
    have hnext : validEnds = (before ++ [end_]) ++ after := by simpa using hends
    exact ih hnext (hfill end_).1 (hfill end_).2.1 fun next => (hfill next).2.2

theorem tracked_start (draws : Draws) : Tracked d start validEnds (d.startState draws) :=
  ⟨.refl, by simp [FlowOptimizationSolver.startState],
    by simp [FlowOptimizationSolver.startState],
    by simp [FlowOptimizationSolver.startState, FlowOptimizationSolver.startLedger]⟩

theorem removePaths_tracked (n : ℕ) (h : Tracked d start validEnds st)
    (hban : Unbanned st.ledger) :
    Tracked d start validEnds (FlowOptimizationSolver.removePaths n st) ∧
      Unbanned (FlowOptimizationSolver.removePaths n st).ledger := by
  induction n generalizing st with
  | zero => exact ⟨h, hban⟩
  | succ n ih =>
    unfold FlowOptimizationSolver.removePaths
    split
    · exact ⟨h, hban⟩
    · rename_i pi rest hfront
      exact ih (h.removeOldest hfront) (unbanned_removeOldest hban)

end Construction

section Iterations

variable {d : FlowOptimizationSolver} {start : String} {validEnds : List String} {st : State}

theorem sameFlows_foldl (b : Bool) (g : ResidualGraph) (es : List (String × String)) :
    SameFlows (es.foldl (updateEdge fun ef => { ef with banned := b }) g) g := by
  refine ⟨foldl_updateEdge_keys es, ?_⟩
  apply foldl_updateEdge_proj
  intro ef
  rfl

theorem SameFlows.trans {g g' g'' : ResidualGraph} (h : SameFlows g g') (h' : SameFlows g' g'') :
    SameFlows g g'' :=
  ⟨h.1.trans h'.1, fun e => (h.2 e).trans (h'.2 e)⟩

theorem Tracked.setGraph {g : ResidualGraph} {accumulator : PathAccumulator} {draws : Draws}
    (h : Tracked d start validEnds st) (hg : SameFlows g st.ledger.graph) :
    Tracked d start validEnds
      { st with ledger := { st.ledger with graph := g }, accumulator, draws } :=
  ⟨h.reached.tail (.ban hg), h.record, h.searched, h.sought⟩

theorem banEdges_tracked {oldest : PathWithInfo} (h : Tracked d start validEnds st) :
    Tracked d start validEnds (FlowOptimizationSolver.banEdges oldest st) := by
  apply h.setGraph
  have hpath : ∀ path, SameFlows (banPathEdges st.ledger.graph path) st.ledger.graph :=
    fun path => sameFlows_foldl true _ (steps path)
  have hedge : ∀ g e, SameFlows (banEdge g e) g :=
    fun g e => sameFlows_foldl true g [e]
  have hself : SameFlows st.ledger.graph st.ledger.graph := ⟨rfl, fun _ => rfl⟩
  split
  · split
    · exact (hedge _ _).trans (hpath _)
    · exact (hedge _ _).trans hself
  · split
    · exact hpath _
    · exact hself

theorem unban_tracked (h : Tracked d start validEnds st) :
    Tracked d start validEnds (FlowOptimizationSolver.unban st) ∧
      Unbanned (FlowOptimizationSolver.unban st).ledger := by
  refine ⟨h.setGraph (sameFlows_foldl false _ _), ?_⟩
  intro e
  by_cases he : e ∈ st.ledger.graph.keys
  · exact foldl_updateEdge_holds (Q := fun ef => ef.banned = false) (fun _ => rfl) he he
  · rw [GoMap.absent]
    · rfl
    · change e ∉ (unbanAllEdges st.ledger.graph).keys
      rwa [unbanAllEdges, foldl_updateEdge_keys]

theorem findNewPath_tracked {attempt : ℕ} {ends : List String} (hends : ∀ x ∈ ends, x ∈ validEnds)
    (h : Tracked d start validEnds st) :
    Tracked d start validEnds (d.findNewPath start attempt ends st) := by
  induction ends generalizing st with
  | nil => exact h
  | cons end_ ends ih =>
    have hrest := fun x hx => hends x (List.mem_cons_of_mem end_ hx)
    unfold FlowOptimizationSolver.findNewPath
    split
    · exact ih hrest h
    · rename_i hlt
      have hsearch := h.search end_ attempt
      simp only
      split
      · exact ih hrest ⟨h.reached, h.record, hsearch.searched, hsearch.sought⟩
      · rename_i pi draws hfound
        obtain ⟨hdest, hpi⟩ := findFeasiblePathWithLatency_found (congrArg Prod.fst hfound)
        split
        · exact ih hrest ⟨h.reached, h.record, hsearch.searched, hsearch.sought⟩
        · rename_i hfresh
          have hlisted : pi.dest ∈ validEnds := hdest ▸ hends end_ List.mem_cons_self
          have hroom : st.ledger.destFlowCount.val pi.dest <
              (d.flowsPerDest * validEnds.count pi.dest : ℕ) := by
            have hmul := Nat.mul_le_mul_left d.flowsPerDest (List.count_pos_iff.mpr hlisted)
            rw [hdest] at hmul ⊢
            omega
          have hadmitted : Admitted d start validEnds st.ledger pi :=
            ⟨hpi, Bool.eq_false_iff.mpr hfresh, hlisted, hroom⟩
          have hst := hsearch.insert hadmitted (sought_search hadmitted (congrArg Prod.fst hfound))
          exact ⟨hst.reached, hst.record, hst.searched, hst.sought⟩

theorem subset_findNewPath (attempt : ℕ) (ends : List String) (st : State) :
    st.searches ⊆ (d.findNewPath start attempt ends st).searches := by
  induction ends generalizing st with
  | nil => exact List.Subset.refl _
  | cons end_ ends ih =>
    have hsearch : st.searches ⊆ (st.search end_ attempt).searches := List.subset_append_left _ _
    have hnext : ∀ draws, st.searches ⊆
        (d.findNewPath start attempt ends { st.search end_ attempt with draws }).searches :=
      fun draws => List.Subset.trans hsearch (ih { st.search end_ attempt with draws })
    unfold FlowOptimizationSolver.findNewPath
    split
    · exact ih st
    · simp only
      split
      · exact hnext _
      · split
        · exact hnext _
        · exact hsearch

theorem iteration_tracked {i : ℕ} {oldest : PathWithInfo} {rest : List PathWithInfo}
    (h : Tracked d start validEnds st) (hfront : st.ledger.allPaths = oldest :: rest) :
    Tracked d start validEnds (d.iteration start validEnds i oldest rest st) ∧
      Unbanned (d.iteration start validEnds i oldest rest st).ledger := by
  have hban : Tracked d start validEnds
      (FlowOptimizationSolver.banEdges oldest (st.removeOldest oldest rest)) :=
    banEdges_tracked (h.removeOldest hfront)
  apply unban_tracked
  apply findNewPath_tracked
  · intro x hx
    exact mem_shuffle.mp hx
  · exact ⟨hban.reached, hban.record, hban.searched, hban.sought⟩

theorem subset_iteration (st : State) {i : ℕ} {oldest : PathWithInfo} {rest : List PathWithInfo} :
    st.searches ⊆ (d.iteration start validEnds i oldest rest st).searches := by
  change _ ⊆ (d.findNewPath start (i + 1) _ _).searches
  refine List.Subset.trans ?_ (subset_findNewPath _ _ _)
  exact List.Subset.refl _

theorem iterate_tracked {n i : ℕ} (h : Tracked d start validEnds st) (hban : Unbanned st.ledger)
    (best : List PathWithInfo × ℚ) (hbest : Chosen d start validEnds st.searches best.1) :
    Tracked d start validEnds (d.iterate start validEnds n i st best).1 ∧
      Chosen d start validEnds (d.iterate start validEnds n i st best).1.searches
        (d.iterate start validEnds n i st best).2 := by
  induction n generalizing i st best with
  | zero => exact ⟨h, hbest⟩
  | succ n ih =>
    have hhead : Tracked d start validEnds (st.note .head) := h.note ⟨h.reached, hban⟩
    unfold FlowOptimizationSolver.iterate
    simp only
    split
    · exact ⟨hhead, hbest⟩
    · rename_i oldest rest hfront
      obtain ⟨hnext, hunban⟩ := iteration_tracked (i := i) hhead hfront
      apply ih hnext hunban
      split
      · rename_i hbetter
        exact ⟨hbetter.1, ⟨_, hnext.reached, rfl⟩, hnext.sought⟩
      · refine ⟨hbest.ne_nil, hbest.reached, fun pi hpi => (hbest.sought pi hpi).mono ?_⟩
        exact subset_iteration (st.note .head)

theorem removePaths_searches (n : ℕ) (st : State) :
    (FlowOptimizationSolver.removePaths n st).searches = st.searches := by
  induction n generalizing st with
  | zero => rfl
  | succ n ih =>
    unfold FlowOptimizationSolver.removePaths
    split
    · rfl
    · exact ih _

theorem improve_tracked (h : Tracked d start validEnds st) (hban : Unbanned st.ledger)
    (hpaths : st.ledger.allPaths ≠ []) :
    Tracked d start validEnds (d.improve start validEnds st).1 ∧
      Chosen d start validEnds (d.improve start validEnds st).1.searches
        (d.improve start validEnds st).2 := by
  have hst : ∀ accumulator, Tracked d start validEnds { st with accumulator } :=
    fun _ => ⟨h.reached, h.record, h.searched, h.sought⟩
  obtain ⟨hremoved, hban'⟩ := removePaths_tracked
    (d.beta * st.ledger.allPaths.length).floor.toNat
    (hst (st.ledger.allPaths.foldl PathAccumulator.addPath newPathAccumulator)) hban
  refine iterate_tracked hremoved hban' _ ⟨hpaths, ⟨_, h.reached, rfl⟩, ?_⟩
  rw [removePaths_searches]
  exact h.sought

theorem select_tracked (d : FlowOptimizationSolver) (start : String) (validEnds : List String)
    (draws : Draws) :
    (∀ p ∈ (d.select start validEnds draws).2, Fits d start validEnds p.1 p.2) ∧
      (∀ s ∈ d.searches start validEnds draws, Reached d start validEnds s.ledger) ∧
      ∀ paths, (d.select start validEnds draws).1 = some paths →
        Chosen d start validEnds (d.searches start validEnds draws) paths := by
  have hnone : ∀ next, Within d [] next 0 (d.startState draws).ledger := by
    intro next x
    change (0 : ℤ) ≤ _
    exact Int.natCast_nonneg _
  obtain ⟨hinit, hban⟩ := initialPaths_tracked (List.nil_append validEnds).symm
    (tracked_start draws) build_banned hnone
  unfold FlowOptimizationSolver.select FlowOptimizationSolver.searches
  simp only
  split
  · exact ⟨hinit.record, hinit.searched, fun _ h => absurd h (by simp)⟩
  · rename_i hpaths
    have hrun := improve_tracked hinit hban hpaths
    refine ⟨hrun.1.record, hrun.1.searched, ?_⟩
    intro paths heq
    cases Option.some.inj heq
    exact hrun.2

end Iterations

section Execution

variable {d d' : FlowOptimizationSolver} {start : String} {ends validEnds : List String}
  {draws : Draws} {ans : Except String (List PathInfo)} {record : List (Event × Ledger)}

theorem computeThetaLForDestinations_spec
    (h : d.computeThetaLForDestinations start validEnds = some d') :
    (∃ m, d' = { d with thetaLMap := m }) ∧ ∀ x,
      (x ∈ validEnds ∧ x ∈ d'.thetaLMap.keys ∧
        d.computeThetaL start x = some (d'.thetaLMap.val x)) ∨
      (x ∉ validEnds ∧ (x ∈ d'.thetaLMap.keys ↔ x ∈ d.thetaLMap.keys) ∧
        d'.thetaLMap.val x = d.thetaLMap.val x) := by
  induction validEnds generalizing d with
  | nil =>
    cases Option.some.inj h
    exact ⟨⟨d'.thetaLMap, rfl⟩, fun x => Or.inr ⟨List.not_mem_nil, Iff.rfl, rfl⟩⟩
  | cons end_ rest ih =>
    obtain ⟨next, hnext, hrest⟩ := Option.bind_eq_some_iff.mp h
    obtain ⟨bound, hbound, rfl⟩ := Option.map_eq_some_iff.mp hnext
    obtain ⟨⟨m, rfl⟩, hmap⟩ := ih hrest
    refine ⟨⟨m, rfl⟩, ?_⟩
    intro x
    rcases hmap x with ⟨hx, hkey, hval⟩ | ⟨hx, hkey, hval⟩
    · exact Or.inl ⟨List.mem_cons_of_mem end_ hx, hkey, hval⟩
    · rw [GoMap.mem_set_keys] at hkey
      by_cases hne : x = end_
      · subst hne
        rw [GoMap.set_val_same] at hval
        exact Or.inl ⟨List.mem_cons_self, hkey.mpr (Or.inl rfl), by rw [hval, hbound]⟩
      · rw [GoMap.set_val_of_ne _ _ hne] at hval
        exact Or.inr ⟨by simp [hne, hx], by simpa [hne] using hkey, hval⟩

/-- The parameters that are computed for the destinations. -/
theorem prepare_spec (h : d.prepare start validEnds = some d') :
    (∃ m, d' = { d.withCapacity validEnds with thetaLMap := m }) ∧
      ∀ x ∈ validEnds, d.computeThetaL start x = some (d'.thetaLMap.val x) ∧
        d'.thetaL x = d'.thetaLMap.val x := by
  obtain ⟨hd', hmap⟩ := computeThetaLForDestinations_spec h
  refine ⟨hd', ?_⟩
  intro x hx
  rcases hmap x with ⟨-, hkey, hval⟩ | ⟨hx', -, -⟩
  · exact ⟨hval, if_pos hkey⟩
  · exact absurd hx hx'

/-- An execution fails at once, or it records ledgers that are reached and selects the
paths of one of them. -/
theorem execute_spec (h : d.execute start ends draws = some (ans, record)) :
    (record = [] ∧ ∀ infos, ans ≠ .ok infos) ∨
      ∃ d', d.prepare start (d.validEnds ends) = some d' ∧
        (∀ p ∈ record, Fits d' start (d.validEnds ends) p.1 p.2) ∧
        ∀ infos, ans = .ok infos → ∃ paths,
          Chosen d' start (d.validEnds ends) (d'.searches start (d.validEnds ends) draws) paths ∧
            infos = paths.map PathWithInfo.toPathInfo := by
  unfold FlowOptimizationSolver.execute at h
  split at h
  · cases Option.some.inj h
    exact Or.inl ⟨rfl, by simp⟩
  split at h
  · cases Option.some.inj h
    exact Or.inl ⟨rfl, by simp⟩
  split at h
  · cases Option.some.inj h
    exact Or.inl ⟨rfl, by simp⟩
  · obtain ⟨d', hd', hsel⟩ := Option.map_eq_some_iff.mp h
    have htracked := select_tracked d' start (d.validEnds ends) draws
    refine Or.inr ⟨d', hd', ?_⟩
    split at hsel
    · rename_i record' heq
      rw [heq] at htracked
      cases hsel
      exact ⟨htracked.1, by simp⟩
    · rename_i paths record' heq
      rw [heq] at htracked
      cases hsel
      refine ⟨htracked.1, ?_⟩
      intro infos hinfos
      cases hinfos
      exact ⟨paths, htracked.2.2 paths rfl, rfl⟩

end Execution

end Arcturus.Carousel
