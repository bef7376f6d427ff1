import Arcturus.YenRounds

/-!
The second metric of Yen's algorithm. The searches compare weights only, but each path carries
its latency along: through the labels of a search, from the root and the spur path to the
candidate, and through the queue. All found paths have the latency of their own edges.
-/

namespace Arcturus.RouteLatencies

open IndexedHeap GoMaps GoStrings KShortest KShortestSolver SimplePaths SearchInvariant
open ShortestSearch RouteGraph SpurSearch SpurStep YenRounds Deviation

variable {N : Network} {start end_ : String}

/-- A search on edges of the table returns the latency of its path. -/
theorem findShortestPath_latency {g : Graph} (hg : N.Within g) {s : String} (hs : s ≠ "")
    {fN fE : Option (List String)} {path : Path}
    (h : (N.solver 1).findShortestPath s end_ g fN fE = some (.ok path)) :
    path.rawRTT = (N.routeLatency path.hops : ℚ) := by
  rcases findShortestPath_outcome (hg.admissible 1 hs) end_ fN fE with
    ⟨path', es, hrun, hret⟩ | ⟨hrun, -⟩
  · rw [h] at hrun
    cases hrun
    rw [hret.rtt, hret.hops, trail_latency hg hret.trail]
  · rw [h] at hrun
    cases hrun

theorem routeLatency_splice (r : List String) (s : String) (l : List String) :
    N.routeLatency (r ++ s :: l) = N.routeLatency (r ++ [s]) + N.routeLatency (s :: l) :=
  pathSum_append N.hopLatency r s l

/-- The entries of the queue carry the latencies of the routes they name. -/
def Timed (N : Network) (start end_ : String) (B : PriorityQueue) : Prop :=
  ∀ x ∈ B.toList, ∃ q, N.IsRoute start end_ q ∧ x.node = routeName q ∧
    x.rawRTT = (N.routeLatency q : ℚ)

theorem timed_empty : Timed N start end_ (MinHeap.empty PQNode.cost) := by
  intro x hx
  simp [MinHeap.toList, MinHeap.empty, vals] at hx

theorem Timed.pushCandidate {B : PriorityQueue} (h : Timed N start end_ B) (A : List Path)
    {path : Path} (hroute : N.IsRoute start end_ path.hops)
    (hrtt : path.rawRTT = (N.routeLatency path.hops : ℚ)) :
    Timed N start end_ (pushCandidate A path B) := by
  unfold KShortestSolver.pushCandidate
  split
  · exact h
  split
  · exact h
  · intro x hx
    rcases List.mem_cons.mp ((B.toList_push _).mem_iff.mp hx) with rfl | hx
    · exact ⟨path.hops, hroute, rfl, hrtt⟩
    · exact h x hx

/-- A candidate has the latency of the root and that of the spur path. -/
theorem spurStep_timed {k : ℤ} {A : List Path}
    (hA : ∀ p ∈ A.map Path.hops, N.IsRoute start end_ p) {p : List String}
    (hp : p ∈ A.map Path.hops) {j : ℕ} (hj : j < p.length - 1) {B : PriorityQueue}
    (h : Timed N start end_ B) {st' : YenState}
    (hstep : (N.solver k).spurStep end_ A p ⟨N.graph, B⟩ j = some st') :
    Timed N start end_ st'.B := by
  obtain ⟨r, s, rest, rfl, rfl, hrest⟩ := exists_split hj
  rcases spurStep_eq k hA hp hrest B with ⟨path, hrun, hres, heq⟩ | ⟨-, heq⟩
  · rw [heq] at hstep
    cases hstep
    refine h.pushCandidate A hres.leaves.1 ?_
    obtain ⟨⟨l, hl⟩, -⟩ := exists_cons_of_spurResult hres
    obtain ⟨y, hlink⟩ := exists_link_of_rootOf (hA _ hp) (rootOf_snoc hrest)
    have hspur := findShortestPath_latency within_spurGraph (N.name_ok_of_link hlink).1.1 hrun
    change (N.routeLatency (r ++ [s]) : WithTop ℚ) + path.rawRTT =
      (N.routeLatency (r ++ path.hops) : ℚ)
    rw [hspur, hl, routeLatency_splice r s l, WithTop.coe_add]
  · rw [heq] at hstep
    cases hstep
    exact h

variable {hs : start ≠ ""}

/-- The state of a round in which all entries have their latencies. -/
def TimedState (N : Network) (start end_ : String) (hs : start ≠ "") (found : List (List String))
    (st : YenState) : Prop :=
  RoundState N start end_ hs found st ∧ Timed N start end_ st.B

theorem foldlM_keeps {σ α : Type*} {f : σ → α → Option σ} {P : σ → Prop} {l : List α}
    (hstep : ∀ a ∈ l, ∀ s t, P s → f s a = some t → P t) {s t : σ} (hs : P s)
    (h : l.foldlM f s = some t) : P t := by
  induction l generalizing s with
  | nil =>
    cases h
    exact hs
  | cons a l ih =>
    rw [List.foldlM_cons] at h
    obtain ⟨s₁, hf, hrest⟩ := Option.bind_eq_some_iff.mp h
    exact ih (fun b hb => hstep b (List.mem_cons_of_mem _ hb))
      (hstep a List.mem_cons_self s s₁ hs hf) hrest

theorem spurRound_timed (hname : ¬ Contains start "->") {A : List Path}
    (hA : ∀ p ∈ A.map Path.hops, N.IsRoute start end_ p) {st st' : YenState}
    (hst : TimedState N start end_ hs (A.map Path.hops) st)
    (hround : (N.solver 1).spurRound end_ A st = some st') :
    TimedState N start end_ hs (A.map Path.hops) st' := by
  refine foldlM_keeps (fun p hp st₁ st₂ hst₁ hpath => ?_) hst hround
  refine foldlM_keeps (fun j hj st₃ st₄ hst₃ hstep => ?_) hst₁ hpath
  have hmem := List.mem_map_of_mem (f := Path.hops) hp
  have hlt := List.mem_range.mp hj
  obtain ⟨st₅, hrun, hstate, -, -⟩ := spurStep_round hname 1 hA hmem hlt hst₃.1
  rw [hstep] at hrun
  cases hrun
  obtain ⟨graphCopy, B⟩ := st₃
  obtain ⟨⟨rfl, -⟩, htimed⟩ := hst₃
  exact ⟨hstate, spurStep_timed hA hmem hlt htimed hstep⟩

/-- Along every run the found paths and the entries of the queue have their latencies. -/
theorem run_latency (hs : start ≠ "") (hname : ¬ Contains start "->") {A : List Path}
    {st : YenState} (h : Run N start end_ A st) : Timed N start end_ st.B ∧
      ∀ p ∈ A, p.rawRTT = (N.routeLatency p.hops : ℚ) := by
  induction h with
  | @first path hrun =>
    refine ⟨timed_empty, fun p hp => ?_⟩
    rw [List.mem_singleton] at hp
    subst hp
    rcases @firstSearch_cases N start end_ hs with ⟨path', hrun', hres⟩ | ⟨⟨err, hrun'⟩, -⟩
    · rw [hrun] at hrun'
      cases hrun'
      change path.rawRTT = (N.routeLatency (removeConsecutiveDuplicates path.hops) : ℚ)
      rw [removeConsecutiveDuplicates_of_nodup hres.route.nodup]
      exact findShortestPath_latency N.within_graph hs hrun
    · rw [hrun] at hrun'
      cases hrun'
  | @next A A' st st' hA hr ih =>
    obtain ⟨htimed, hlatency⟩ := ih
    have hinv : YenInv N start end_ hs A st := hA.inv hname
    obtain ⟨mid, x, B, hround, hpop, -, rfl, rfl⟩ := hr
    have hmid := spurRound_timed hname hinv.route ⟨hinv.state, htimed⟩ hround
    have hperm := (mid.B.pop_spec hpop).1
    obtain ⟨q, hroute, hnode, hrtt⟩ := hmid.2 x.val (hperm.mem_iff.mpr List.mem_cons_self)
    refine ⟨fun y hy => hmid.2 y (hperm.mem_iff.mpr (List.mem_cons_of_mem _ hy)), ?_⟩
    refine List.forall_mem_append.mpr ⟨hlatency, List.forall_mem_singleton.mpr ?_⟩
    have hhops : (poppedPath x.val).hops = q := by
      rw [poppedPath, hnode, split_routeName hname hroute,
        removeConsecutiveDuplicates_of_nodup hroute.nodup]
    rw [hhops]
    exact hrtt

end Arcturus.RouteLatencies
