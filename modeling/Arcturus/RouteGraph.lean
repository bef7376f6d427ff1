import Arcturus.ShortestSearch
import Arcturus.SimplePaths

/-!
Edge tables as the graph manager hands them to the solver, the routes they
contain and the weight of a route. The adjacency map that the solver builds
holds exactly the edges of the table, so trails of the search and chains of
links are two readings of the same thing.
-/

namespace Arcturus.RouteGraph

open GoMaps GoStrings KShortest KShortestSolver SimplePaths SearchInvariant ShortestSearch

/-- The weight that counts: the edge weight, or the latency on request. -/
def edgeCost (useLatency : Bool) (e : Edge) : ℚ :=
  if useLatency then e.latency else e.edgeWeight

/-- An edge table with one edge for each ordered pair and usable node names. -/
structure Network where
  edges : List Edge
  useLatency : Bool
  nonneg : ∀ e ∈ edges, 0 ≤ edgeCost useLatency e
  unique : (edges.map fun e => (e.sourceIp, e.destinationIp)).Nodup
  names : ∀ e ∈ edges, ∀ name ∈ [e.sourceIp, e.destinationIp], name ≠ "" ∧ ¬ Contains name "->"

namespace Network

def solver (N : Network) (k : ℤ) : KShortestSolver :=
  newKShortestSolverWithLatency N.edges k N.useLatency

/-- The table has an edge from `a` to `b`. -/
def Link (N : Network) (a b : String) : Prop :=
  ∃ e ∈ N.edges, e.sourceIp = a ∧ e.destinationIp = b

def hopWeight (N : Network) (a b : String) : ℚ :=
  (N.edges.find? fun e => e.sourceIp == a && e.destinationIp == b).elim 0 (edgeCost N.useLatency)

def hopLatency (N : Network) (a b : String) : ℚ :=
  (N.edges.find? fun e => e.sourceIp == a && e.destinationIp == b).elim 0 Edge.latency

/-- The total weight of a route. -/
def routeWeight (N : Network) (hops : List String) : ℚ := pathSum N.hopWeight hops

def routeLatency (N : Network) (hops : List String) : ℚ := pathSum N.hopLatency hops

/-- A route from `start` to `end_` that visits no node twice. -/
def IsRoute (N : Network) (start end_ : String) (hops : List String) : Prop :=
  IsSimplePath N.Link start end_ hops

/-- The adjacency map that `computing` builds. -/
def graph (N : Network) : Graph := (N.solver 1).buildGraph

variable {N : Network}

theorem weight_eq (k : ℤ) (e : Edge) : (N.solver k).weight e = edgeCost N.useLatency e := by
  simp [solver, newKShortestSolverWithLatency, weight, edgeCost]

theorem unique_eq {e f : Edge} (he : e ∈ N.edges) (hf : f ∈ N.edges)
    (hs : e.sourceIp = f.sourceIp) (hd : e.destinationIp = f.destinationIp) : e = f :=
  List.inj_on_of_nodup_map N.unique he hf (by rw [hs, hd])

theorem find_of_mem {e : Edge} (he : e ∈ N.edges) : (N.edges.find? fun f =>
    f.sourceIp == e.sourceIp && f.destinationIp == e.destinationIp) = some e := by
  cases hfind : N.edges.find? fun f =>
      f.sourceIp == e.sourceIp && f.destinationIp == e.destinationIp with
  | none => exact absurd (List.find?_eq_none.mp hfind e he) (by simp)
  | some f =>
    have hprop := List.find?_some hfind
    simp only [Bool.and_eq_true, beq_iff_eq] at hprop
    rw [unique_eq (List.mem_of_find?_eq_some hfind) he hprop.1 hprop.2]

theorem hopWeight_of_mem {e : Edge} (he : e ∈ N.edges) :
    N.hopWeight e.sourceIp e.destinationIp = edgeCost N.useLatency e := by
  unfold hopWeight
  rw [find_of_mem he, Option.elim_some]

theorem routeWeight_nonneg (N : Network) (hops : List String) : 0 ≤ N.routeWeight hops := by
  induction hops with
  | nil => exact le_rfl
  | cons a l ih =>
    cases l with
    | nil => exact le_rfl
    | cons b l =>
      refine add_nonneg ?_ ih
      unfold hopWeight
      cases hfind : N.edges.find? fun e => e.sourceIp == a && e.destinationIp == b with
      | none => exact le_rfl
      | some e => exact N.nonneg e (List.mem_of_find?_eq_some hfind)

theorem hopLatency_of_mem {e : Edge} (he : e ∈ N.edges) :
    N.hopLatency e.sourceIp e.destinationIp = e.latency := by
  unfold hopLatency
  rw [find_of_mem he, Option.elim_some]

theorem finite_routes (N : Network) (start end_ : String) :
    {hops | N.IsRoute start end_ hops}.Finite := by
  apply finite_simplePaths (N.edges.map Edge.destinationIp).toFinset
  intro a b hlink
  obtain ⟨e, he, -, rfl⟩ := hlink
  exact List.mem_toFinset.mpr (List.mem_map_of_mem he)

theorem name_ok_of_link (N : Network) {a b : String} (h : N.Link a b) :
    (a ≠ "" ∧ ¬ Contains a "->") ∧ (b ≠ "" ∧ ¬ Contains b "->") := by
  obtain ⟨e, he, rfl, rfl⟩ := h
  exact ⟨N.names e he _ (by simp), N.names e he _ (by simp)⟩

theorem graph_val (N : Network) (u : String) :
    N.graph.val u = N.edges.filter fun e => e.sourceIp == u := by
  unfold graph
  rw [buildGraph, GoMap.foldl_group_val]
  rfl

theorem mem_graph_val {u : String} {e : Edge} :
    e ∈ N.graph.val u ↔ e ∈ N.edges ∧ e.sourceIp = u := by
  rw [graph_val, List.mem_filter, beq_iff_eq]

theorem mem_keys_of_mem {u : String} {e : Edge} {g : Graph} (h : e ∈ g.val u) : u ∈ g.keys := by
  by_contra hnot
  rw [g.absent u hnot] at h
  exact absurd h List.not_mem_nil

/-- A graph that only lists edges of the table, each under its source. -/
def Within (N : Network) (g : Graph) : Prop :=
  ∀ u, ∀ e ∈ g.val u, e ∈ N.edges ∧ e.sourceIp = u

theorem within_graph (N : Network) : N.Within N.graph := fun _ _ he => mem_graph_val.mp he

theorem Within.admissible {g : Graph} (h : N.Within g) (k : ℤ) {start : String}
    (hs : start ≠ "") : Admissible (N.solver k) g start where
  weight_nonneg := by
    intro u e he
    rw [weight_eq]
    exact N.nonneg e (h u e he).1
  name_ne := fun u e he => (N.names e (h u e he).1 _ (by simp)).1
  start_ne := hs

theorem Within.link {g : Graph} (h : N.Within g) {fN fE : Option (List String)} {u v : String}
    (ha : Arc g fN fE u v) : N.Link u v := by
  obtain ⟨e, he, rfl⟩ := ha
  obtain ⟨hmem, hsrc⟩ := h u e (mem_of_mem_arcs he)
  exact ⟨e, hmem, hsrc, rfl⟩

theorem Within.weight {g : Graph} (h : N.Within g) (k : ℤ) {u : String} {e : Edge}
    (he : e ∈ g.val u) : (N.solver k).weight e = N.hopWeight u e.destinationIp := by
  obtain ⟨hmem, hsrc⟩ := h u e he
  rw [weight_eq, ← hsrc, hopWeight_of_mem hmem]

theorem Within.latency {g : Graph} (h : N.Within g) {u : String} {e : Edge}
    (he : e ∈ g.val u) : e.latency = N.hopLatency u e.destinationIp := by
  obtain ⟨hmem, hsrc⟩ := h u e he
  rw [← hsrc, hopLatency_of_mem hmem]

end Network

section Trails
variable {g : Graph} {fN fE : Option (List String)} {s v : String} {es : List Edge}

theorem trail_getLast (h : Trail g fN fE s es v) : (trailHops s es).getLast? = some v := by
  cases h with
  | nil => rfl
  | snoc _ _ => rw [trailHops_snoc, List.getLast?_concat]

theorem trail_chain (h : Trail g fN fE s es v) : (trailHops s es).IsChain (Arc g fN fE) := by
  induction h with
  | nil => simp [trailHops]
  | snoc ht he ih =>
    rw [trailHops_snoc, List.isChain_append]
    refine ⟨ih, by simp, ?_⟩
    intro a ha b hb
    rw [Option.mem_def, trail_getLast ht, Option.some.injEq] at ha
    rw [List.head?_cons, Option.mem_def, Option.some.injEq] at hb
    subst ha hb
    exact ⟨_, he, rfl⟩

theorem trail_reflTransGen (h : Trail g fN fE s es v) :
    Relation.ReflTransGen (Arc g fN fE) s v := by
  induction h with
  | nil => exact Relation.ReflTransGen.refl
  | snoc _ he ih => exact ih.tail ⟨_, he, rfl⟩

/-- Every chain of usable edges is the node list of a trail. -/
theorem exists_trail_of_chain {l : List String} (h : (s :: l).IsChain (Arc g fN fE)) :
    ∃ es, trailHops s es = s :: l ∧ Trail g fN fE s es ((s :: l).getLast (by simp)) := by
  induction l using List.reverseRecOn with
  | nil => exact ⟨[], rfl, Trail.nil⟩
  | append_singleton l b ih =>
    rw [← List.cons_append, List.isChain_append] at h
    obtain ⟨es, hes, ht⟩ := ih h.1
    obtain ⟨e, he, hdst⟩ := h.2.2 _ (List.getLast?_eq_some_getLast (by simp)) b rfl
    refine ⟨es ++ [e], ?_, ?_⟩
    · rw [trailHops_snoc, hes, hdst]
      rfl
    · have hstep := ht.snoc he
      rw [hdst] at hstep
      simpa using hstep

/-- A sum over the edges of a trail is one over the pairs of its nodes. -/
theorem trail_pathSum {f : Edge → ℚ} {w : String → String → ℚ}
    (hf : ∀ u, ∀ e ∈ g.val u, f e = w u e.destinationIp) (h : Trail g fN fE s es v) :
    (es.map f).sum = pathSum w (trailHops s es) := by
  induction h with
  | nil => simp [trailHops, pathSum]
  | @snoc fs u e ht he ih =>
    obtain ⟨l, hl⟩ : ∃ l, trailHops s fs = l ++ [u] :=
      ⟨_, (List.dropLast_append_getLast? u (trail_getLast ht)).symm⟩
    rw [hl] at ih
    rw [trailHops_snoc, hl, List.append_assoc, List.singleton_append, pathSum_append]
    simp only [List.map_append, List.map_cons, List.map_nil, List.sum_append, List.sum_singleton]
    rw [ih, hf u e (mem_of_mem_arcs he)]
    simp [pathSum]

theorem trail_sum {N : Network} (hg : N.Within g) (k : ℤ) (h : Trail g fN fE s es v) :
    (es.map (N.solver k).weight).sum = N.routeWeight (trailHops s es) :=
  trail_pathSum (fun _ _ he => hg.weight k he) h

theorem trail_latency {N : Network} (hg : N.Within g) (h : Trail g fN fE s es v) :
    (es.map Edge.latency).sum = N.routeLatency (trailHops s es) :=
  trail_pathSum (fun _ _ he => hg.latency he) h

/-- The same without the last edge. -/
theorem trail_sum_dropLast {N : Network} (hg : N.Within g) (k : ℤ) (h : Trail g fN fE s es v)
    (hne : es ≠ []) :
    (es.dropLast.map (N.solver k).weight).sum = N.routeWeight (trailHops s es).dropLast := by
  obtain ⟨fs, u, e, rfl, ht, -, -⟩ := h.eq_snoc hne
  rw [List.dropLast_concat, trail_sum hg k ht, trailHops_snoc, List.dropLast_concat]

end Trails

end Arcturus.RouteGraph
