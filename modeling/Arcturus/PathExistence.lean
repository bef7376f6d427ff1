import Arcturus.ShortestSearch

/-!
`findShortestPath` decides whether there is a path. The paths are read off the adjacency map
alone, edge by edge from the start, and may pass any node that is not forbidden. The search
always ends; it fails exactly when there is no such path, and otherwise returns one of them,
without a repeated node, with the sums of its edges.
-/

namespace Arcturus.PathExistence

open IndexedHeap GoMaps KShortest KShortestSolver SearchInvariant ShortestSearch

/-- Edges of the adjacency map one after the other. -/
inductive EdgePath (graph : Graph) : String → List Edge → String → Prop
  | nil (u : String) : EdgePath graph u [] u
  | cons {u v : String} {e : Edge} {es : List Edge} (he : e ∈ graph.val u)
      (h : EdgePath graph e.destinationIp es v) : EdgePath graph u (e :: es) v

/-- A path on which no node is forbidden. -/
def Avoiding (graph : Graph) (forbiddenNodes : Option (List String)) (start end_ : String)
    (es : List Edge) : Prop :=
  EdgePath graph start es end_ ∧ ∀ x ∈ trailHops start es, x ∉ forbiddenNodes.getD []

/-- A returned path that is simple, avoids the forbidden nodes and carries the sums of the
edges on it. -/
structure Answers (ks : KShortestSolver) (graph : Graph) (forbiddenNodes : Option (List String))
    (start end_ : String) (path : Path) (es : List Edge) : Prop where
  avoiding : Avoiding graph forbiddenNodes start end_ es
  hops : path.hops = trailHops start es
  simple : path.hops.Nodup
  cost : path.cost = (es.map ks.weight).sum
  rawRTT : path.rawRTT = ((es.map Edge.latency).sum : ℚ)

section Paths

variable {graph : Graph} {fN : Option (List String)} {start end_ u v : String} {e : Edge}
  {es : List Edge}

theorem forbidden_iff : forbidden fN none u e = true ↔ e.destinationIp ∈ fN.getD [] := by
  cases fN <;> simp [forbidden]

theorem mem_arcs_iff : e ∈ arcs graph fN none u ↔
    e ∈ graph.val u ∧ e.destinationIp ∉ fN.getD [] := by
  simp [arcs, ← forbidden_iff (u := u)]

theorem EdgePath.concat (h : EdgePath graph u es v) (he : e ∈ graph.val v) :
    EdgePath graph u (es ++ [e]) e.destinationIp := by
  induction h with
  | nil u => exact .cons he (.nil _)
  | cons hfirst _ ih => exact .cons hfirst (ih he)

/-- What the search follows is a path that avoids the forbidden nodes. -/
theorem avoiding_of_trail (hstart : start ∉ fN.getD []) (h : Trail graph fN none start es v) :
    Avoiding graph fN start v es := by
  induction h with
  | nil => exact ⟨.nil start, by simpa [trailHops] using hstart⟩
  | snoc _ he ih =>
    obtain ⟨hmem, hallowed⟩ := mem_arcs_iff.mp he
    refine ⟨ih.1.concat hmem, ?_⟩
    rw [trailHops_snoc]
    exact List.forall_mem_append.mpr ⟨ih.2, List.forall_mem_singleton.mpr hallowed⟩

theorem reflTransGen_of_avoiding (h : Avoiding graph fN start end_ es) :
    Relation.ReflTransGen (Arc graph fN none) start end_ := by
  obtain ⟨hpath, havoid⟩ := h
  induction hpath with
  | nil u => exact .refl
  | cons he _ ih =>
    have hrest := (List.forall_mem_cons.mp havoid).2
    have hallowed := hrest _ List.mem_cons_self
    exact .head ⟨_, mem_arcs_iff.mpr ⟨he, hallowed⟩, rfl⟩ (ih hrest)

end Paths

section Search

variable {ks : KShortestSolver} {graph : Graph} {start end_ : String}
  {fN : Option (List String)}

/-- Nothing leads away from the empty name: the queue is empty in the second round. -/
theorem findShortestPath_from_empty (hkeys : "" ∉ graph.keys) (hempty : start = "")
    (hend : end_ ≠ "") : ks.findShortestPath start end_ graph fN none =
      some (.error s!"no path found from {start} to {end_}") := by
  subst hempty
  have hperm := (MinHeap.empty PQNode.cost).toList_push ⟨"", 0, 0⟩
  have hval : graph.val "" = [] := graph.absent "" hkeys
  unfold findShortestPath
  rw [searchLoop]
  cases hp : (initialState "" graph).pq.pop with
  | none => rfl
  | some entry =>
    obtain ⟨u, rest⟩ := entry
    have hpop := ((initialState "" graph).pq.pop_spec hp).1.symm.trans hperm
    have hlen : rest.toList = [] := by
      have hlength := hpop.length_eq
      simpa [MinHeap.toList, MinHeap.empty, vals] using hlength
    have hu : u.val = ⟨"", 0, 0⟩ := by
      have hmem := hpop.mem_iff.mp List.mem_cons_self
      simpa [MinHeap.toList, MinHeap.empty, vals] using hmem
    have hnone : rest.pop = none := (rest.pop_eq_none_iff).mpr hlen
    have hdist : (initialState "" graph).dist "" = 0 := by simp [initialState]
    simp [hu, hdist, hend.symm, hval, searchLoop, hnone]

theorem eq_empty_of_avoiding {es : List Edge} (hkeys : "" ∉ graph.keys)
    (h : Avoiding graph fN "" end_ es) : end_ = "" := by
  cases h.1 with
  | nil => rfl
  | cons he _ =>
    rw [graph.absent "" hkeys] at he
    exact absurd he List.not_mem_nil

/-- The search ends with an answer or with the error, and the error means that there is no
path. -/
theorem findShortestPath_cases (hweight : ∀ u, ∀ e ∈ graph.val u, 0 ≤ ks.weight e)
    (hkeys : "" ∉ graph.keys) (hdest : ∀ u, ∀ e ∈ graph.val u, e.destinationIp ≠ "")
    (hname : start ≠ "" ∨ end_ ≠ "") (hstart : start ∉ fN.getD []) :
    (∃ path es, ks.findShortestPath start end_ graph fN none = some (.ok path) ∧
      Answers ks graph fN start end_ path es) ∨
    (ks.findShortestPath start end_ graph fN none =
      some (.error s!"no path found from {start} to {end_}") ∧
      ¬ ∃ es, Avoiding graph fN start end_ es) := by
  by_cases hempty : start = ""
  · subst hempty
    have hend : end_ ≠ "" := hname.resolve_left fun h => h rfl
    refine Or.inr ⟨findShortestPath_from_empty hkeys rfl hend, ?_⟩
    rintro ⟨es, h⟩
    exact hend (eq_empty_of_avoiding hkeys h)
  · rcases findShortestPath_outcome ⟨hweight, hdest, hempty⟩ end_ fN none with
      ⟨path, es, hrun, h⟩ | ⟨hrun, hnone⟩
    · exact Or.inl ⟨path, es, hrun, avoiding_of_trail hstart h.trail, h.hops, h.nodup, h.cost,
        h.rtt⟩
    · refine Or.inr ⟨hrun, ?_⟩
      rintro ⟨es, h⟩
      exact hnone (reflTransGen_of_avoiding h)

theorem findShortestPath_decides (ks : KShortestSolver) (graph : Graph) (start end_ : String)
    (forbiddenNodes : Option (List String))
    (hweight : ∀ u, ∀ e ∈ graph.val u, 0 ≤ ks.weight e)
    (hkeys : "" ∉ graph.keys) (hdest : ∀ u, ∀ e ∈ graph.val u, e.destinationIp ≠ "")
    (hname : start ≠ "" ∨ end_ ≠ "") (hstart : start ∉ forbiddenNodes.getD []) :
    (ks.findShortestPath start end_ graph forbiddenNodes none =
        some (.error s!"no path found from {start} to {end_}") ↔
      ¬ ∃ es, Avoiding graph forbiddenNodes start end_ es) ∧
    ((∃ es, Avoiding graph forbiddenNodes start end_ es) →
      ∃ path es, ks.findShortestPath start end_ graph forbiddenNodes none = some (.ok path) ∧
        Answers ks graph forbiddenNodes start end_ path es) := by
  rcases findShortestPath_cases hweight hkeys hdest hname hstart with
    ⟨path, es, hrun, h⟩ | ⟨hrun, hnone⟩
  · refine ⟨?_, fun _ => ⟨path, es, hrun, h⟩⟩
    rw [hrun]
    constructor
    · intro herror
      cases herror
    · intro hnone
      exact absurd ⟨es, h.avoiding⟩ hnone
  · exact ⟨iff_of_true hrun hnone, fun hpath => absurd hpath hnone⟩

def sampleDetour : KShortestSolver :=
  newKShortestSolver
    [{ sourceIp := "A", destinationIp := "B", edgeWeight := 1, latency := 1 },
      { sourceIp := "B", destinationIp := "D", edgeWeight := 1, latency := 1 },
      { sourceIp := "A", destinationIp := "C", edgeWeight := 2, latency := 3 },
      { sourceIp := "C", destinationIp := "D", edgeWeight := 2, latency := 3 },
      { sourceIp := "D", destinationIp := "A", edgeWeight := 0, latency := 1 }] 1

theorem sampleDetour_val (u : String) :
    sampleDetour.buildGraph.val u = sampleDetour.edges.filter fun e => e.sourceIp == u := by
  rw [buildGraph, GoMap.foldl_group_val]
  rfl

theorem sampleDetour_avoids :
    ∃ path es, sampleDetour.findShortestPath "A" "D" sampleDetour.buildGraph (some ["B"]) none =
        some (.ok path) ∧
      Answers sampleDetour sampleDetour.buildGraph (some ["B"]) "A" "D" path es := by
  have hmem : ∀ u, ∀ e ∈ sampleDetour.buildGraph.val u, e ∈ sampleDetour.edges := by
    intro u e he
    rw [sampleDetour_val] at he
    exact List.mem_of_mem_filter he
  have hweight : ∀ e ∈ sampleDetour.edges, 0 ≤ sampleDetour.weight e := by decide +kernel
  have hdest : ∀ e ∈ sampleDetour.edges, e.destinationIp ≠ "" := by decide +kernel
  refine (findShortestPath_decides sampleDetour sampleDetour.buildGraph "A" "D" (some ["B"])
    (fun u e he => hweight e (hmem u e he)) (by decide +kernel)
    (fun u e he => hdest e (hmem u e he)) (Or.inl (by decide)) (by decide)).2 ?_
  refine ⟨(sampleDetour.edges.drop 2).take 2, .cons ?_ (.cons ?_ (.nil _)), by decide +kernel⟩
  · rw [sampleDetour_val]
    decide +kernel
  · rw [sampleDetour_val]
    decide +kernel

end Search

end Arcturus.PathExistence
