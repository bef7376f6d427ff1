import Arcturus.CarouselSearch

/-!
Changes of the residual graph of the carousel-greedy solver, edge after edge along a
path, and the graph that a run starts with.
-/

namespace Arcturus.Carousel

open GoMaps SimplePaths EdgeLists

section Updates

variable {f : EdgeFlow → EdgeFlow} {g : ResidualGraph}

@[simp] theorem updateEdge_keys (e : String × String) : (updateEdge f g e).keys = g.keys := by
  unfold updateEdge
  split
  · rename_i h
    exact g.set_keys_of_mem _ h
  · rfl

@[simp] theorem foldl_updateEdge_keys (es : List (String × String)) :
    (es.foldl (updateEdge f) g).keys = g.keys := by
  induction es generalizing g with
  | nil => rfl
  | cons e es ih => rw [List.foldl_cons, ih, updateEdge_keys]

theorem updateEdge_val_of_ne {a e : String × String} (h : a ≠ e) :
    (updateEdge f g e).val a = g.val a := by
  unfold updateEdge
  split
  · exact g.set_val_of_ne _ h
  · rfl

theorem updateEdge_val_same {e : String × String} (h : e ∈ g.keys) :
    (updateEdge f g e).val e = f (g.val e) := by
  simp [updateEdge, h]

/-- What no change of an edge touches is as before. -/
theorem foldl_updateEdge_proj {β : Type*} {π : EdgeFlow → β} (hf : ∀ ef, π (f ef) = π ef)
    (es : List (String × String)) (a : String × String) :
    π ((es.foldl (updateEdge f) g).val a) = π (g.val a) := by
  induction es generalizing g with
  | nil => rfl
  | cons e es ih =>
    rw [List.foldl_cons, ih]
    unfold updateEdge
    split
    · by_cases ha : a = e
      · subst ha
        rw [GoMap.set_val_same, hf]
      · rw [GoMap.set_val_of_ne _ _ ha]
    · rfl

theorem foldl_updateEdge_val_of_notMem {es : List (String × String)} {a : String × String}
    (h : a ∉ es) : (es.foldl (updateEdge f) g).val a = g.val a := by
  induction es generalizing g with
  | nil => rfl
  | cons e es ih =>
    rw [List.mem_cons, not_or] at h
    rw [List.foldl_cons, ih h.2, updateEdge_val_of_ne h.1]

theorem foldl_updateEdge_val {es : List (String × String)} (hnodup : es.Nodup)
    {a : String × String} (hkey : a ∈ g.keys) :
    (es.foldl (updateEdge f) g).val a = if a ∈ es then f (g.val a) else g.val a := by
  by_cases h : a ∈ es
  · obtain ⟨before, after, rfl⟩ := List.append_of_mem h
    rw [List.nodup_middle, List.nodup_cons, List.mem_append, not_or] at hnodup
    rw [if_pos h, List.foldl_append, List.foldl_cons, foldl_updateEdge_val_of_notMem hnodup.1.2,
      updateEdge_val_same (by simpa using hkey), foldl_updateEdge_val_of_notMem hnodup.1.1]
  · rw [if_neg h, foldl_updateEdge_val_of_notMem h]

/-- Every listed edge ends as the change leaves it. -/
theorem foldl_updateEdge_holds {Q : EdgeFlow → Prop} (hf : ∀ ef, Q (f ef))
    {es : List (String × String)} {a : String × String} (hkey : a ∈ g.keys) (ha : a ∈ es) :
    Q ((es.foldl (updateEdge f) g).val a) := by
  induction es using List.reverseRecOn with
  | nil => exact absurd ha List.not_mem_nil
  | append_singleton es e ih =>
    rw [List.foldl_append, List.foldl_cons, List.foldl_nil]
    by_cases he : a = e
    · subst he
      rw [updateEdge_val_same (by simpa using hkey)]
      exact hf _
    · rw [updateEdge_val_of_ne he]
      exact ih (by simpa [he] using ha)

end Updates

section Graph

variable {d : FlowOptimizationSolver}

theorem mem_build_keys {e : String × String} :
    e ∈ d.buildResidualGraphWithCapacity.keys ↔ Arc d.edges e.1 e.2 := by
  unfold FlowOptimizationSolver.buildResidualGraphWithCapacity Arc
  rw [GoMap.mem_foldl_set_keys]
  simp [GoMap.empty, Prod.ext_iff]

/-- The state of an edge of the new graph comes from the edge list. -/
theorem build_val {e : String × String} (h : e ∈ d.buildResidualGraphWithCapacity.keys) :
    ∃ e' ∈ d.edges, (e'.sourceIp, e'.destinationIp) = e ∧
      d.buildResidualGraphWithCapacity.val e = d.newEdgeFlow e' := by
  unfold FlowOptimizationSolver.buildResidualGraphWithCapacity at h ⊢
  rw [GoMap.mem_foldl_set_keys] at h
  rcases GoMap.foldl_set_val (fun e : Edge => (e.sourceIp, e.destinationIp)) d.newEdgeFlow d.edges
    GoMap.empty e with hval | ⟨hnone, -⟩
  · exact hval
  · rcases h with h | ⟨e', he', hkey⟩
    · exact absurd h List.not_mem_nil
    · exact absurd hkey (hnone e' he')

theorem build_banned (e : String × String) :
    (d.buildResidualGraphWithCapacity.val e).banned = false := by
  by_cases h : e ∈ d.buildResidualGraphWithCapacity.keys
  · obtain ⟨e', -, -, hval⟩ := build_val h
    rw [hval]
    rfl
  · rw [GoMap.absent _ _ h]
    rfl

end Graph

end Arcturus.Carousel
