import Mathlib.Logic.Relation
import Mathlib.Data.List.Chain
import Mathlib.Algebra.BigOperators.Group.List.Basic
import Mathlib.Tactic.Linarith
import Arcturus.KShortest

/-!
The loop invariant of `findShortestPath` and what its steps keep. The processed
nodes, those whose neighbours were relaxed, are listed newest first: every label
points to a listed node, queue entries are never cheaper than what was popped,
and every reached node that was not processed has its own entry.
-/

namespace Arcturus.SearchInvariant

open IndexedHeap GoMaps KShortest KShortestSolver

/-- The edges out of a node that the search may use. -/
def arcs (graph : Graph) (fN fE : Option (List String)) (node : String) : List Edge :=
  (graph.val node).filter fun e => !forbidden fN fE node e

def Arc (graph : Graph) (fN fE : Option (List String)) (u v : String) : Prop :=
  ∃ e ∈ arcs graph fN fE u, e.destinationIp = v

/-- Weights are not negative and every name is a real one. -/
structure Admissible (ks : KShortestSolver) (graph : Graph) (start : String) : Prop where
  weight_nonneg : ∀ u, ∀ e ∈ graph.val u, 0 ≤ ks.weight e
  name_ne : ∀ u, ∀ e ∈ graph.val u, e.destinationIp ≠ ""
  start_ne : start ≠ ""

section Search
variable {ks : KShortestSolver} {start end_ : String} {graph : Graph}
  {fN fE : Option (List String)}

def Reached (start : String) (s : SearchState) (v : String) : Prop := v = start ∨ s.prev v ≠ ""

/-- Newest first, every listed node but the start has its predecessor listed earlier. -/
def Rooted (start : String) (prev : String → String) : List String → Prop
  | [] => True
  | u :: rest => u ∉ rest ∧ (u = start ∨ prev u ∈ rest) ∧ Rooted start prev rest

/-- The loop invariant: `settled` are the processed nodes and `c` bounds their cost. -/
structure Inv (ks : KShortestSolver) (start : String) (graph : Graph)
    (fN fE : Option (List String)) (settled : List String) (c : ℚ) (s : SearchState) : Prop where
  nonneg : 0 ≤ c
  start_dist : s.dist start = 0
  start_rtt : s.rawRTT start = 0
  start_prev : s.prev start = ""
  label : ∀ v, s.prev v ≠ "" → ∃ e ∈ arcs graph fN fE (s.prev v), e.destinationIp = v ∧
    s.prev v ∈ settled ∧ s.dist v = s.dist (s.prev v) + ks.weight e ∧
    s.rawRTT v = s.rawRTT (s.prev v) + e.latency
  fresh : ∀ v ∈ allNodes graph, ¬ Reached start s v → s.dist v = ⊤
  settled_le : ∀ v ∈ settled, Reached start s v ∧ s.dist v ≤ c
  queue : ∀ x ∈ s.pq.toList, Reached start s x.node ∧ c ≤ x.cost ∧ s.dist x.node ≤ x.cost ∧
    (x.node ∈ settled → s.dist x.node < x.cost)
  queue_nodup : (s.pq.toList.map fun x => (x.node, x.cost)).Nodup
  rooted : Rooted start s.prev settled

/-- Reached nodes that were not processed still have an entry with their cost. -/
def Pending (s : SearchState) (v : String) : Prop :=
  ∃ x ∈ s.pq.toList, x.node = v ∧ (x.cost : WithTop ℚ) = s.dist v

theorem mem_allNodes_of_mem {u : String} {e : Edge} (h : e ∈ graph.val u) :
    e.destinationIp ∈ allNodes graph := by
  have hu : u ∈ graph.keys := by
    by_contra hnot
    rw [graph.absent u hnot] at h
    exact absurd h List.not_mem_nil
  exact List.mem_append_right _ (List.mem_flatMap.mpr ⟨u, hu, List.mem_map_of_mem h⟩)

theorem mem_of_mem_arcs {u : String} {e : Edge} (h : e ∈ arcs graph fN fE u) :
    e ∈ graph.val u := List.mem_of_mem_filter h

theorem Rooted.congr {prev prev' : String → String} {settled : List String}
    (h : ∀ v ∈ settled, prev v = prev' v) (hr : Rooted start prev settled) :
    Rooted start prev' settled := by
  induction settled with
  | nil => trivial
  | cons u rest ih =>
    obtain ⟨hu, hroot, hrest⟩ := hr
    refine ⟨hu, ?_, ih (fun v hv => h v (List.mem_cons_of_mem _ hv)) hrest⟩
    rw [← h u (List.mem_cons_self ..)]
    exact hroot

theorem initial_inv (ks : KShortestSolver) (start : String) (graph : Graph)
    (fN fE : Option (List String)) :
    Inv ks start graph fN fE [] 0 (initialState start graph) where
  nonneg := le_rfl
  start_dist := by simp [initialState]
  start_rtt := by simp [initialState]
  start_prev := rfl
  label := fun v hv => absurd rfl hv
  fresh := by
    intro v hv hnot
    have hne : v ≠ start := fun he => hnot (Or.inl he)
    simp [initialState, hne, hv]
  settled_le := by simp
  queue := by
    intro x hx
    have hx' := ((MinHeap.empty PQNode.cost).toList_push ⟨start, 0, 0⟩).mem_iff.mp hx
    have heq : x = ⟨start, 0, 0⟩ := by simpa [MinHeap.toList, MinHeap.empty, vals] using hx'
    subst heq
    exact ⟨Or.inl rfl, le_rfl, by simp [initialState], by simp⟩
  queue_nodup := by
    have hperm := (MinHeap.empty PQNode.cost).toList_push ⟨start, 0, 0⟩
    exact ((hperm.map _).nodup_iff).mpr (by simp [MinHeap.toList, MinHeap.empty, vals])
  rooted := trivial

/-- A forbidden edge is skipped, so only the usable ones are relaxed. -/
theorem foldl_relax_eq (u : String) (c : ℚ) (s : SearchState) (es : List Edge) :
    es.foldl (ks.relax fN fE u c) s =
      (es.filter fun e => !forbidden fN fE u e).foldl (ks.relax fN fE u c) s := by
  induction es generalizing s with
  | nil => rfl
  | cons e es ih =>
    by_cases hf : forbidden fN fE u e = true
    · have hskip : ks.relax fN fE u c s e = s := by simp [relax, hf]
      simp [hf, hskip, ih]
    · simp [hf, ih]

theorem foldl_relax_arcs (u : String) (c : ℚ) (s : SearchState) :
    (graph.val u).foldl (ks.relax fN fE u c) s =
      (arcs graph fN fE u).foldl (ks.relax fN fE u c) s := foldl_relax_eq u c s _

/-- Give `v` a new label and queue it. -/
def assign (u v : String) (cost : ℚ) (rtt : WithTop ℚ) (s : SearchState) : SearchState where
  dist := Function.update s.dist v cost
  prev := Function.update s.prev v u
  rawRTT := Function.update s.rawRTT v rtt
  pq := s.pq.push { node := v, cost := cost, rawRTT := 0 }

theorem relax_eq {u : String} {e : Edge} (he : e ∈ arcs graph fN fE u) (c : ℚ) (s : SearchState) :
    ks.relax fN fE u c s e =
      if ((c + ks.weight e : ℚ) : WithTop ℚ) < s.dist e.destinationIp then
        assign u e.destinationIp (c + ks.weight e) (s.rawRTT u + e.latency) s
      else s := by
  have hok : forbidden fN fE u e = false := by simpa [arcs] using (List.mem_filter.mp he).2
  simp [relax, hok, assign]

theorem mem_assign_queue {u v : String} {cost : ℚ} {rtt : WithTop ℚ} {s : SearchState}
    {x : PQNode} : x ∈ (assign u v cost rtt s).pq.toList ↔
      x = { node := v, cost := cost, rawRTT := 0 } ∨ x ∈ s.pq.toList := by
  unfold assign
  rw [(s.pq.toList_push _).mem_iff, List.mem_cons]

theorem reached_assign_iff {u v w : String} {cost : ℚ} {rtt : WithTop ℚ} {s : SearchState}
    (hu : u ≠ "") : Reached start (assign u v cost rtt s) w ↔ w = v ∨ Reached start s w := by
  by_cases hw : w = v
  · subst hw
    simp [Reached, assign, hu]
  · simp [Reached, assign, hw]

/-- A node that can get a better label was not processed. -/
theorem notMem_settled_of_lt {settled : List String} {c w : ℚ} {s : SearchState} {v : String}
    (h : Inv ks start graph fN fE settled c s) (hw : 0 ≤ w)
    (hlt : ((c + w : ℚ) : WithTop ℚ) < s.dist v) : v ∉ settled := by
  intro hv
  have hlt' := WithTop.coe_lt_coe.mp (hlt.trans_le (h.settled_le v hv).2)
  linarith

theorem assign_of_ne {u v w : String} {cost : ℚ} {rtt : WithTop ℚ} {s : SearchState}
    (hw : w ≠ v) : (assign u v cost rtt s).dist w = s.dist w ∧
      (assign u v cost rtt s).prev w = s.prev w ∧
      (assign u v cost rtt s).rawRTT w = s.rawRTT w := by
  simp [assign, hw]

section Assign

variable {settled : List String} {u : String} {c : ℚ} {s : SearchState} {e : Edge}

/-- The start keeps its label. -/
theorem start_ne_of_lt (h : Inv ks start graph fN fE settled c s) (hw : 0 ≤ ks.weight e)
    (hlt : ((c + ks.weight e : ℚ) : WithTop ℚ) < s.dist e.destinationIp) :
    start ≠ e.destinationIp := by
  intro heq
  rw [← heq, h.start_dist] at hlt
  have hneg : c + ks.weight e < 0 := WithTop.coe_lt_coe.mp hlt
  have hnonneg := h.nonneg
  linarith

/-- The new label comes over the edge, and the others from nodes that keep theirs. -/
theorem assign_label (h : Inv ks start graph fN fE settled c s) (hu : u ∈ settled)
    (hdist : s.dist u = c) (he : e ∈ arcs graph fN fE u) (hnew : e.destinationIp ∉ settled) :
    let t := assign u e.destinationIp (c + ks.weight e) (s.rawRTT u + e.latency) s
    ∀ v, t.prev v ≠ "" → ∃ e' ∈ arcs graph fN fE (t.prev v), e'.destinationIp = v ∧
      t.prev v ∈ settled ∧ t.dist v = t.dist (t.prev v) + ks.weight e' ∧
      t.rawRTT v = t.rawRTT (t.prev v) + e'.latency := by
  intro t v hv
  have hsettled : ∀ v ∈ settled, v ≠ e.destinationIp := fun v hv heq => hnew (heq ▸ hv)
  by_cases hve : v = e.destinationIp
  · subst hve
    obtain ⟨hd, -, hr⟩ : t.dist u = s.dist u ∧ t.prev u = s.prev u ∧ t.rawRTT u = s.rawRTT u :=
      assign_of_ne (hsettled u hu)
    have hprev : t.prev e.destinationIp = u := by simp [t, assign]
    rw [hprev, hd, hr, hdist]
    exact ⟨e, he, rfl, hu, by simp [t, assign], by simp [t, assign]⟩
  · obtain ⟨hd, hp, hr⟩ : t.dist v = s.dist v ∧ t.prev v = s.prev v ∧ t.rawRTT v = s.rawRTT v :=
      assign_of_ne hve
    rw [hp] at hv ⊢
    obtain ⟨e', he', hdst, hmem, hdist', hrtt⟩ := h.label v hv
    obtain ⟨hd', -, hr'⟩ : t.dist (s.prev v) = s.dist (s.prev v) ∧ _ ∧
        t.rawRTT (s.prev v) = s.rawRTT (s.prev v) := assign_of_ne (hsettled _ hmem)
    rw [hd, hr, hd', hr']
    exact ⟨e', he', hdst, hmem, hdist', hrtt⟩

/-- The entries of the node with the new label are stale now, but for the new one. -/
theorem assign_queue (h : Inv ks start graph fN fE settled c s) (hune : u ≠ "")
    (hw : 0 ≤ ks.weight e)
    (hlt : ((c + ks.weight e : ℚ) : WithTop ℚ) < s.dist e.destinationIp) (rtt : WithTop ℚ) :
    let t := assign u e.destinationIp (c + ks.weight e) rtt s
    ∀ x ∈ t.pq.toList, Reached start t x.node ∧ c ≤ x.cost ∧ t.dist x.node ≤ x.cost ∧
      (x.node ∈ settled → t.dist x.node < x.cost) := by
  intro t x hx
  have hnew := notMem_settled_of_lt h hw hlt
  rw [reached_assign_iff hune]
  rcases mem_assign_queue.mp hx with rfl | hx
  · exact ⟨Or.inl rfl, by linarith, by simp [t, assign], fun hs => absurd hs hnew⟩
  · obtain ⟨hr, hc, hd, hs⟩ := h.queue x hx
    by_cases hxe : x.node = e.destinationIp
    · refine ⟨Or.inr hr, hc, ?_, fun hmem => absurd (hxe ▸ hmem) hnew⟩
      rw [hxe] at hd ⊢
      simpa [t, assign] using (hlt.trans_le hd).le
    · have hkept : t.dist x.node = s.dist x.node := (assign_of_ne hxe).1
      rw [hkept]
      exact ⟨Or.inr hr, hc, hd, hs⟩

theorem assign_queue_nodup (h : Inv ks start graph fN fE settled c s)
    (hlt : ((c + ks.weight e : ℚ) : WithTop ℚ) < s.dist e.destinationIp) (rtt : WithTop ℚ) :
    ((assign u e.destinationIp (c + ks.weight e) rtt s).pq.toList.map
      fun x => (x.node, x.cost)).Nodup := by
  have hperm := (s.pq.toList_push ⟨e.destinationIp, c + ks.weight e, 0⟩).map
    (fun x => (x.node, x.cost))
  apply (hperm.nodup_iff).mpr
  rw [List.map_cons, List.nodup_cons]
  refine ⟨?_, h.queue_nodup⟩
  intro hmem
  obtain ⟨x, hx, heq⟩ := List.mem_map.mp hmem
  obtain ⟨hnode, hcost⟩ := Prod.mk.inj heq
  have hle := (h.queue x hx).2.2.1
  rw [hnode, hcost] at hle
  exact absurd hlt (not_lt.mpr hle)

/-- Giving a better label to a node that was not processed keeps the invariant. -/
theorem assign_inv (h : Inv ks start graph fN fE settled c s) (hu : u ∈ settled) (hune : u ≠ "")
    (hdist : s.dist u = c) (he : e ∈ arcs graph fN fE u) (hw : 0 ≤ ks.weight e)
    (hlt : ((c + ks.weight e : ℚ) : WithTop ℚ) < s.dist e.destinationIp) :
    Inv ks start graph fN fE settled c
      (assign u e.destinationIp (c + ks.weight e) (s.rawRTT u + e.latency) s) := by
  have hnew : e.destinationIp ∉ settled := notMem_settled_of_lt h hw hlt
  have hstart := start_ne_of_lt h hw hlt
  have hsettled : ∀ v ∈ settled, v ≠ e.destinationIp := fun v hv heq => hnew (heq ▸ hv)
  refine ⟨h.nonneg, ?_, ?_, ?_, assign_label h hu hdist he hnew, ?_, ?_,
    assign_queue h hune hw hlt _, assign_queue_nodup h hlt _, ?_⟩
  · rw [(assign_of_ne hstart).1, h.start_dist]
  · rw [(assign_of_ne hstart).2.2, h.start_rtt]
  · rw [(assign_of_ne hstart).2.1, h.start_prev]
  · intro v hv hnot
    rw [reached_assign_iff hune, not_or] at hnot
    rw [(assign_of_ne hnot.1).1]
    exact h.fresh v hv hnot.2
  · intro v hv
    rw [reached_assign_iff hune, (assign_of_ne (hsettled v hv)).1]
    exact ⟨Or.inr (h.settled_le v hv).1, (h.settled_le v hv).2⟩
  · exact Rooted.congr (fun v hv => ((assign_of_ne (hsettled v hv)).2.1).symm) h.rooted

end Assign

/-- What relaxing some usable edges of one node guarantees. -/
structure RelaxResult (ks : KShortestSolver) (start : String) (graph : Graph)
    (fN fE : Option (List String)) (settled : List String) (u : String) (c : ℚ) (es : List Edge)
    (s t : SearchState) : Prop where
  inv : Inv ks start graph fN fE settled c t
  dist : t.dist u = c
  mono : ∀ v, Reached start s v → Reached start t v
  prev_or : ∀ v, t.prev v = s.prev v ∨ t.prev v = u
  dist_le : ∀ v, t.dist v ≤ s.dist v
  dist_settled : ∀ v ∈ settled, t.dist v = s.dist v
  far : ∀ e ∈ es, Reached start t e.destinationIp ∧ t.dist e.destinationIp ≤ (c + ks.weight e : ℚ)
  length : t.pq.toList.length ≤ s.pq.toList.length + es.length
  pending : (∀ v, Reached start s v → v ∉ settled → Pending s v) →
    ∀ v, Reached start t v → v ∉ settled → Pending t v

theorem relax_result (ha : Admissible ks graph start) {settled : List String} {u : String} {c : ℚ}
    {s : SearchState} {e : Edge} (h : Inv ks start graph fN fE settled c s) (hu : u ∈ settled)
    (hune : u ≠ "") (hdist : s.dist u = c) (he : e ∈ arcs graph fN fE u) :
    RelaxResult ks start graph fN fE settled u c [e] s (ks.relax fN fE u c s e) := by
  rw [relax_eq he]
  split
  · rename_i hlt
    have hw := ha.weight_nonneg u e (mem_of_mem_arcs he)
    have hsettled : ∀ v ∈ settled, v ≠ e.destinationIp :=
      fun v hv heq => notMem_settled_of_lt h hw hlt (heq ▸ hv)
    refine ⟨assign_inv h hu hune hdist he hw hlt,
      by simp [assign, hsettled u hu, hdist], ?_, ?_, ?_, ?_, ?_, ?_, ?_⟩
    · intro v hv
      exact (reached_assign_iff hune).mpr (Or.inr hv)
    · intro v
      by_cases hve : v = e.destinationIp
      · subst hve
        simp [assign]
      · simp [assign, hve]
    · intro v
      by_cases hve : v = e.destinationIp
      · subst hve
        simpa [assign] using hlt.le
      · simp [assign, hve]
    · intro v hv
      simp [assign, hsettled v hv]
    · intro e' he'
      rw [List.mem_singleton] at he'
      subst he'
      exact ⟨(reached_assign_iff hune).mpr (Or.inl rfl), by simp [assign]⟩
    · unfold assign
      rw [(s.pq.toList_push _).length_eq]
      simp
    · intro hp v hv hns
      by_cases hve : v = e.destinationIp
      · subst hve
        exact ⟨_, mem_assign_queue.mpr (Or.inl rfl), rfl, by simp [assign]⟩
      · have hvs := ((reached_assign_iff hune).mp hv).resolve_left hve
        obtain ⟨x, hx, hnode, hcost⟩ := hp v hvs hns
        exact ⟨x, mem_assign_queue.mpr (Or.inr hx), hnode, by simpa [assign, hve] using hcost⟩
  · rename_i hnot
    refine ⟨h, hdist, fun v hv => hv, fun v => Or.inl rfl, fun v => le_rfl,
      fun v _ => rfl, ?_, by simp, fun hp => hp⟩
    intro e' he'
    rw [List.mem_singleton] at he'
    subst he'
    refine ⟨?_, not_lt.mp hnot⟩
    by_contra hno
    rw [h.fresh _ (mem_allNodes_of_mem (mem_of_mem_arcs he)) hno] at hnot
    exact hnot (WithTop.coe_lt_top _)

theorem relaxAll_result (ha : Admissible ks graph start) {settled : List String} {u : String}
    {c : ℚ} {s : SearchState} (es : List Edge) (h : Inv ks start graph fN fE settled c s)
    (hu : u ∈ settled) (hune : u ≠ "") (hdist : s.dist u = c)
    (he : ∀ e ∈ es, e ∈ arcs graph fN fE u) :
    RelaxResult ks start graph fN fE settled u c es s (es.foldl (ks.relax fN fE u c) s) := by
  induction es generalizing s with
  | nil =>
    exact ⟨h, hdist, fun v hv => hv, fun v => Or.inl rfl, fun v => le_rfl,
      fun v _ => rfl, by simp, by simp, fun hp => hp⟩
  | cons e es ih =>
    have hone := relax_result ha h hu hune hdist (he e (List.mem_cons_self ..))
    have hrest := ih hone.inv hone.dist fun e' he' => he e' (List.mem_cons_of_mem _ he')
    refine ⟨hrest.inv, hrest.dist, fun v hv => hrest.mono v (hone.mono v hv), ?_,
      fun v => (hrest.dist_le v).trans (hone.dist_le v),
      fun v hv => (hrest.dist_settled v hv).trans (hone.dist_settled v hv), ?_, ?_,
      fun hp => hrest.pending (hone.pending hp)⟩
    · intro v
      rcases hrest.prev_or v with heq | heq
      · rw [List.foldl_cons, heq]
        exact hone.prev_or v
      · exact Or.inr heq
    · intro e' he'
      rcases List.mem_cons.mp he' with rfl | he'
      · obtain ⟨hr, hle⟩ := hone.far e' (List.mem_singleton_self _)
        exact ⟨hrest.mono _ hr, (hrest.dist_le _).trans hle⟩
      · exact hrest.far e' he'
    · have h1 := hone.length
      have h2 := hrest.length
      simp only [List.length_cons, List.length_nil, List.foldl_cons] at h1 h2 ⊢
      omega

/-- Dropping the popped entry keeps the invariant for the same processed nodes. -/
theorem drop_inv {settled : List String} {c : ℚ} {s : SearchState} {u : Slot PQNode}
    {rest : PriorityQueue} (h : Inv ks start graph fN fE settled c s)
    (hp : s.pq.pop = some (u, rest)) :
    Inv ks start graph fN fE settled c { s with pq := rest } := by
  have hperm := (s.pq.pop_spec hp).1
  have hmem : ∀ x ∈ rest.toList, x ∈ s.pq.toList := fun x hx =>
    hperm.mem_iff.mpr (List.mem_cons_of_mem _ hx)
  refine ⟨h.nonneg, h.start_dist, h.start_rtt, h.start_prev, h.label, h.fresh, h.settled_le,
    fun x hx => h.queue x (hmem x hx), ?_, h.rooted⟩
  have hnodup := ((hperm.map fun x => (x.node, x.cost)).nodup_iff).mp h.queue_nodup
  exact (List.nodup_cons.mp hnodup).2

theorem drop_pending {s : SearchState} {u : Slot PQNode} {rest : PriorityQueue}
    (hp : s.pq.pop = some (u, rest)) {v : String} (h : Pending s v)
    (hne : u.val.node = v → (u.val.cost : WithTop ℚ) ≠ s.dist v) :
    Pending { s with pq := rest } v := by
  obtain ⟨x, hx, hnode, hcost⟩ := h
  rcases List.mem_cons.mp ((s.pq.pop_spec hp).1.mem_iff.mp hx) with rfl | hx
  · exact absurd hcost (hne hnode)
  · exact ⟨x, hx, hnode, hcost⟩

/-- A stale entry is not the one that a node waits for. -/
theorem drop_pending_of_stale {s : SearchState} {u : Slot PQNode} {rest : PriorityQueue}
    (hp : s.pq.pop = some (u, rest)) (hstale : s.dist u.val.node < u.val.cost) {v : String}
    (h : Pending s v) : Pending { s with pq := rest } v := by
  refine drop_pending hp h ?_
  intro hnode heq
  rw [hnode, ← heq] at hstale
  exact absurd hstale (lt_irrefl _)

/-- A popped entry that is not stale carries the distance of a new node. -/
theorem popped_fresh {settled : List String} {c : ℚ} {s : SearchState} {u : Slot PQNode}
    {rest : PriorityQueue} (h : Inv ks start graph fN fE settled c s)
    (hp : s.pq.pop = some (u, rest)) (hns : ¬ s.dist u.val.node < u.val.cost) :
    s.dist u.val.node = u.val.cost ∧ u.val.node ∉ settled ∧ Reached start s u.val.node := by
  have hmem := (s.pq.pop_spec hp).1.mem_iff.mpr (List.mem_cons_self ..)
  obtain ⟨hr, -, hle, hs⟩ := h.queue u.val hmem
  exact ⟨le_antisymm hle (not_lt.mp hns), fun hin => hns (hs hin), hr⟩

/-- The popped node joins the processed ones, with its cost as the new bound. -/
theorem settle_inv {settled : List String} {c : ℚ} {s : SearchState} {u : Slot PQNode}
    {rest : PriorityQueue} (h : Inv ks start graph fN fE settled c s)
    (hp : s.pq.pop = some (u, rest)) (hns : ¬ s.dist u.val.node < u.val.cost) :
    Inv ks start graph fN fE (u.val.node :: settled) u.val.cost { s with pq := rest } := by
  obtain ⟨hdist, hnew, hreach⟩ := popped_fresh h hp hns
  obtain ⟨hperm, hmin⟩ := s.pq.pop_spec hp
  have hmemu := hperm.mem_iff.mpr (List.mem_cons_self ..)
  have hc : c ≤ u.val.cost := (h.queue u.val hmemu).2.1
  have hnodup := ((hperm.map fun x => (x.node, x.cost)).nodup_iff).mp h.queue_nodup
  rw [List.map_cons, List.nodup_cons] at hnodup
  refine ⟨h.nonneg.trans hc, h.start_dist, h.start_rtt, h.start_prev, ?_, h.fresh, ?_, ?_,
    hnodup.2, ?_⟩
  · intro v hv
    obtain ⟨e, he, hdst, hmem, hrest⟩ := h.label v hv
    exact ⟨e, he, hdst, List.mem_cons_of_mem _ hmem, hrest⟩
  · intro v hv
    rcases List.mem_cons.mp hv with rfl | hv
    · exact ⟨hreach, hdist.le⟩
    · exact ⟨(h.settled_le v hv).1, (h.settled_le v hv).2.trans (WithTop.coe_le_coe.mpr hc)⟩
  · intro x hx
    have hxs := hperm.mem_iff.mpr (List.mem_cons_of_mem _ hx)
    obtain ⟨hr, -, hle, hs⟩ := h.queue x hxs
    refine ⟨hr, hmin x hxs, hle, ?_⟩
    intro hin
    rcases List.mem_cons.mp hin with heq | hin
    · apply lt_of_le_of_ne hle
      intro he
      change s.dist x.node = _ at he
      rw [heq, hdist] at he
      exact hnodup.1 (List.mem_map.mpr ⟨x, hx, by rw [heq, WithTop.coe_inj.mp he]⟩)
    · exact hs hin
  · refine ⟨hnew, ?_, h.rooted⟩
    rcases hreach with hs | hpv
    · exact Or.inl hs
    · obtain ⟨-, -, -, hmem, -⟩ := h.label _ hpv
      exact Or.inr hmem

end Search

end Arcturus.SearchInvariant
