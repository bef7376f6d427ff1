import Mathlib.Data.List.Perm.Subperm
import Mathlib.Algebra.BigOperators.Group.List.Basic
import Arcturus.SearchInvariant

/-!
What `findShortestPath` returns. Once the end node has a label the loop only
drains the queue, so it returns along the labels present at that moment: a path
of usable edges without a repeated node and with the right sums. The path is the
cheapest one up to its last edge, which says nothing about the last edge itself:
that one leaves the first neighbour of the end that the queue hands out.
-/

namespace Arcturus.ShortestSearch

open IndexedHeap GoMaps KShortest KShortestSolver SearchInvariant

/-- Edges that lead from `start` to a node, one after the other. -/
inductive Trail (graph : Graph) (fN fE : Option (List String)) (start : String) :
    List Edge → String → Prop
  | nil : Trail graph fN fE start [] start
  | snoc {es : List Edge} {u : String} {e : Edge} : Trail graph fN fE start es u →
      e ∈ arcs graph fN fE u → Trail graph fN fE start (es ++ [e]) e.destinationIp

/-- The nodes a trail visits. -/
def trailHops (start : String) (es : List Edge) : List String :=
  start :: es.map Edge.destinationIp

section Search
variable {ks : KShortestSolver} {start end_ : String} {graph : Graph}
  {fN fE : Option (List String)}

/-- A trail whose sums are the labels of `v` and that the predecessors spell out. -/
structure TrailTo (ks : KShortestSolver) (start : String) (graph : Graph)
    (fN fE : Option (List String)) (s : SearchState) (inside : List String) (v : String)
    (es : List Edge) : Prop where
  trail : Trail graph fN fE start es v
  within : ∀ x ∈ trailHops start es, x ∈ inside
  nodup : (trailHops start es).Nodup
  dist : s.dist v = ((es.map ks.weight).sum : ℚ)
  rtt : s.rawRTT v = ((es.map Edge.latency).sum : ℚ)
  walk : ∀ fuel path, es.length + 2 ≤ fuel →
    buildPath s.prev fuel v path = some (trailHops start es ++ path)

theorem trailHops_snoc (es : List Edge) (e : Edge) :
    trailHops start (es ++ [e]) = trailHops start es ++ [e.destinationIp] := by
  simp [trailHops]

theorem TrailTo.length_lt {s : SearchState} {inside : List String} {v : String} {es : List Edge}
    (h : TrailTo ks start graph fN fE s inside v es) : es.length < inside.length := by
  have hle := (List.Nodup.subperm h.nodup h.within).length_le
  simp only [trailHops, List.length_cons, List.length_map] at hle
  exact hle

theorem trailTo_start (ha : Admissible ks graph start) {settled inside : List String} {c : ℚ}
    {s : SearchState} (h : Inv ks start graph fN fE settled c s) (hin : start ∈ inside) :
    TrailTo ks start graph fN fE s inside start [] := by
  refine ⟨Trail.nil, by simpa [trailHops] using hin, by simp [trailHops], by simp [h.start_dist],
    by simp [h.start_rtt], ?_⟩
  intro fuel path hf
  obtain ⟨fuel, rfl⟩ : ∃ m, fuel = m + 2 := ⟨fuel - 2, by simp at hf; omega⟩
  simp [buildPath, ha.start_ne, h.start_prev, trailHops]

theorem TrailTo.extend (ha : Admissible ks graph start) {inside : List String} {s : SearchState}
    {v : String} {es : List Edge} {e : Edge}
    (h : TrailTo ks start graph fN fE s inside (s.prev v) es)
    (he : e ∈ arcs graph fN fE (s.prev v)) (hdst : e.destinationIp = v)
    (hd : s.dist v = s.dist (s.prev v) + ks.weight e)
    (hr : s.rawRTT v = s.rawRTT (s.prev v) + e.latency) (hv : v ∉ inside) :
    TrailTo ks start graph fN fE s (v :: inside) v (es ++ [e]) := by
  have hname : v ≠ "" := hdst ▸ ha.name_ne _ e (mem_of_mem_arcs he)
  refine ⟨hdst ▸ Trail.snoc h.trail he, ?_, ?_, ?_, ?_, ?_⟩
  · intro x hx
    rw [trailHops_snoc, List.mem_append, List.mem_singleton] at hx
    rcases hx with hx | rfl
    · exact List.mem_cons_of_mem _ (h.within x hx)
    · rw [hdst]
      exact List.mem_cons_self ..
  · rw [trailHops_snoc, List.nodup_append]
    refine ⟨h.nodup, by simp, ?_⟩
    intro a hmem b hb
    rw [List.mem_singleton] at hb
    intro heq
    subst heq
    exact hv (hdst ▸ hb ▸ h.within a hmem)
  · rw [hd, h.dist]
    simp
  · rw [hr, h.rtt]
    simp
  · intro fuel path hf
    rw [List.length_append, List.length_singleton] at hf
    obtain ⟨fuel, rfl⟩ : ∃ m, fuel = m + 1 := ⟨fuel - 1, by omega⟩
    unfold buildPath
    rw [if_neg hname, h.walk fuel (v :: path) (by omega), trailHops_snoc, hdst]
    simp

/-- Every processed node is reached by a trail through processed nodes. -/
theorem exists_trailTo (ha : Admissible ks graph start) {settled : List String} {c : ℚ}
    {s : SearchState} (h : Inv ks start graph fN fE settled c s) (older : List String)
    (hr : Rooted start s.prev older) :
    ∀ v ∈ older, Reached start s v → ∃ es, TrailTo ks start graph fN fE s older v es := by
  induction older with
  | nil => simp
  | cons u rest ih =>
    obtain ⟨hu, hroot, hrest⟩ := hr
    intro v hv hreach
    rcases List.mem_cons.mp hv with rfl | hv
    · by_cases hstart : v = start
      · subst hstart
        exact ⟨[], trailTo_start ha h (List.mem_cons_self ..)⟩
      · obtain ⟨e, he, hdst, hmem, hd, hrtt⟩ := h.label v (hreach.resolve_left hstart)
        obtain ⟨es, hes⟩ := ih hrest (s.prev v) (hroot.resolve_left hstart)
          (h.settled_le _ hmem).1
        exact ⟨es ++ [e], hes.extend ha he hdst hd hrtt hu⟩
    · obtain ⟨es, hes⟩ := ih hrest v hv hreach
      exact ⟨es, hes.trail, fun x hx => List.mem_cons_of_mem _ (hes.within x hx), hes.nodup,
        hes.dist, hes.rtt, hes.walk⟩

/-- The first node with a usable edge to the end that the queue hands out, if the edges out
of every node before it are relaxed. -/
def gateway (ks : KShortestSolver) (end_ : String) (graph : Graph) (fN fE : Option (List String)) :
    ℕ → SearchState → Option String
  | 0, _ => none
  | fuel + 1, s =>
    match s.pq.pop with
    | none => none
    | some (u, pq) =>
      if s.dist u.val.node < (u.val.cost : WithTop ℚ) then
        gateway ks end_ graph fN fE fuel { s with pq }
      else if u.val.node = end_ then none
      else if (arcs graph fN fE u.val.node).any (·.destinationIp == end_) then some u.val.node
      else
        gateway ks end_ graph fN fE fuel
          ((graph.val u.val.node).foldl (ks.relax fN fE u.val.node u.val.cost) { s with pq })

/-- The same for a search from its start. -/
def searchGateway (ks : KShortestSolver) (start end_ : String) (graph : Graph)
    (fN fE : Option (List String)) : Option String :=
  gateway ks end_ graph fN fE (edgeCount graph + 2) (initialState start graph)

/-- What comes before the last edge costs no more than on any other trail to the end. -/
def NearestLast (ks : KShortestSolver) (start end_ : String) (graph : Graph)
    (fN fE : Option (List String)) (c : ℚ) : Prop :=
  ∀ es, es ≠ [] → Trail graph fN fE start es end_ → c ≤ (es.dropLast.map ks.weight).sum

/-- A returned path follows usable edges from start to end without repeating a
node, and carries the sums of their weights and latencies. -/
structure Returned (ks : KShortestSolver) (start end_ : String) (graph : Graph)
    (fN fE : Option (List String)) (gate : Option String) (path : Path) (es : List Edge) :
    Prop where
  trail : Trail graph fN fE start es end_
  hops : path.hops = trailHops start es
  nodup : path.hops.Nodup
  cost : path.cost = (es.map ks.weight).sum
  rtt : path.rawRTT = ((es.map Edge.latency).sum : ℚ)
  nearest : NearestLast ks start end_ graph fN fE (es.dropLast.map ks.weight).sum
  last : end_ = start ∨ ∃ u, gate = some u ∧ Trail graph fN fE start es.dropLast u

theorem trail_sum_nonneg (ha : Admissible ks graph start) {es : List Edge} {v : String}
    (h : Trail graph fN fE start es v) : 0 ≤ (es.map ks.weight).sum := by
  induction h with
  | nil => simp
  | snoc _ he ih =>
    have hw := ha.weight_nonneg _ _ (mem_of_mem_arcs he)
    simp only [List.map_append, List.map_cons, List.map_nil, List.sum_append, List.sum_singleton]
    linarith

/-- A trail that is not empty ends with a usable edge to its end node. -/
theorem Trail.eq_snoc {es : List Edge} {v : String} (h : Trail graph fN fE start es v)
    (hne : es ≠ []) : ∃ fs u e, es = fs ++ [e] ∧ Trail graph fN fE start fs u ∧
      e ∈ arcs graph fN fE u ∧ e.destinationIp = v := by
  cases h with
  | nil => exact absurd rfl hne
  | snoc ht he => exact ⟨_, _, _, rfl, ht, he, rfl⟩

theorem hasDup_of_nodup {hops : List String} (h : hops.Nodup) : hasDup hops = false := by
  induction hops with
  | nil => rfl
  | cons a rest ih =>
    cases rest with
    | nil => rfl
    | cons b rest =>
      rw [List.nodup_cons] at h
      have hab : a ≠ b := by
        intro heq
        subst heq
        exact h.1 (List.mem_cons_self ..)
      simp [hasDup, hab, ih h.2]

variable {gate : Option String}

/-- The label of the end node continues a cheapest way to a neighbour of the end. -/
def NearLabel (ks : KShortestSolver) (start end_ : String) (graph : Graph)
    (fN fE : Option (List String)) (gate : Option String) (s : SearchState) : Prop :=
  end_ = start ∨ gate = some (s.prev end_) ∧
    ∃ c : ℚ, s.dist (s.prev end_) = c ∧ NearestLast ks start end_ graph fN fE c

/-- The trail along the labels of an end node that was not processed. -/
theorem exists_trail_to_end (ha : Admissible ks graph start) {settled : List String} {c : ℚ}
    {s : SearchState} (h : Inv ks start graph fN fE settled c s)
    (hreach : Reached start s end_) (hend : end_ ∉ settled)
    (hnear : NearLabel ks start end_ graph fN fE gate s) :
    ∃ es, TrailTo ks start graph fN fE s (end_ :: settled) end_ es ∧
      NearestLast ks start end_ graph fN fE (es.dropLast.map ks.weight).sum ∧
      (end_ = start ∨ ∃ u, gate = some u ∧ Trail graph fN fE start es.dropLast u) := by
  by_cases hstart : end_ = start
  · subst hstart
    refine ⟨[], trailTo_start ha h (List.mem_cons_self ..), ?_, Or.inl rfl⟩
    intro es hne ht
    obtain ⟨fs, u, e, rfl, hfs, -⟩ := ht.eq_snoc hne
    rw [List.dropLast_concat]
    exact trail_sum_nonneg ha hfs
  · obtain ⟨e, he, hdst, hmem, hd, hrtt⟩ := h.label end_ (hreach.resolve_left hstart)
    obtain ⟨es, hes⟩ := exists_trailTo ha h settled h.rooted _ hmem (h.settled_le _ hmem).1
    obtain ⟨hgate, d, hdist, hbest⟩ := hnear.resolve_left hstart
    rw [hes.dist] at hdist
    refine ⟨es ++ [e], hes.extend ha he hdst hd hrtt hend, ?_, Or.inr ⟨_, hgate, ?_⟩⟩
    · rw [List.dropLast_concat, WithTop.coe_inj.mp hdist]
      exact hbest
    · rw [List.dropLast_concat]
      exact hes.trail

/-- Once the end node is labelled the loop drains the queue down to its entry
and returns the labelled path. -/
theorem searchLoop_returns (ha : Admissible ks graph start) {settled : List String} {c : ℚ}
    (hsize : settled.length ≤ edgeCount graph) (hend : end_ ∉ settled) (fuel : ℕ) :
    ∀ s, Inv ks start graph fN fE settled c s → Reached start s end_ → Pending s end_ →
      NearLabel ks start end_ graph fN fE gate s → s.pq.toList.length ≤ fuel →
      ∃ path es, ks.searchLoop start end_ graph fN fE fuel s = some (.ok path) ∧
        Returned ks start end_ graph fN fE gate path es := by
  induction fuel with
  | zero =>
    intro s h hreach hpend _ hlen
    obtain ⟨x, hx, -⟩ := hpend
    rw [List.length_eq_zero_iff.mp (Nat.le_zero.mp hlen)] at hx
    exact absurd hx List.not_mem_nil
  | succ fuel ih =>
    intro s h hreach hpend hnear hlen
    have hfinite : s.dist end_ ≠ ⊤ := by
      obtain ⟨x, -, -, hcost⟩ := hpend
      rw [← hcost]
      exact WithTop.coe_ne_top
    cases hp : s.pq.pop with
    | none =>
      obtain ⟨x, hx, -⟩ := hpend
      rw [(s.pq.pop_eq_none_iff).mp hp] at hx
      exact absurd hx List.not_mem_nil
    | some entry =>
      obtain ⟨u, rest⟩ := entry
      have hlen' : rest.toList.length ≤ fuel := by
        have := (s.pq.pop_spec hp).1.length_eq
        rw [List.length_cons] at this
        omega
      simp only [searchLoop, hp]
      by_cases hstale : s.dist u.val.node < u.val.cost
      · rw [if_pos hstale]
        exact ih _ (drop_inv h hp) hreach (drop_pending_of_stale hp hstale hpend) hnear hlen'
      · rw [if_neg hstale]
        by_cases hnode : u.val.node = end_
        · rw [if_pos hnode]
          obtain ⟨es, hes, hbest, hlast⟩ := exists_trail_to_end ha h hreach hend hnear
          have hlt := hes.length_lt
          rw [List.length_cons] at hlt
          have hwalk := hes.walk (edgeCount graph + 2) [] (by omega)
          rw [List.append_nil] at hwalk
          rw [hwalk, Option.map_some]
          refine ⟨_, es, rfl, hes.trail, ?_, ?_, ?_, hes.rtt, hbest, hlast⟩
          · simp [hasDup_of_nodup hes.nodup]
          · simpa [hasDup_of_nodup hes.nodup] using hes.nodup
          · have hd := (popped_fresh h hp hstale).1
            rw [hnode, hes.dist] at hd
            exact (WithTop.coe_inj.mp hd).symm
        · rw [if_neg hnode, if_pos hfinite]
          exact ih _ (drop_inv h hp) hreach (drop_pending hp hpend fun he => absurd he hnode)
            hnear hlen'

/-- An end node outside the graph is never queued: the loop drains to the error. -/
theorem searchLoop_absent {settled : List String} {c : ℚ} (fuel : ℕ) :
    ∀ s, Inv ks start graph fN fE settled c s → ¬ Reached start s end_ → s.dist end_ ≠ ⊤ →
      s.pq.toList.length + 1 ≤ fuel →
      ks.searchLoop start end_ graph fN fE fuel s =
        some (.error s!"no path found from {start} to {end_}") := by
  induction fuel with
  | zero =>
    intro s _ _ _ hlen
    exact absurd hlen (by omega)
  | succ fuel ih =>
    intro s h hreach hfinite hlen
    cases hp : s.pq.pop with
    | none => simp only [searchLoop, hp]
    | some entry =>
      obtain ⟨u, rest⟩ := entry
      have hrec := ih { s with pq := rest } (drop_inv h hp) hreach hfinite (by
        have := (s.pq.pop_spec hp).1.length_eq
        rw [List.length_cons] at this
        change rest.toList.length + 1 ≤ fuel
        omega)
      simp only [searchLoop, hp]
      by_cases hstale : s.dist u.val.node < u.val.cost
      · rw [if_pos hstale, hrec]
      · have hnode : u.val.node ≠ end_ := fun he => hreach (he ▸ (popped_fresh h hp hstale).2.2)
        rw [if_neg hstale, if_neg hnode, if_pos hfinite, hrec]

/-- The edges out of nodes that are not processed yet. -/
def unsettledEdges (graph : Graph) (settled : List String) : ℕ :=
  ((graph.keys.filter (· ∉ settled)).map fun node => (graph.val node).length).sum

private theorem sum_filter_notMem_cons (f : String → ℕ) {settled : List String} {u : String}
    (hu : u ∉ settled) (keys : List String) :
    ((keys.filter (· ∉ u :: settled)).map f).sum + (if u ∈ keys then f u else 0) ≤
      ((keys.filter (· ∉ settled)).map f).sum := by
  induction keys with
  | nil => simp
  | cons a keys ih =>
    by_cases hau : a = u
    · subst hau
      rw [List.filter_cons_of_neg (by simp), List.filter_cons_of_pos (by simpa using hu)]
      rw [if_pos (List.mem_cons_self ..), List.map_cons, List.sum_cons]
      omega
    · have hiff : u ∈ a :: keys ↔ u ∈ keys := by simp [Ne.symm hau]
      simp only [hiff]
      by_cases has : a ∈ settled
      · rw [List.filter_cons_of_neg (by simp [has]), List.filter_cons_of_neg (by simp [has])]
        exact ih
      · rw [List.filter_cons_of_pos (by simp [has, hau]), List.filter_cons_of_pos (by simp [has])]
        simp only [List.map_cons, List.sum_cons]
        omega

theorem unsettledEdges_cons {settled : List String} {u : String} (hu : u ∉ settled) :
    unsettledEdges graph (u :: settled) + (graph.val u).length ≤
      unsettledEdges graph settled := by
  have h := sum_filter_notMem_cons (fun node => (graph.val node).length) hu graph.keys
  by_cases hkey : u ∈ graph.keys
  · simpa [unsettledEdges, hkey] using h
  · have hnil : graph.val u = [] := graph.absent u hkey
    simpa [unsettledEdges, hkey, hnil] using h

/-- The outcome of a search: a path, or the error and no way to the end node. -/
def Outcome (ks : KShortestSolver) (start end_ : String) (graph : Graph)
    (fN fE : Option (List String)) (gate : Option String) (result : Option (Except String Path)) :
    Prop :=
  (∃ path es, result = some (.ok path) ∧ Returned ks start end_ graph fN fE gate path es) ∨
    (result = some (.error s!"no path found from {start} to {end_}") ∧
      ¬ Relation.ReflTransGen (Arc graph fN fE) start end_)

/-- The edges out of processed nodes were relaxed. -/
def Relaxed (ks : KShortestSolver) (start : String) (graph : Graph)
    (fN fE : Option (List String)) (settled : List String) (s : SearchState) : Prop :=
  ∀ u ∈ settled, ∀ e ∈ arcs graph fN fE u,
    Reached start s e.destinationIp ∧ s.dist e.destinationIp ≤ s.dist u + ks.weight e

/-- A trail cheaper than the popped entry only reaches processed nodes. -/
theorem trail_bound (ha : Admissible ks graph start) {settled : List String} {c : ℚ}
    {s : SearchState} {u : Slot PQNode} {rest : PriorityQueue}
    (h : Inv ks start graph fN fE settled c s)
    (hpend : ∀ v, Reached start s v → v ∉ settled → Pending s v)
    (hrelaxed : Relaxed ks start graph fN fE settled s) (hp : s.pq.pop = some (u, rest))
    {es : List Edge} {v : String} (ht : Trail graph fN fE start es v) :
    (v ∈ settled ∧ s.dist v ≤ ((es.map ks.weight).sum : ℚ)) ∨
      u.val.cost ≤ (es.map ks.weight).sum := by
  -- A reached node is processed or its own entry was not popped before `u`.
  have hstep : ∀ v (d : ℚ), Reached start s v → s.dist v ≤ d →
      (v ∈ settled ∧ s.dist v ≤ d) ∨ u.val.cost ≤ d := by
    intro v d hv hd
    by_cases hs : v ∈ settled
    · exact Or.inl ⟨hs, hd⟩
    · obtain ⟨x, hx, -, hcost⟩ := hpend v hv hs
      have hmin := (s.pq.pop_spec hp).2 x hx
      rw [← hcost] at hd
      exact Or.inr (hmin.trans (WithTop.coe_le_coe.mp hd))
  induction ht with
  | nil => exact hstep start _ (Or.inl rfl) (by simp [h.start_dist])
  | @snoc fs w e _ he ih =>
    have hw := ha.weight_nonneg _ _ (mem_of_mem_arcs he)
    simp only [List.map_append, List.map_cons, List.map_nil, List.sum_append, List.sum_singleton]
    rcases ih with ⟨hmem, hd⟩ | hle
    · obtain ⟨hr, hle⟩ := hrelaxed w hmem e he
      refine hstep e.destinationIp _ hr (hle.trans ?_)
      rw [WithTop.coe_add]
      exact add_le_add_left hd _
    · exact Or.inr (by linarith)

theorem reached_of_reflTransGen {settled : List String} {s : SearchState}
    (hall : ∀ v, Reached start s v → v ∈ settled)
    (hrelaxed : Relaxed ks start graph fN fE settled s)
    {v : String} (h : Relation.ReflTransGen (Arc graph fN fE) start v) : Reached start s v := by
  induction h with
  | refl => exact Or.inl rfl
  | tail _ harc ih =>
    obtain ⟨e, he, rfl⟩ := harc
    exact (hrelaxed _ (hall _ ih) e he).1

/-- With an empty queue every node that can be reached carries a label. -/
theorem reached_of_empty {settled : List String} {s : SearchState} (hp : s.pq.pop = none)
    (hpend : ∀ v, Reached start s v → v ∉ settled → Pending s v)
    (hrelaxed : Relaxed ks start graph fN fE settled s)
    {v : String} (h : Relation.ReflTransGen (Arc graph fN fE) start v) : Reached start s v := by
  refine reached_of_reflTransGen (fun w hw => ?_) hrelaxed h
  by_contra hns
  obtain ⟨x, hx, -⟩ := hpend w hw hns
  rw [(s.pq.pop_eq_none_iff).mp hp] at hx
  exact absurd hx List.not_mem_nil

theorem mem_allNodes_of_reflTransGen {v : String}
    (h : Relation.ReflTransGen (Arc graph fN fE) start v) : v = start ∨ v ∈ allNodes graph := by
  induction h with
  | refl => exact Or.inl rfl
  | tail _ harc _ =>
    obtain ⟨e, he, rfl⟩ := harc
    exact Or.inr (mem_allNodes_of_mem (mem_of_mem_arcs he))

theorem reached_ne_empty (ha : Admissible ks graph start) {settled : List String} {c : ℚ}
    {s : SearchState} (h : Inv ks start graph fN fE settled c s) {v : String}
    (hv : Reached start s v) : v ≠ "" := by
  rcases hv with rfl | hv
  · exact ha.start_ne
  · obtain ⟨e, he, hdst, -⟩ := h.label v hv
    exact hdst ▸ ha.name_ne _ e (mem_of_mem_arcs he)

/-- No neighbour of an end node without a label is nearer than the popped node. -/
theorem nearestLast_of_popped (ha : Admissible ks graph start) {settled : List String} {c : ℚ}
    {s : SearchState} {u : Slot PQNode} {rest : PriorityQueue}
    (h : Inv ks start graph fN fE settled c s)
    (hpend : ∀ v, Reached start s v → v ∉ settled → Pending s v)
    (hrelaxed : Relaxed ks start graph fN fE settled s) (hp : s.pq.pop = some (u, rest))
    (hreach : ¬ Reached start s end_) : NearestLast ks start end_ graph fN fE u.val.cost := by
  intro es hne ht
  obtain ⟨fs, w, e, rfl, hfs, he, rfl⟩ := ht.eq_snoc hne
  rw [List.dropLast_concat]
  apply (trail_bound ha h hpend hrelaxed hp hfs).resolve_left
  intro hsettled
  obtain ⟨hmem, -⟩ := hsettled
  exact hreach (hrelaxed w hmem e he).1

/-- Relaxing the edges out of the popped node makes it a processed one. -/
theorem relaxed_of_result {settled : List String} {u : String} {c : ℚ} {s t : SearchState}
    (h : RelaxResult ks start graph fN fE (u :: settled) u c (arcs graph fN fE u) s t)
    (hrelaxed : Relaxed ks start graph fN fE settled s) :
    Relaxed ks start graph fN fE (u :: settled) t := by
  intro w hw e he
  rcases List.mem_cons.mp hw with rfl | hw
  · obtain ⟨hr, hle⟩ := h.far e he
    rw [h.dist]
    exact ⟨hr, hle⟩
  · obtain ⟨hr, hle⟩ := hrelaxed w hw e he
    rw [h.dist_settled w (List.mem_cons_of_mem _ hw)]
    exact ⟨h.mono _ hr, (h.dist_le _).trans hle⟩

/-- An end node that gets its label now has it from the popped node, which is the first one
with a usable edge to it. -/
theorem nearLabel_of_result {settled : List String} {u : String} {c : ℚ} {es : List Edge}
    {s t : SearchState} (h : RelaxResult ks start graph fN fE settled u c es s t)
    (hreach : ¬ Reached start s end_) (hnear : NearestLast ks start end_ graph fN fE c)
    (hgate : (arcs graph fN fE u).any (·.destinationIp == end_) → gate = some u)
    (hnow : Reached start t end_) : NearLabel ks start end_ graph fN fE gate t := by
  rcases hnow with hstart | hprev
  · exact Or.inl hstart
  · have hu : t.prev end_ = u := by
      refine (h.prev_or end_).resolve_left fun heq => hreach (Or.inr ?_)
      rw [← heq]
      exact hprev
    obtain ⟨e, he, hdst, -⟩ := h.inv.label end_ hprev
    rw [hu] at he
    refine Or.inr ⟨?_, c, hu ▸ h.dist, hnear⟩
    rw [hu]
    exact hgate (List.any_eq_true.mpr ⟨e, he, beq_iff_eq.mpr hdst⟩)

/-- Until the end node is labelled every pop that is not stale processes a node. -/
theorem searchLoop_outcome (ha : Admissible ks graph start) (fuel : ℕ) :
    ∀ settled c s, Inv ks start graph fN fE settled c s →
      (∀ v, Reached start s v → v ∉ settled → Pending s v) →
      Relaxed ks start graph fN fE settled s →
      end_ ∉ settled → (Reached start s end_ → NearLabel ks start end_ graph fN fE gate s) →
      (¬ Reached start s end_ → gateway ks end_ graph fN fE fuel s = gate) →
      settled.length + s.pq.toList.length + unsettledEdges graph settled ≤ edgeCount graph + 1 →
      s.pq.toList.length + unsettledEdges graph settled + 1 ≤ fuel →
      Outcome ks start end_ graph fN fE gate (ks.searchLoop start end_ graph fN fE fuel s) := by
  induction fuel with
  | zero =>
    intro settled c s _ _ _ _ _ _ _ hfuel
    exact absurd hfuel (by omega)
  | succ fuel ih =>
    intro settled c s h hpend hrelaxed hend hnear hgate hbudget hfuel
    by_cases hreach : Reached start s end_
    · have hp := hpend end_ hreach hend
      have hpos : 0 < s.pq.toList.length := by
        obtain ⟨x, hx, -⟩ := hp
        exact List.length_pos_of_mem hx
      exact Or.inl (searchLoop_returns ha (by omega) hend _ s h hreach hp (hnear hreach)
        (by omega))
    · by_cases hfinite : s.dist end_ ≠ ⊤
      · refine Or.inr ⟨searchLoop_absent _ s h hreach hfinite (by omega), ?_⟩
        intro hpath
        rcases mem_allNodes_of_reflTransGen hpath with heq | hmem
        · exact hreach (Or.inl heq)
        · exact hfinite (h.fresh end_ hmem hreach)
      · cases hp : s.pq.pop with
        | none =>
          exact Or.inr ⟨by simp only [searchLoop, hp],
            fun hpath => hreach (reached_of_empty hp hpend hrelaxed hpath)⟩
        | some entry =>
          obtain ⟨u, rest⟩ := entry
          have hlen : s.pq.toList.length = rest.toList.length + 1 := by
            rw [(s.pq.pop_spec hp).1.length_eq, List.length_cons]
          have hgate := hgate hreach
          simp only [gateway, hp] at hgate
          simp only [searchLoop, hp]
          by_cases hstale : s.dist u.val.node < u.val.cost
          · rw [if_pos hstale]
            rw [if_pos hstale] at hgate
            refine ih settled c { s with pq := rest } (drop_inv h hp) ?_ hrelaxed hend hnear
              (fun _ => hgate) (by change _ + rest.toList.length + _ ≤ _; omega)
              (by change rest.toList.length + _ + _ ≤ _; omega)
            intro v hv hns
            exact drop_pending_of_stale hp hstale (hpend v hv hns)
          · obtain ⟨hdist, hnew, hru⟩ := popped_fresh h hp hstale
            have hnode : u.val.node ≠ end_ := fun he => hreach (he ▸ hru)
            rw [if_neg hstale, if_neg hnode, foldl_relax_arcs] at hgate
            rw [if_neg hstale, if_neg hnode, if_neg hfinite, foldl_relax_arcs]
            have hres := relaxAll_result ha (arcs graph fN fE u.val.node) (settle_inv h hp hstale)
              (List.mem_cons_self ..) (reached_ne_empty ha h hru) hdist fun e he => he
            have hcons : unsettledEdges graph (u.val.node :: settled) + _ ≤ _ :=
              unsettledEdges_cons hnew
            have harcs : (arcs graph fN fE u.val.node).length ≤ (graph.val u.val.node).length :=
              List.length_filter_le ..
            have hq := hres.length
            change _ ≤ rest.toList.length + _ at hq
            generalize (arcs graph fN fE u.val.node).foldl _ _ = t at hres hq hgate ⊢
            refine ih (u.val.node :: settled) u.val.cost _ hres.inv (hres.pending ?_) ?_ ?_ ?_ ?_ ?_
              ?_
            · intro v hv hns
              rw [List.mem_cons, not_or] at hns
              exact drop_pending hp (hpend v hv hns.2) fun he => absurd he.symm hns.1
            · exact relaxed_of_result hres hrelaxed
            · rw [List.mem_cons, not_or]
              exact ⟨hnode.symm, hend⟩
            · refine nearLabel_of_result hres hreach
                (nearestLast_of_popped ha h hpend hrelaxed hp hreach) fun harc => ?_
              rw [← hgate, if_pos harc]
            · intro hfar
              rw [if_neg] at hgate
              · exact hgate
              · intro harc
                obtain ⟨e, he, hdst⟩ := List.any_eq_true.mp harc
                exact hfar (beq_iff_eq.mp hdst ▸ (hres.far e he).1)
            · rw [List.length_cons]
              omega
            · omega

/-- The search always ends, and it fails only when there is no way. -/
theorem findShortestPath_outcome (ha : Admissible ks graph start) (end_ : String)
    (fN fE : Option (List String)) :
    Outcome ks start end_ graph fN fE (searchGateway ks start end_ graph fN fE)
      (ks.findShortestPath start end_ graph fN fE) := by
  have hperm := (MinHeap.empty PQNode.cost).toList_push ⟨start, 0, 0⟩
  have hlen : (initialState start graph).pq.toList.length = 1 := by
    unfold initialState
    rw [hperm.length_eq]
    simp [MinHeap.toList, MinHeap.empty, vals]
  have hedges : unsettledEdges graph [] = edgeCount graph := by simp [unsettledEdges, edgeCount]
  refine searchLoop_outcome ha _ [] 0 _ (initial_inv ..) ?_ (by simp [Relaxed]) (by simp)
    (fun hr => Or.inl (hr.resolve_right fun hne => hne rfl)) (fun _ => rfl) ?_ ?_
  · intro v hv _
    have hstart : v = start := hv.resolve_right fun hne => hne rfl
    subst hstart
    exact ⟨_, hperm.mem_iff.mpr (List.mem_cons_self ..), rfl, by simp [initialState]⟩
  · rw [hlen, hedges, List.length_nil]
    omega
  · rw [hlen, hedges]
    omega

end Search

end Arcturus.ShortestSearch
