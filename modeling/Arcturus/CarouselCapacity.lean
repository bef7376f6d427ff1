import Arcturus.CarouselSelection
import Mathlib.Algebra.Order.Group.Multiset

/-!
When the flows of the carousel-greedy solver stay within the capacities. A search takes
an edge with any residual capacity and then charges a whole unit to it, and a step
against an edge is charged to the edge in its own direction. An edge is safe if its
capacity is whole and nothing runs against it, or if there are never too many paths.
-/

namespace Arcturus.Carousel

open GoMaps RandomChoices SimplePaths EdgeLists

section Safe

variable (d : FlowOptimizationSolver) (start : String) (ends : List String)

/-- A path that the solver may hold. -/
def Holdable (hops : List String) : Prop :=
  ∃ dest ∈ ends, IsSimplePath (Beside d.edges) start dest hops ∧ hops.length ≤ maxHops

/-- The state of an edge before the first search. -/
def initialFlow (e : String × String) : EdgeFlow :=
  (d.withCapacity (d.validEnds ends)).buildResidualGraphWithCapacity.val e

/-- The capacity is not scaled down, or it is whole and nothing passes the edge the other
way, or there are not enough paths through the edge to fill it. -/
def Safe (e : String × String) : Prop :=
  (initialFlow d ends e).thetaA = 1 ∨
    ((∃ n : ℕ, (initialFlow d ends e).effCap = n) ∧
      ¬ (Arc d.edges e.2 e.1 ∧ ∃ hops, Holdable d start ends hops ∧ (e.2, e.1) ∈ steps hops)) ∨
    ∀ routes : List (List String), routes.Nodup →
      (∀ r ∈ routes, Holdable d start ends r ∧ e ∈ steps r) →
      (routes.length : ℚ) ≤ (initialFlow d ends e).effCap

end Safe

section Bounds

variable {d d' : FlowOptimizationSolver} {start : String} {ends validEnds : List String}
  {L : Ledger}

/-- There are never more paths than the capacity before it is scaled. -/
theorem Consistent.length_le (h : Consistent d start validEnds L) :
    L.allPaths.length ≤ validEnds.length * d.flowsPerDest := by
  have hle : (↑(L.allPaths.map PathWithInfo.dest) : Multiset String) ≤
      d.flowsPerDest • (↑validEnds : Multiset String) := by
    rw [Multiset.le_iff_count]
    intro x
    rw [Multiset.count_nsmul, Multiset.coe_count, Multiset.coe_count, List.count, List.countP_map]
    refine le_trans (le_of_eq ?_) (h.mirrored.room x)
    apply List.countP_congr
    intro pi _
    simp
  have hcard := Multiset.card_le_card hle
  rw [Multiset.card_nsmul] at hcard
  simpa [Nat.mul_comm] using hcard

/-- The paths through an edge are different paths. -/
theorem Consistent.passing_le (h : Consistent d start validEnds L)
    (hends : ∀ x ∈ validEnds, x ∈ ends) {e : String × String} {c : ℚ}
    (hc : ∀ routes : List (List String), routes.Nodup →
      (∀ r ∈ routes, Holdable d start ends r ∧ e ∈ steps r) → (routes.length : ℚ) ≤ c) :
    (passing L.allPaths e : ℚ) ≤ c := by
  have hroutes := hc ((L.allPaths.filter fun pi => e ∈ steps pi.path).map PathWithInfo.path) ?_ ?_
  · simpa [passing, List.countP_eq_length_filter] using hroutes
  · exact h.mirrored.nodup_paths.sublist (List.filter_sublist.map _)
  · intro r hr
    obtain ⟨pi, hpi, rfl⟩ := List.mem_map.mp hr
    rw [List.mem_filter, decide_eq_true_eq] at hpi
    have hkept := h.kept pi hpi.1
    exact ⟨⟨pi.dest, hends _ hkept.listed, hkept.simple, hkept.short⟩, hpi.2⟩

/-- A whole capacity bounds the flow of an edge that is only passed in its direction. -/
theorem passing_le_of_reached (h : Reached d start validEnds L) (hends : ∀ x ∈ validEnds, x ∈ ends)
    {e : String × String} {n : ℕ} (hn : (d.buildResidualGraphWithCapacity.val e).effCap = n)
    (honly : ¬ (Arc d.edges e.2 e.1 ∧
      ∃ hops, Holdable d start ends hops ∧ (e.2, e.1) ∈ steps hops)) :
    passing L.allPaths e ≤ n := by
  induction h with
  | refl => exact Nat.zero_le n
  | @tail L L' hreached hmove ih =>
    cases hmove with
    | ban => exact ih
    | @insert pi hpi =>
      change passing (L.allPaths ++ [pi]) e ≤ n
      rw [passing_concat]
      split
      · rename_i he
        have hcons := consistent_of_reached hreached
        obtain ⟨c, hstep⟩ := forall_mem_steps.mpr hpi.found.isSimplePath.1.chain e he
        cases hstep with
        | forward hkey hres =>
          rw [hcons.balanced.residual e hkey, hcons.balanced.effCap, hn,
            hcons.balanced.flow e hkey, sub_pos] at hres
          exact_mod_cast hres
        | backward _ hkey hflow =>
          obtain ⟨p, hp, hback⟩ := hcons.balanced.exists_passing hkey hflow
          have hkept := hcons.kept p hp
          refine absurd ⟨hcons.balanced.arc hkey, p.path, ?_, hback⟩ honly
          exact ⟨p.dest, hends _ hkept.listed, hkept.simple, hkept.short⟩
      · exact ih
    | @remove pi rest hfront =>
      change passing rest e ≤ n
      rw [hfront, passing_cons] at ih
      exact le_trans (Nat.le_add_right _ _) ih

theorem effCap_of_thetaA_eq_one {e : String × String} (he : Arc d.edges e.1 e.2)
    (h : (initialFlow d ends e).thetaA = 1) :
    (initialFlow d ends e).effCap = ((d.validEnds ends).length * d.flowsPerDest : ℕ) := by
  have hkey : e ∈ (d.withCapacity (d.validEnds ends)).buildResidualGraphWithCapacity.keys :=
    mem_build_keys.mpr he
  obtain ⟨e', -, -, hval⟩ := build_val hkey
  rw [initialFlow, hval] at h ⊢
  simp only [FlowOptimizationSolver.newEdgeFlow] at h ⊢
  rw [h, one_mul]
  rfl

/-- A safe edge carries no more flow than its capacity in any recorded state. -/
theorem flow_within_capacity (d : FlowOptimizationSolver) (start : String) (ends : List String)
    (draws : Draws) (ans : Except String (List PathInfo)) (record : List (Event × Ledger))
    (h : d.execute start ends draws = some (ans, record)) :
    ∀ ev L, (ev, L) ∈ record → ∀ e ∈ L.graph.keys, Safe d start ends e →
      (L.graph.val e).flow ≤ (L.graph.val e).effCap ∧ 0 ≤ (L.graph.val e).residual := by
  intro ev L hL e he hsafe
  rcases execute_spec h with ⟨rfl, -⟩ | ⟨d', hd', hrecord, -⟩
  · exact absurd hL List.not_mem_nil
  obtain ⟨⟨m, rfl⟩, -⟩ := prepare_spec hd'
  have hends : ∀ x ∈ d.validEnds ends, x ∈ ends := fun x hx => (mem_validEnds.mp hx).1
  have hreached := (hrecord _ hL).1
  have hcons := consistent_of_reached hreached
  have hcap : (L.graph.val e).effCap = (initialFlow d ends e).effCap := hcons.balanced.effCap e
  have hflow : (L.graph.val e).flow ≤ (L.graph.val e).effCap := by
    rw [hcons.balanced.flow e he, hcap]
    rcases hsafe with hone | ⟨⟨n, hn⟩, honly⟩ | hroutes
    · have harc : Arc d.edges e.1 e.2 := hcons.balanced.arc he
      rw [effCap_of_thetaA_eq_one harc hone]
      exact_mod_cast le_trans List.countP_le_length hcons.length_le
    · rw [hn]
      exact_mod_cast passing_le_of_reached hreached hends hn honly
    · exact hcons.passing_le hends hroutes
  refine ⟨hflow, ?_⟩
  rw [hcons.balanced.residual e he]
  exact sub_nonneg.mpr hflow

theorem diamond_within_capacity :
    ∃ ans record, (newFlowOptimizationSolver diamond).execute "S" ["T"] (fun _ => 0) =
        some (ans, record) ∧ record.length = 12 ∧
      ∀ ev L, (ev, L) ∈ record → ("S", "A") ∈ L.graph.keys →
        (L.graph.val ("S", "A")).flow ≤ (L.graph.val ("S", "A")).effCap := by
  have hrun : ((newFlowOptimizationSolver diamond).execute "S" ["T"] (fun _ => 0)).map
      (fun p => p.2.length) = some 12 := by
    decide +kernel
  obtain ⟨⟨ans, record⟩, hexecute, hlength⟩ := Option.map_eq_some_iff.mp hrun
  refine ⟨ans, record, hexecute, hlength, ?_⟩
  intro ev L hL hkey
  have hsafe : Safe (newFlowOptimizationSolver diamond) "S" ["T"] ("S", "A") :=
    Or.inl (by decide +kernel)
  exact (flow_within_capacity _ _ _ _ _ _ hexecute ev L hL _ hkey hsafe).1

/-- The load of the node behind the direct edge leaves half a unit of capacity. -/
def halfUnit : List Edge := [link "S" "T" 1 75, link "S" "A" 1 80, link "A" "T" 1 80]

/-- The first path is charged with a whole unit. -/
theorem halfUnit_over_capacity :
    (∀ e ∈ halfUnit, 0 ≤ e.latency) ∧
      ∃ ans record, (newFlowOptimizationSolver halfUnit).execute "S" ["T"] (fun _ => 0) =
          some (ans, record) ∧
        ∃ pi L, (Event.inserted pi, L) ∈ record ∧
          (L.graph.val ("S", "T")).flow = 1 ∧ (L.graph.val ("S", "T")).effCap = 1 / 2 := by
  refine ⟨by decide +kernel, ?_⟩
  have hrun : ((newFlowOptimizationSolver halfUnit).execute "S" ["T"] (fun _ => 0)).map (fun p =>
      p.2.head?.map fun q => (match q.1 with | .inserted _ => true | _ => false,
        (q.2.graph.val ("S", "T")).flow, (q.2.graph.val ("S", "T")).effCap)) =
      some (some (true, 1, 1 / 2)) := by
    decide +kernel
  obtain ⟨⟨ans, record⟩, hexecute, hfirst⟩ := Option.map_eq_some_iff.mp hrun
  obtain ⟨⟨ev, L⟩, hhead, heq⟩ := Option.map_eq_some_iff.mp hfirst
  simp only [Prod.mk.injEq] at heq
  cases ev with
  | inserted pi => exact ⟨ans, record, hexecute, pi, L, List.mem_of_mem_head? hhead, heq.2⟩
  | _ => simp at heq

end Bounds

end Arcturus.Carousel
