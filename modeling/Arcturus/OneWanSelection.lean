import Arcturus.OneWanCandidates
import Mathlib.Algebra.Order.BigOperators.Group.List

/-!
The selection of the ONE-WAN solver. The paths of a destination are drawn by weight and
without replacement. The weights are not negative, so a draw always ends at a path
that is not selected yet. With the candidates this gives the result of the solver.
-/

namespace Arcturus.OneWan

open GoMaps RandomChoices SimplePaths EdgeLists

section Draw

variable {probs : List ℚ} {selected : List ℕ}

/-- The draw ends in the list as long as its sum reaches the drawn number. -/
theorem pick_mem {r cumulative : ℚ} {l : List (ℚ × ℕ)} (hne : l ≠ [])
    (hr : r ≤ cumulative + (l.map Prod.fst).sum) : pick r cumulative l ∈ l.map Prod.snd := by
  induction l generalizing cumulative with
  | nil => exact absurd rfl hne
  | cons p rest ih =>
    obtain ⟨prob, pathIdx⟩ := p
    unfold pick
    split
    · exact List.mem_cons_self
    · rename_i hlt
      rw [List.map_cons, List.sum_cons, ← add_assoc] at hr
      refine List.mem_cons_of_mem _ (ih ?_ hr)
      intro hnil
      subst hnil
      simp only [List.map_nil, List.sum_nil, add_zero] at hr
      exact hlt hr

theorem mem_unselected {p : ℚ × ℕ} :
    p ∈ unselected probs selected ↔ probs[p.2]? = some p.1 ∧ p.2 ∉ selected := by
  simp [unselected, List.mem_zipIdx_iff_getElem?]

/-- As long as not all paths are selected, the next one is new. -/
theorem selectIndex_spec (hprobs : ∀ q ∈ probs, 0 ≤ q) (hroom : selected.length < probs.length)
    (f : Fraction) :
    selectIndex probs selected f < probs.length ∧ selectIndex probs selected f ∉ selected := by
  have hne : unselected probs selected ≠ [] := by
    obtain ⟨k, hk, hnew⟩ : ∃ k ∈ List.range probs.length, k ∉ selected := by
      by_contra hnone
      have hall : ∀ k ∈ List.range probs.length, k ∈ selected :=
        fun k hk => not_not.mp fun hnew => hnone ⟨k, hk, hnew⟩
      have hle := (List.nodup_range.subperm hall).length_le
      rw [List.length_range] at hle
      omega
    rw [List.mem_range] at hk
    exact List.ne_nil_of_mem (a := (probs[k], k))
      (mem_unselected.mpr ⟨List.getElem?_eq_getElem hk, hnew⟩)
  have htotal : 0 ≤ ((unselected probs selected).map Prod.fst).sum := by
    apply List.sum_nonneg
    intro q hq
    obtain ⟨p, hp, rfl⟩ := List.mem_map.mp hq
    exact hprobs _ (List.mem_of_getElem? (mem_unselected.mp hp).1)
  have hr : f.val * ((unselected probs selected).map Prod.fst).sum ≤
      0 + ((unselected probs selected).map Prod.fst).sum := by
    rw [zero_add]
    exact mul_le_of_le_one_left htotal f.lt_one.le
  obtain ⟨p, hp, heq⟩ := List.mem_map.mp (pick_mem hne hr)
  obtain ⟨hprob, hnew⟩ := mem_unselected.mp hp
  unfold selectIndex
  simp only
  rw [← heq]
  exact ⟨(List.getElem?_eq_some_iff.mp hprob).1, hnew⟩

theorem selectIndices_spec (hprobs : ∀ q ∈ probs, 0 ≤ q) {n : ℕ} (f : Fractions)
    (hnodup : selected.Nodup) (hrange : ∀ i ∈ selected, i < probs.length)
    (hroom : selected.length + n ≤ probs.length) :
    (selectIndices probs n selected f).1.Nodup ∧
      (∀ i ∈ (selectIndices probs n selected f).1, i < probs.length) ∧
      (selectIndices probs n selected f).1.length = selected.length + n := by
  induction n generalizing selected f with
  | zero => exact ⟨hnodup, hrange, rfl⟩
  | succ n ih =>
    have hlt : selected.length < probs.length := by omega
    obtain ⟨hindex, hnew⟩ := selectIndex_spec hprobs hlt (f 0)
    have hnodup' : (selected ++ [selectIndex probs selected (f 0)]).Nodup := by
      rw [← List.concat_eq_append, List.nodup_concat]
      exact ⟨hnew, hnodup⟩
    have hrange' : ∀ i ∈ selected ++ [selectIndex probs selected (f 0)], i < probs.length :=
      List.forall_mem_append.mpr ⟨hrange, List.forall_mem_singleton.mpr hindex⟩
    have hlength :
        (selected ++ [selectIndex probs selected (f 0)]).length = selected.length + 1 := by
      simp
    obtain ⟨hres, hresRange, hresLength⟩ :=
      ih (fun k => f (k + 1)) hnodup' hrange' (by rw [hlength]; omega)
    unfold selectIndices
    exact ⟨hres, hresRange, by rw [hresLength, hlength]; omega⟩

theorem withProbs_nonneg (dc : DestCandidates) : ∀ q ∈ dc.withProbs.probs, 0 ≤ q := by
  intro q hq
  obtain ⟨p, -, rfl⟩ := List.mem_map.mp hq
  split
  · rename_i hpos
    exact div_nonneg (one_div_nonneg.mpr hpos.1.le) hpos.2.le
  · exact one_div_nonneg.mpr (Nat.cast_nonneg _)

end Draw

section Parts

/-- The paths selected for a destination: two different ones, or the only one. -/
structure PartOf (dc : DestCandidates) (part : List PathInfo) : Prop where
  length_eq : part.length = min pathsPerDest dc.paths.length
  distinct : (part.map PathInfo.hops).Nodup
  subset : ∀ p ∈ part, p ∈ dc.paths

theorem selectPaths_partOf {dc : DestCandidates} (hdistinct : (dc.paths.map PathInfo.hops).Nodup)
    (f : Fractions) : PartOf dc (selectPaths dc.withProbs f).1 := by
  have hlength : dc.withProbs.probs.length = dc.paths.length := by
    simp [DestCandidates.withProbs]
  obtain ⟨hnodup, hrange, hcount⟩ := selectIndices_spec (withProbs_nonneg dc)
    (n := min pathsPerDest dc.paths.length) f List.nodup_nil (by simp) (by simp [hlength])
  rw [List.length_nil, Nat.zero_add] at hcount
  unfold selectPaths
  refine ⟨?_, ?_, ?_⟩
  · rw [← hcount]
    apply List.filterMap_length_eq_length.mpr
    intro i hi
    have hlt : i < dc.paths.length := hlength ▸ hrange i hi
    change (dc.paths[i]?).isSome
    simp [hlt]
  · rw [List.map_filterMap]
    apply hnodup.filterMap
    intro i j hops hi hj
    change hops ∈ (dc.paths[i]?).map PathInfo.hops at hi
    change hops ∈ (dc.paths[j]?).map PathInfo.hops at hj
    rw [← List.getElem?_map] at hi hj
    obtain ⟨hlt, -⟩ := List.getElem?_eq_some_iff.mp hi
    exact (List.getElem?_inj hlt hdistinct).mp (hi.trans hj.symm)
  · intro p hp
    obtain ⟨i, -, hi⟩ := List.mem_filterMap.mp hp
    exact List.mem_of_getElem? hi

theorem selectAll_parts {candidates : List DestCandidates}
    (h : ∀ dc ∈ candidates, (dc.paths.map PathInfo.hops).Nodup) (f : Fractions) :
    ∃ parts, (selectAll (candidates.map DestCandidates.withProbs) f).1 = parts.flatten ∧
      List.Forall₂ PartOf candidates parts := by
  induction candidates generalizing f with
  | nil => exact ⟨[], rfl, .nil⟩
  | cons dc rest ih =>
    rw [List.forall_mem_cons] at h
    obtain ⟨parts, hparts, hforall⟩ := ih h.2 (selectPaths dc.withProbs f).2
    refine ⟨(selectPaths dc.withProbs f).1 :: parts, ?_, .cons (selectPaths_partOf h.1 f) hforall⟩
    rw [List.map_cons, selectAll, List.flatten_cons, ← hparts]

theorem bestSolution_mem {sols : List (List PathInfo × ℚ)} (h : sols ≠ []) :
    ∃ sol ∈ sols, bestSolution sols = sol.1 := by
  cases sols with
  | nil => exact absurd rfl h
  | cons sol rest =>
    have hfold : ∀ (l : List (List PathInfo × ℚ)) (best : List PathInfo × ℚ),
        l.foldl (fun best sol => if sol.2 < best.2 then sol else best) best ∈ best :: l := by
      intro l
      induction l with
      | nil => intro best; exact List.mem_cons_self
      | cons a l ih =>
        intro best
        rw [List.foldl_cons]
        split
        · exact List.mem_cons_of_mem _ (ih a)
        · exact List.mem_cons.mpr ((List.mem_cons.mp (ih best)).imp_right (List.mem_cons_of_mem a))
    exact ⟨_, hfold rest sol, rfl⟩

theorem mem_solutions {loads : GoMap String ℚ} {candidates : List DestCandidates} {n : ℕ}
    {f : Fractions} {sol : List PathInfo × ℚ} (h : sol ∈ solutions loads candidates n f) :
    ∃ f', sol.1 = (selectAll candidates f').1 := by
  induction n generalizing f with
  | zero => exact absurd h List.not_mem_nil
  | succ n ih =>
    rcases List.mem_cons.mp h with heq | h
    · exact ⟨f, by rw [heq]⟩
    · exact ih h

/-- The result consists of one part for each destination with candidates. -/
theorem beamSearchSelection_parts (os : ONEWANSolver) {candidates : List DestCandidates}
    (h : ∀ dc ∈ candidates, (dc.paths.map PathInfo.hops).Nodup) (f : Fractions) :
    ∃ parts, os.beamSearchSelection candidates f = parts.flatten ∧
      List.Forall₂ PartOf candidates parts := by
  have hne : solutions os.edgeLoadMap (candidates.map DestCandidates.withProbs)
      ONEWANSolver.numIterations f ≠ [] := List.cons_ne_nil _ _
  obtain ⟨sol, hsol, hbest⟩ := bestSolution_mem hne
  obtain ⟨f', hf'⟩ := mem_solutions hsol
  obtain ⟨parts, hparts, hforall⟩ := selectAll_parts h f'
  exact ⟨parts, hbest.trans (hf'.trans hparts), hforall⟩

end Parts

section Result

/-- What the solver returns for one destination. -/
structure Answers (edges : List Edge) (start : String) (dc : DestCandidates)
    (part : List PathInfo) : Prop where
  count : part.length = 1 ∨ part.length = 2
  two : 2 ≤ dc.paths.length → part.length = 2
  distinct : (part.map PathInfo.hops).Nodup
  measured : ∀ p ∈ part, Measured edges start dc.end_ p.hops p.rtt p.rawRTT

theorem PartOf.answers {edges : List Edge} {start : String} {dc : DestCandidates}
    {part : List PathInfo} (h : PartOf dc part) (hdc : Offers edges start dc) :
    Answers edges start dc part := by
  have hlength := h.length_eq
  have hpos := List.length_pos_iff.mpr hdc.nonempty
  unfold pathsPerDest at hlength
  exact ⟨by omega, by omega, h.distinct, fun p hp => hdc.measured p (h.subset p hp)⟩

theorem forall₂_answers {edges : List Edge} {start : String} {candidates : List DestCandidates}
    {parts : List (List PathInfo)} (h : List.Forall₂ PartOf candidates parts)
    (hdc : ∀ dc ∈ candidates, Offers edges start dc) :
    List.Forall₂ (Answers edges start) candidates parts := by
  induction h with
  | nil => exact .nil
  | cons hpart _ ih =>
    rw [List.forall_mem_cons] at hdc
    exact .cons (hpart.answers hdc.1) (ih hdc.2)

open Classical in
/-- The solver fails exactly when the start is not in the graph or no destination is
reachable. Otherwise it returns paths for the reachable ones, in the order of the list. -/
theorem computingMulti_result (edges : List Edge) (hone : OneEdge edges) (maxPaths : ℤ)
    (hmax : 1 ≤ maxPaths) (start : String) (ends : List String) (r : Draws) (f : Fractions) :
    ((∃ msg, (newONEWANSolver edges maxPaths).computingMulti start ends r f = .error msg) ↔
        start ∉ (newONEWANSolver edges maxPaths).nodes ∨
          ∀ end_ ∈ ends, ¬ Reachable edges start end_) ∧
      ∀ infos, (newONEWANSolver edges maxPaths).computingMulti start ends r f = .ok infos →
        ∃ candidates parts,
          (newONEWANSolver edges maxPaths).generateCandidatePaths start ends r = .ok candidates ∧
          candidates.map DestCandidates.end_ =
            ends.filter (fun end_ => Reachable edges start end_) ∧
          infos = parts.flatten ∧ List.Forall₂ (Answers edges start) candidates parts := by
  unfold ONEWANSolver.computingMulti
  split
  · rename_i hstart
    exact ⟨by simp [hstart], by simp⟩
  · rename_i hstart
    rw [not_not] at hstart
    obtain ⟨hends, hoffers⟩ := candidatePaths_spec hone hmax hstart ends r
    have hnil : (newONEWANSolver edges maxPaths).candidatePaths start ends r = [] ↔
        ∀ end_ ∈ ends, ¬ Reachable edges start end_ := by
      rw [← List.map_eq_nil_iff (f := DestCandidates.end_), hends, List.filter_eq_nil_iff]
      simp only [decide_eq_true_eq]
      exact Iff.rfl
    unfold ONEWANSolver.generateCandidatePaths
    simp only
    split
    · rename_i hempty
      refine ⟨⟨fun _ => Or.inr (hnil.mp hempty), fun _ => ⟨_, rfl⟩⟩, ?_⟩
      exact fun infos hok => absurd hok (by simp [bind, Except.bind])
    · rename_i hsome
      have hreach := mt hnil.mpr hsome
      obtain ⟨parts, hparts, hforall⟩ := beamSearchSelection_parts
        (newONEWANSolver edges maxPaths) (fun dc hdc => (hoffers dc hdc).distinct) f
      refine ⟨?_, ?_⟩
      · simp only [bind, Except.bind, pure, Except.pure, reduceCtorEq, exists_false, false_iff,
          not_or, not_not]
        exact ⟨hstart, hreach⟩
      · intro infos hok
        cases hok
        exact ⟨_, parts, rfl, hends, hparts, forall₂_answers hforall hoffers⟩

/-- A direct edge and a way around it. -/
def detour : List Edge := [link "S" "A" 1 0, link "A" "T" 1 0, link "S" "T" 3 0]

theorem detour_result :
    ∃ infos, (newONEWANSolver detour 2).computingMulti "S" ["A", "X", "T"] (fun k => k)
        (fun _ => ⟨0, le_rfl, one_pos⟩) = .ok infos ∧ infos.length = 3 ∧
      ∃ candidates parts, infos = parts.flatten ∧
        List.Forall₂ (Answers detour "S") candidates parts := by
  have hrun : (newONEWANSolver detour 2).computingMulti "S" ["A", "X", "T"] (fun k => k)
      (fun _ => ⟨0, le_rfl, one_pos⟩) =
        .ok [⟨["S", "A"], 1, 1⟩, ⟨["S", "A", "T"], 2, 2⟩, ⟨["S", "T"], 3, 3⟩] := by
    decide +kernel
  obtain ⟨candidates, parts, -, -, hparts, hanswers⟩ :=
    (computingMulti_result detour (by decide +kernel) 2 (by decide) _ _ _ _).2 _ hrun
  exact ⟨_, hrun, rfl, candidates, parts, hparts, hanswers⟩

end Result

end Arcturus.OneWan
