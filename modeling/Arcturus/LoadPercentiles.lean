import Arcturus.CarouselRuns
import Arcturus.Percentiles

/-!
The load percentile of the carousel solver and the capacities scaled with it. The percentile is
also computed with slice accesses that may fail, and between 0 and 100 none of them does. The
scale falls from one at the threshold `Tu` to zero at the 90th percentile, so the hottest edges
have no capacity and no search of a run follows them forwards.
-/

namespace Arcturus.Carousel

open EdgeLists GoMaps OrderStatistics Percentiles

section Accesses

/-- Conversion to an integer, towards zero. -/
def truncate (q : ℚ) : ℤ := q.num.tdiv q.den

/-- A slice access; `none` if the index is out of range. -/
def readAt (loads : List ℚ) (i : ℤ) : Option ℚ := if 0 ≤ i then loads[i.toNat]? else none

/-- The percentile with its slice accesses; `none` if one of them is out of range. -/
def FlowOptimizationSolver.checkedPercentile (d : FlowOptimizationSolver) (percentile : ℚ) :
    Option ℚ :=
  if d.edges.length = 0 then some 0
  else
    let loads := ExchangeSort.sort id (d.edges.map Edge.load)
    let index := percentile / 100 * (loads.length - 1)
    let lowerIndex := truncate index
    let upperIndex := lowerIndex + 1
    if upperIndex ≥ loads.length then readAt loads (loads.length - 1)
    else
      let fraction := index - lowerIndex
      (readAt loads lowerIndex).bind fun lower =>
        (readAt loads upperIndex).map fun upper => lower + fraction * (upper - lower)

end Accesses

section Percentile

variable {d d' : FlowOptimizationSolver} {p q : ℚ}

theorem truncate_of_nonneg (h : 0 ≤ q) : truncate q = q.floor := by
  rw [truncate, Rat.floor_def, Int.tdiv_eq_ediv_of_nonneg (Rat.num_nonneg.mpr h)]

theorem readAt_natCast (loads : List ℚ) (i : ℕ) : readAt loads i = loads[i]? := by
  simp [readAt]

/-- The fractional index falls on an entry of the list. -/
theorem exists_lowerIndex {n : ℕ} (hn : 0 < n) (hp : 0 ≤ p) (hp' : p ≤ 100) :
    ∃ k < n, (p / 100 * ((n : ℚ) - 1)).floor = (k : ℤ) ∧ (k : ℚ) ≤ p / 100 * ((n : ℚ) - 1) ∧
      p / 100 * ((n : ℚ) - 1) < k + 1 := by
  have hone : (1 : ℚ) ≤ n := by exact_mod_cast hn
  have hfrac : 0 ≤ p / 100 := by positivity
  have hnonneg : 0 ≤ p / 100 * ((n : ℚ) - 1) := mul_nonneg hfrac (by linarith)
  have hle : p / 100 * ((n : ℚ) - 1) ≤ (n : ℚ) - 1 :=
    mul_le_of_le_one_left (by linarith) (by linarith)
  obtain ⟨k, hk⟩ := Int.eq_ofNat_of_zero_le (Int.floor_nonneg.mpr hnonneg)
  have hlow := Int.floor_le (p / 100 * ((n : ℚ) - 1))
  have hhigh := Int.lt_floor_add_one (p / 100 * ((n : ℚ) - 1))
  rw [hk] at hlow hhigh
  have hkn : (k : ℚ) < n := by
    push_cast at hlow
    linarith
  exact ⟨k, by exact_mod_cast hkn, hk, by exact_mod_cast hlow, by exact_mod_cast hhigh⟩

abbrev sortedLoads (d : FlowOptimizationSolver) : List ℚ :=
  ExchangeSort.sort id (d.edges.map Edge.load)

theorem length_sortedLoads (d : FlowOptimizationSolver) :
    (sortedLoads d).length = d.edges.length := by
  rw [(ExchangeSort.sort_perm id _).length_eq, List.length_map]

/-- In front of the last entry the percentile is interpolated. -/
theorem computePercentile_inner {k : ℕ} {lower upper : ℚ}
    (hfloor : (p / 100 * ((d.edges.length : ℚ) - 1)).floor = (k : ℤ))
    (hlower : (sortedLoads d)[k]? = some lower)
    (hupper : (sortedLoads d)[k + 1]? = some upper) :
    d.computePercentile p =
      lower + (p / 100 * ((d.edges.length : ℚ) - 1) - k) * (upper - lower) := by
  have hlast : (sortedLoads d).getLast? ≠ none := by
    intro hnone
    rw [List.getLast?_eq_none_iff] at hnone
    simp [hnone] at hlower
  obtain ⟨last, hlast⟩ := Option.ne_none_iff_exists'.mp hlast
  unfold FlowOptimizationSolver.computePercentile
  simp only [hlast, length_sortedLoads, hfloor, Int.toNat_natCast, hlower, hupper]

theorem computePercentile_last {k : ℕ} {last : ℚ}
    (hfloor : (p / 100 * ((d.edges.length : ℚ) - 1)).floor = (k : ℤ))
    (hk : d.edges.length ≤ k + 1)
    (hlast : (sortedLoads d)[d.edges.length - 1]? = some last) :
    d.computePercentile p = last := by
  have hnone : (sortedLoads d)[k + 1]? = none := by
    rw [List.getElem?_eq_none_iff, length_sortedLoads]
    exact hk
  have hlast' : (sortedLoads d).getLast? = some last := by
    rw [List.getLast?_eq_getElem?, length_sortedLoads, hlast]
  unfold FlowOptimizationSolver.computePercentile
  simp only [hlast', length_sortedLoads, hfloor, Int.toNat_natCast, hnone]
  split
  · contradiction
  · rfl

/-- Where the percentile comes from: two neighbours in the sorted list, or its last entry. -/
theorem percentile_cases (hne : d.edges ≠ []) (hp : 0 ≤ p) (hp' : p ≤ 100) :
    ∃ k : ℕ, (p / 100 * ((d.edges.length : ℚ) - 1)).floor = (k : ℤ) ∧
      (k : ℚ) ≤ p / 100 * ((d.edges.length : ℚ) - 1) ∧
      p / 100 * ((d.edges.length : ℚ) - 1) < k + 1 ∧
      ((k + 1 < d.edges.length ∧ ∃ lower upper,
          (sortedLoads d)[k]? = some lower ∧
          (sortedLoads d)[k + 1]? = some upper) ∨
        (k + 1 = d.edges.length ∧ ∃ last,
          (sortedLoads d)[k]? = some last)) := by
  obtain ⟨k, hk, hfloor, hlow, hhigh⟩ :=
    exists_lowerIndex (List.length_pos_of_ne_nil hne) hp hp'
  have hread : ∀ i < d.edges.length, ∃ x,
      (sortedLoads d)[i]? = some x := by
    intro i hi
    rw [← length_sortedLoads] at hi
    exact ⟨_, List.getElem?_eq_getElem hi⟩
  refine ⟨k, hfloor, hlow, hhigh, ?_⟩
  obtain ⟨lower, hlower⟩ := hread k hk
  rcases Nat.lt_or_ge (k + 1) d.edges.length with hlt | hge
  · obtain ⟨upper, hupper⟩ := hread (k + 1) hlt
    exact Or.inl ⟨hlt, lower, upper, hlower, hupper⟩
  · exact Or.inr ⟨by omega, lower, hlower⟩

/-- No slice access is out of range. -/
theorem checkedPercentile_eq (hne : d.edges ≠ []) (hp : 0 ≤ p) (hp' : p ≤ 100) :
    d.checkedPercentile p = some (d.computePercentile p) := by
  obtain ⟨k, hfloor, hlow, -, hcases⟩ := percentile_cases hne hp hp'
  have htrunc : truncate (p / 100 * ((d.edges.length : ℚ) - 1)) = (k : ℤ) := by
    rw [truncate_of_nonneg (le_trans (Nat.cast_nonneg k) hlow), hfloor]
  have hpos : d.edges.length ≠ 0 := by simpa using hne
  simp only [FlowOptimizationSolver.checkedPercentile, if_neg hpos, length_sortedLoads, htrunc]
  rcases hcases with ⟨hlt, lower, upper, hlower, hupper⟩ | ⟨heq, last, hlast⟩
  · have hupper' := readAt_natCast (sortedLoads d) (k + 1)
    rw [Nat.cast_add_one] at hupper'
    rw [if_neg (by omega), readAt_natCast, hupper', hlower, hupper,
      computePercentile_inner hfloor hlower hupper]
    simp only [Option.bind_some, Option.map_some, Int.cast_natCast]
  · have hindex : (d.edges.length : ℤ) - 1 = k := by omega
    have hlast' := hlast
    rw [show k = d.edges.length - 1 by omega] at hlast'
    rw [if_pos (by omega), hindex, readAt_natCast, hlast,
      computePercentile_last hfloor (by omega) hlast']

theorem computePercentile_interpolates (hne : d.edges ≠ []) (hp : 0 ≤ p) (hp' : p ≤ 100) :
    Interpolates (d.edges.map Edge.load) (p / 100 * ((d.edges.length : ℚ) - 1))
      (d.computePercentile p) := by
  obtain ⟨k, hfloor, hlow, hhigh, hcases⟩ := percentile_cases hne hp hp'
  rcases hcases with ⟨hlt, lower, upper, hlower, hupper⟩ | ⟨heq, last, hlast⟩
  · refine ⟨k, lower, upper, orderStatistic_iff.mpr hlower, orderStatistic_iff.mpr ?_, hlow, hhigh,
      computePercentile_inner hfloor hlower hupper⟩
    rw [List.length_map, Nat.min_eq_left (by omega), hupper]
  · have hk : d.edges.length - 1 = k := by omega
    refine ⟨k, last, last, orderStatistic_iff.mpr hlast, orderStatistic_iff.mpr ?_, hlow, hhigh, ?_⟩
    · rw [List.length_map, hk, Nat.min_eq_right (Nat.le_succ k), hlast]
    · rw [computePercentile_last hfloor (by omega) (by rw [hk, hlast]), sub_self, mul_zero,
        add_zero]

theorem computePercentile_mono (hne : d.edges ≠ []) (hp : 0 ≤ p) (hpq : p ≤ q) (hq : q ≤ 100) :
    d.computePercentile p ≤ d.computePercentile q := by
  have hone : (1 : ℚ) ≤ d.edges.length := by exact_mod_cast List.length_pos_of_ne_nil hne
  refine (computePercentile_interpolates hne hp (le_trans hpq hq)).mono
    (computePercentile_interpolates hne (le_trans hp hpq) hq) ?_
  exact mul_le_mul_of_nonneg_right (by linarith) (by linarith)

/-- The order of the edges does not matter. -/
theorem computePercentile_of_perm (hperm : d'.edges.Perm d.edges) (p : ℚ) :
    d'.computePercentile p = d.computePercentile p := by
  unfold FlowOptimizationSolver.computePercentile
  rw [sort_eq_of_perm (hperm.map Edge.load)]

end Percentile

section Scale

variable {d : FlowOptimizationSolver}

/-- A scale that falls from one, up to `low`, to zero, from `high` on. -/
structure Scales (theta : ℚ → ℚ) (low high : ℚ) : Prop where
  nonneg : ∀ x, 0 ≤ theta x
  le_one : ∀ x, theta x ≤ 1
  antitone : Antitone theta
  eq_one_iff : ∀ x, theta x = 1 ↔ x ≤ low
  eq_zero : ∀ x, high ≤ x → theta x = 0

/-- The formula of the scale. -/
theorem computeThetaA_eq (d : FlowOptimizationSolver) (x : ℚ) :
    d.computeThetaA x = 1 - min (max (x - d.Tu) 0 / max (d.Uhot - d.Tu) d.epsilon) 1 := by
  have hnum : (if x - d.Tu < 0 then 0 else x - d.Tu) = max (x - d.Tu) 0 := by
    rw [max_comm, max_def_lt]
    split_ifs <;> grind
  have hden : (if d.Uhot - d.Tu < d.epsilon then d.epsilon else d.Uhot - d.Tu) =
      max (d.Uhot - d.Tu) d.epsilon := (max_def_lt _ _).symm
  simp only [FlowOptimizationSolver.computeThetaA, hnum, hden, gt_iff_lt]
  grind

theorem computeThetaA_scales (heps : 0 < d.epsilon) :
    Scales d.computeThetaA d.Tu (max d.Uhot (d.Tu + d.epsilon)) := by
  have hden : 0 < max (d.Uhot - d.Tu) d.epsilon := lt_of_lt_of_le heps (le_max_right _ _)
  have hfrac : ∀ x, 0 ≤ max (x - d.Tu) 0 / max (d.Uhot - d.Tu) d.epsilon :=
    fun x => div_nonneg (le_max_right _ _) hden.le
  refine ⟨fun x => ?_, fun x => ?_, fun x y hxy => ?_, fun x => ?_, fun x hx => ?_⟩
  · rw [computeThetaA_eq]
    linarith [min_le_right (max (x - d.Tu) 0 / max (d.Uhot - d.Tu) d.epsilon) 1]
  · rw [computeThetaA_eq]
    linarith [le_min (hfrac x) zero_le_one]
  · rw [computeThetaA_eq, computeThetaA_eq]
    gcongr
  · rw [computeThetaA_eq]
    constructor
    · intro hone
      by_contra hlt
      have hpos : 0 < max (x - d.Tu) 0 / max (d.Uhot - d.Tu) d.epsilon :=
        div_pos (lt_max_of_lt_left (by linarith)) hden
      linarith [lt_min hpos zero_lt_one]
    · intro hle
      rw [max_eq_right (by linarith), zero_div, min_eq_left zero_le_one, sub_zero]
  · have hge : max (d.Uhot - d.Tu) d.epsilon ≤ max (x - d.Tu) 0 := by
      have hhot := le_trans (le_max_left _ _) hx
      have hguard := le_trans (le_max_right _ _) hx
      exact le_max_of_le_left (max_le (by linarith) (by linarith))
    rw [computeThetaA_eq, min_eq_right ((one_le_div hden).mpr hge), sub_self]

end Scale

section Hot

variable {d : FlowOptimizationSolver} {start : String} {ends : List String} {e : Edge}
  {front back : List Edge} {L : Ledger}

/-- The last edge of a pair is the one that the graph holds. -/
theorem build_val_last (hedges : d.edges = front ++ e :: back)
    (hback : ∀ e' ∈ back, (e'.sourceIp, e'.destinationIp) ≠ (e.sourceIp, e.destinationIp)) :
    (e.sourceIp, e.destinationIp) ∈ d.buildResidualGraphWithCapacity.keys ∧
      d.buildResidualGraphWithCapacity.val (e.sourceIp, e.destinationIp) = d.newEdgeFlow e := by
  unfold FlowOptimizationSolver.buildResidualGraphWithCapacity
  refine ⟨(GoMap.mem_foldl_set_keys ..).mpr (Or.inr ⟨e, by simp [hedges], rfl⟩), ?_⟩
  rw [hedges, List.foldl_append, List.foldl_cons]
  rcases GoMap.foldl_set_val (fun e : Edge => (e.sourceIp, e.destinationIp)) d.newEdgeFlow back _
    (e.sourceIp, e.destinationIp) with ⟨e', he', hkey, -⟩ | ⟨-, hval⟩
  · exact absurd hkey (hback e' he')
  · rw [hval, GoMap.set_val_same]

/-- An edge without capacity keeps a residual that no search follows. -/
theorem forward_free (hreach : Reached d start ends L) (hedges : d.edges = front ++ e :: back)
    (hback : ∀ e' ∈ back, (e'.sourceIp, e'.destinationIp) ≠ (e.sourceIp, e.destinationIp))
    (hcap : (d.newEdgeFlow e).effCap = 0) :
    (L.graph.val (e.sourceIp, e.destinationIp)).effCap = 0 ∧
      ∀ order, ∀ ei ∈ d.forwardEdges L.graph e.sourceIp order, ei.to_ ≠ e.destinationIp := by
  have hbalanced := (consistent_of_reached hreach).balanced
  obtain ⟨hkey, hval⟩ := build_val_last hedges hback
  have heff : (L.graph.val (e.sourceIp, e.destinationIp)).effCap = 0 := by
    rw [hbalanced.effCap, hval, hcap]
  rw [← hbalanced.keys] at hkey
  have hresidual : (L.graph.val (e.sourceIp, e.destinationIp)).residual ≤ 0 := by
    rw [hbalanced.residual _ hkey, heff, hbalanced.flow _ hkey, zero_sub, neg_nonpos]
    exact Nat.cast_nonneg _
  refine ⟨heff, ?_⟩
  intro order ei hei hto
  obtain ⟨v, -, hv⟩ := List.mem_filterMap.mp hei
  dsimp only at hv
  split_ifs at hv with hpos
  cases Option.some.inj hv
  change v = e.destinationIp at hto
  rw [hto] at hpos
  exact absurd hpos (not_lt.mpr hresidual)

theorem percentile_scales_capacity (d : FlowOptimizationSolver) (hne : d.edges ≠ [])
    (heps : 0 < d.epsilon) :
    (∀ p, 0 ≤ p → p ≤ 100 → d.checkedPercentile p = some (d.computePercentile p) ∧
      (∃ lo ∈ d.edges.map Edge.load, ∃ hi ∈ d.edges.map Edge.load,
        (∀ x ∈ d.edges.map Edge.load, lo ≤ x ∧ x ≤ hi) ∧
        lo ≤ d.computePercentile p ∧ d.computePercentile p ≤ hi) ∧
      (∀ q, p ≤ q → q ≤ 100 → d.computePercentile p ≤ d.computePercentile q) ∧
      ∀ d' : FlowOptimizationSolver, d'.edges.Perm d.edges →
        d'.computePercentile p = d.computePercentile p) ∧
    Scales { d with Uhot := d.computePercentile 90 }.computeThetaA d.Tu
      (max (d.computePercentile 90) (d.Tu + d.epsilon)) ∧
    ∀ start ends d', d.prepare start ends = some d' →
      d'.computeThetaA = { d with Uhot := d.computePercentile 90 }.computeThetaA ∧
      ∀ front e back, d.edges = front ++ e :: back →
        max (d.computePercentile 90) (d.Tu + d.epsilon) ≤ e.load →
        (d'.newEdgeFlow e).effCap = 0 ∧
        ((∀ e' ∈ back, (e'.sourceIp, e'.destinationIp) ≠ (e.sourceIp, e.destinationIp)) →
          ∀ L, Reached d' start ends L →
            (L.graph.val (e.sourceIp, e.destinationIp)).effCap = 0 ∧
            ∀ order, ∀ ei ∈ d'.forwardEdges L.graph e.sourceIp order,
              ei.to_ ≠ e.destinationIp) := by
  have hscales : Scales { d with Uhot := d.computePercentile 90 }.computeThetaA d.Tu
      (max (d.computePercentile 90) (d.Tu + d.epsilon)) := computeThetaA_scales heps
  refine ⟨fun p hp hp' => ⟨checkedPercentile_eq hne hp hp',
    (computePercentile_interpolates hne hp hp').between,
    fun q hpq hq => computePercentile_mono hne hp hpq hq,
    fun d' hperm => computePercentile_of_perm hperm p⟩, hscales, ?_⟩
  intro start ends d' hprepare
  obtain ⟨⟨m, rfl⟩, -⟩ := prepare_spec hprepare
  refine ⟨rfl, fun front e back hedges hload => ?_⟩
  have hcap : ({ d.withCapacity ends with thetaLMap := m }.newEdgeFlow e).effCap = 0 := by
    have hzero : (d.withCapacity ends).computeThetaA e.load = 0 := hscales.eq_zero e.load hload
    simp only [FlowOptimizationSolver.newEdgeFlow]
    exact mul_eq_zero_of_left hzero _
  exact ⟨hcap, fun hback L hreach => forward_free hreach hedges hback hcap⟩

def sampleLoads : FlowOptimizationSolver :=
  newFlowOptimizationSolver [link "S" "A" 1 95, link "S" "B" 1 10]

theorem sampleLoads_scaled :
    sampleLoads.checkedPercentile 90 = some (173 / 2) ∧
      { sampleLoads with Uhot := sampleLoads.computePercentile 90 }.computeThetaA 95 = 0 := by
  have hval : sampleLoads.computePercentile 90 = 173 / 2 := by decide +kernel
  have hspec := percentile_scales_capacity sampleLoads (by decide) (by decide +kernel)
  refine ⟨?_, hspec.2.1.eq_zero 95 ?_⟩
  · rw [(hspec.1 90 (by norm_num) (by norm_num)).1, hval]
  · rw [hval]
    decide +kernel

end Hot

end Arcturus.Carousel
