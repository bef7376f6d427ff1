import Arcturus.Probing
import Arcturus.ReportedEdges
import Mathlib.Tactic.Linarith

/-!
The weight of a link that never answers, compared with one that does. A round without an
answer has no duration to average and is given one nanosecond, which is no whole
millisecond, and the loss of a link does not count. So a dead link weighs as much as one
that answers at once.
-/

namespace Arcturus.DeadLinks

open GoMaps Upserts EdgeLists NodeGraph ReportedEdges Probing

/-- A round of probes after some others, and the graph that its report is entered into. -/
structure Pass where
  earlier : List (List Probe)
  round : List Probe
  order : (resultsAfter (earlier ++ [round])).Range
  node : NodeConfig
  usage : ℚ
  g : GraphManager

namespace Pass

variable (x : Pass)

def report : NodeTelemetry := Probing.report x.node x.usage _ x.order

/-- The probe leaves its result: no task with its address is finished after it. -/
def Leaves (p : Probe) : Prop :=
  (x.round.filter fun q => q.target.ip = p.target.ip).getLast? = some p

/-- The link that the report has for the target of a probe. -/
def link (p : Probe) : LinkCongestion := x.report.linksCongestion.val p.target.ip

/-- The weight that the link is given when the report is entered, if it becomes an edge. -/
def weight (math : Math) (p : Probe) : Option ℚ :=
  (linkEdge math (withReport x.g x.report) x.report (x.link p)).map (·.edgeWeight)

/-- The load of the target. -/
def cpuPressure (p : Probe) : ℚ := targetLoad (withReport x.g x.report) (x.link p)

end Pass

section Links
variable {x : Pass} {p : Probe}

theorem link_eq (h : x.Leaves p) : x.link p = linkOf p.target.ip p.result := by
  have hp : p ∈ x.round := (List.mem_filter.mp (List.mem_of_getLast? h)).1
  have hkept := kept_resultsAfter (x.earlier ++ [x.round])
  have hkey : p.target.ip ∈ (resultsAfter (x.earlier ++ [x.round])).keys := by
    rw [resultsAfter_concat, mem_doProbeLossRTT_keys]
    exact Or.inr ⟨p, hp, rfl⟩
  have hval : (resultsAfter (x.earlier ++ [x.round])).val p.target.ip = p.result := by
    rw [resultsAfter_concat, doProbeLossRTT_val, h]
    rfl
  unfold Pass.link Pass.report
  rw [report_val hkept hkey, hval]

theorem weight_eq_some {math : Math} {w : ℚ} (h : x.weight math p = some w) :
    w = edgeRisk math (x.cpuPressure p) (x.link p).packetLoss (x.link p).averageLatency := by
  unfold Pass.weight at h
  rw [linkEdge_eq] at h
  split at h
  · rw [Option.map_some, Option.some.injEq] at h
    exact h.symm
  · simp at h

end Links

section Durations

/-- A whole number of milliseconds that is not positive. -/
theorem milliseconds_nonpos_iff {d : ℤ} (hd : 0 < d) : milliseconds d ≤ 0 ↔ d < 1000000 := by
  unfold milliseconds
  rw [Int.tdiv_eq_ediv_of_nonneg (by omega)]
  omega

theorem milliseconds_nonneg {d : ℤ} (hd : 0 < d) : 0 ≤ milliseconds d :=
  Int.tdiv_nonneg (by omega) (by omega)

theorem avgRTT_pos (t : Tally) : 0 < t.avgRTT := by
  unfold Tally.avgRTT
  simp only
  split
  · omega
  · omega

theorem tdiv_lt_iff {a b c : ℤ} (hb : 0 < b) (hc : 0 < c) : a.tdiv b < c ↔ a < c * b := by
  by_cases ha : 0 ≤ a
  · rw [Int.tdiv_eq_ediv_of_nonneg ha]
    exact Int.ediv_lt_iff_lt_mul hb
  · have hneg : 0 ≤ (-a).tdiv b := Int.tdiv_nonneg (by omega) (by omega)
    rw [Int.neg_tdiv] at hneg
    have hpos : 0 < c * b := mul_pos hc hb
    constructor
    · intro _
      omega
    · intro _
      omega

/-- The average is below a bound if and only if the total is below so many times it. -/
theorem avgRTT_lt_iff {p : Probe} {c : ℤ} (hc : 1 < c) (h : answered p.attempts ≠ []) :
    p.tally.avgRTT < c ↔ totalRTT p.attempts < c * (answered p.attempts).length := by
  obtain ⟨hsuccesses, htotal⟩ := p.tally_eq
  have hpos : 0 < (answered p.attempts).length := List.length_pos_iff.mpr h
  unfold Tally.avgRTT
  rw [hsuccesses, htotal, if_pos hpos,
    ← tdiv_lt_iff (show (0 : ℤ) < ((answered p.attempts).length : ℤ) by omega) (by omega)]
  simp only
  split
  · constructor
    · intro _
      omega
    · intro _
      exact hc
  · exact Iff.rfl

end Durations

/-- With the same load, the link of lower latency has the lower risk. -/
theorem edgeRisk_le_iff {math : Math}
    (hmono : StrictMonoOn (fun y => math.pow y (3 / 2)) (Set.Ici 0)) {cpu loss loss' lat lat' : ℚ}
    (hlat : 0 ≤ lat) (hlat' : 0 ≤ lat') :
    edgeRisk math cpu loss lat ≤ edgeRisk math cpu loss' lat' ↔ lat ≤ lat' := by
  have hratio : 0 ≤ lat / 150 := div_nonneg hlat (by norm_num)
  have hratio' : 0 ≤ lat' / 150 := div_nonneg hlat' (by norm_num)
  have hpow : math.pow (lat / 150) (3 / 2) ≤ math.pow (lat' / 150) (3 / 2) ↔
      lat / 150 ≤ lat' / 150 := hmono.le_iff_le hratio hratio'
  unfold edgeRisk
  simp only [if_neg (not_lt.mpr hratio), if_neg (not_lt.mpr hratio'), zero_mul]
  constructor
  · intro h
    have hle := hpow.mp (by linarith)
    linarith
  · intro h
    have hle := hpow.mpr (by linarith)
    linarith

/-- A link without any answer is not preferred to one with an answer if and only if the
answers of the other one take less than a millisecond on average. -/
theorem dead_weight_ge_iff {math : Math}
    (hmono : StrictMonoOn (fun y => math.pow y (3 / 2)) (Set.Ici 0))
    {x y : Pass} {dead alive : Probe} (hx : x.Leaves dead) (hy : y.Leaves alive)
    (hdead : ∀ a ∈ dead.attempts, a.outcome = .timedOut)
    (halive : ∃ a ∈ alive.attempts, a.outcome ≠ .timedOut)
    (hcpu : x.cpuPressure dead = y.cpuPressure alive) {w w' : ℚ}
    (hw : x.weight math dead = some w) (hw' : y.weight math alive = some w') :
    w' ≤ w ↔ totalRTT alive.attempts < 1000000 * (answered alive.attempts).length := by
  have hnone : answered dead.attempts = [] := by
    unfold answered
    rw [List.filter_eq_nil_iff]
    intro a ha
    simp [hdead a ha]
  have hsome : answered alive.attempts ≠ [] := by
    obtain ⟨a, ha, houtcome⟩ := halive
    exact List.ne_nil_of_mem (List.mem_filter.mpr ⟨ha, by simpa using houtcome⟩)
  have hzero : (x.link dead).averageLatency = 0 := by
    rw [link_eq hx]
    show ((milliseconds dead.tally.avgRTT : ℤ) : ℚ) = 0
    rw [Probe.avgRTT_of_no_answer hnone]
    decide
  have hlatency : (y.link alive).averageLatency = milliseconds alive.tally.avgRTT := by
    rw [link_eq hy]
    rfl
  rw [weight_eq_some hw, weight_eq_some hw', hcpu, hzero, hlatency]
  have hpos := avgRTT_pos alive.tally
  rw [edgeRisk_le_iff hmono (by exact_mod_cast milliseconds_nonneg hpos) le_rfl,
    ← avgRTT_lt_iff (by omega) hsome, ← milliseconds_nonpos_iff hpos]
  exact_mod_cast Iff.rfl

theorem sampleMath_strictMonoOn :
    StrictMonoOn (fun y => sampleMath.pow y (3 / 2)) (Set.Ici 0) := by
  intro a _ b _ hab
  have hne : (3 / 2 : ℚ) ≠ 2 := by norm_num
  simp only [sampleMath, if_neg hne]
  split
  · split
    · exact hab
    · linarith
  · split
    · linarith
    · linarith

/-- The first round of a node with one task, which is an origin. -/
def firstPass (attempts : List Attempt) : Pass where
  earlier := []
  round := [⟨task .source "10.0.0.9" 80, attempts⟩]
  order := GoMap.range _
  node := ⟨"10.0.0.1", "gcp", "EU"⟩
  usage := 10
  g := newGraphManager

def timeouts : Probe := ⟨task .source "10.0.0.9" 80, [⟨.timedOut, 2000000000⟩]⟩

def answers (rtt : ℤ) : Probe := ⟨task .source "10.0.0.9" 80, [⟨.connected, rtt⟩]⟩

theorem weight_timeouts : (firstPass timeouts.attempts).weight sampleMath timeouts = some 0 := by
  decide +kernel

theorem weight_answers :
    (firstPass (answers 150000000).attempts).weight sampleMath (answers 150000000) =
      some (1 / 2) := by
  decide +kernel

theorem leaves_timeouts : (firstPass timeouts.attempts).Leaves timeouts := rfl

theorem leaves_answers (rtt : ℤ) : (firstPass (answers rtt).attempts).Leaves (answers rtt) := rfl

theorem same_cpuPressure : (firstPass timeouts.attempts).cpuPressure timeouts =
    (firstPass (answers 150000000).attempts).cpuPressure (answers 150000000) := by
  decide +kernel

/-- An answer after 150 ms. -/
theorem slow_answer_weight : (1 / 2 : ℚ) ≤ 0 ↔
    totalRTT (answers 150000000).attempts <
      1000000 * (answered (answers 150000000).attempts).length :=
  dead_weight_ge_iff sampleMath_strictMonoOn leaves_timeouts (leaves_answers 150000000)
    (by decide) (by decide) same_cpuPressure weight_timeouts weight_answers

/-- The origin that never answers is preferred. -/
theorem timeouts_preferred :
    (firstPass timeouts.attempts).Leaves timeouts ∧
      (firstPass (answers 150000000).attempts).Leaves (answers 150000000) ∧
      (∀ a ∈ timeouts.attempts, a.outcome = .timedOut) ∧
      (∃ a ∈ (answers 150000000).attempts, a.outcome ≠ .timedOut) ∧
      (firstPass timeouts.attempts).cpuPressure timeouts =
        (firstPass (answers 150000000).attempts).cpuPressure (answers 150000000) ∧
      (firstPass timeouts.attempts).weight sampleMath timeouts = some 0 ∧
      (firstPass (answers 150000000).attempts).weight sampleMath (answers 150000000) =
        some (1 / 2) :=
  ⟨leaves_timeouts, leaves_answers 150000000, by decide, by decide, same_cpuPressure,
    weight_timeouts, weight_answers⟩

end Arcturus.DeadLinks
