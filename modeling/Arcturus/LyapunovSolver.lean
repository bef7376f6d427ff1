import Arcturus.EdgeSolvers

/-!
The solver with exponential penalties. The score of a node is the sum of a penalty for its
load and one for its delay; the traffic is divided by a softmax of the scores, the least
score first. The exponential is a parameter, of which the results need that it is positive
and strictly increasing.
-/

namespace Arcturus.LyapunovSolver

open ExchangeSort EdgeSolvers Shares

variable {K : Type*} [Field K]

/-- The latency that counts as good; the other limits are not read. -/
structure LatencyConfig (K : Type*) where
  good : K

/-- The load in the middle and the weight of a deviation; the other limits are not read. -/
structure CPUThresholds (K : Type*) where
  mid : K
  sensitivityCPU : K

def sensitivityCPU : K := 2.0

def sensitivityDelay : K := 0.20

def defaultV : K := 1.0

def softmaxTemp : K := 2.0

def twoCores : CPUThresholds K := ⟨60.0, 2.0⟩

def fourCores : CPUThresholds K := ⟨80.0, 3.0⟩

/-- Other numbers of cores count as two. -/
def getCPUThresholds (logicalCores : ℤ) : CPUThresholds K :=
  if logicalCores = 2 then twoCores else if logicalCores = 4 then fourCores else twoCores

def continentPairConfigs (key : String) : Option (LatencyConfig K) :=
  if key = "Asia-NorthAmerica" then some ⟨60.0⟩
  else if key = "NorthAmerica-Asia" then some ⟨60.0⟩
  else none

def getLatencyConfig (sourceCont destCont : String) : LatencyConfig K :=
  match continentPairConfigs (sourceCont ++ "-" ++ destCont) with
  | some config => config
  | none => if sourceCont ≠ destCont then ⟨60.0⟩ else ⟨20.0⟩

/-- `exp (-score / temperature)`. -/
def softmaxWeight (exp : K → K) (temperature score : K) : K := exp (-score / temperature)

variable [LinearOrder K]

def computeCPUPenalty (exp : K → K) (qk : K) (logicalCores : ℤ) : K :=
  let config := getCPUThresholds logicalCores
  let alpha := if config.sensitivityCPU ≤ 0 then sensitivityCPU else config.sensitivityCPU
  if config.mid ≤ 0 then exp (alpha * (qk / 60.0 - 1)) else exp (alpha * (qk / config.mid - 1))

def computeDelayPenalty (exp : K → K) (rt : K) (config : LatencyConfig K) : K :=
  if config.good ≤ 0 then exp (sensitivityDelay * (rt / 50.0 - 1))
  else exp (sensitivityDelay * (rt / config.good - 1))

/-- The backlog of a node: here a negative usage counts as none. -/
def backlog (tel : NodeTelemetry K) : K := if tel.cpu.usage < 0 then 0 else tel.cpu.usage

def score (exp : K → K) (s : Snapshot K) (source : EndPoint) (nodeIp : String)
    (tel : NodeTelemetry K) : K :=
  let delay := delayOf (getNodeRT s source nodeIp)
  let latencyConfig := getLatencyConfig source.continent tel.continent
  let cpuPenalty := computeCPUPenalty exp (backlog tel + |tel.cpu.loadDelta|) tel.cpu.logicalCore
  let delayPenalty := computeDelayPenalty exp delay latencyConfig
  1 * cpuPenalty + defaultV * delayPenalty

def softmaxProbabilities (exp : K → K) (candidates : List (NodeScore K)) (temperature : K) :
    List K :=
  if candidates.length = 0 then []
  else
    let expScores := candidates.map fun c => softmaxWeight exp temperature c.score
    let sumExp := expScores.sum
    expScores.map fun e => if 0 < sumExp then e / sumExp else 0

/-- `LyapunovSolver.Computing`. -/
def computing (exp : K → K) (s : Snapshot K) (source : EndPoint) (order : s.nodes.tel.Range)
    (slice : Sorting (NodeScore.score (K := K))) : List (PathInfo K) :=
  let candidates := scored s (score exp s source) (collectNodes s order)
  if candidates.length = 0 then []
  else
    let candidates := slice.sort candidates
    let probabilities := softmaxProbabilities exp candidates softmaxTemp
    candidates.mapIdx fun i item =>
      { hops := [item.nodeIp], rtt := probabilities[i]?.getD 0, rawRTT := item.score }

/-- The penalty sum of a node. -/
def penaltyAt (exp : K → K) (s : Snapshot K) (source : EndPoint) : String → K :=
  scoreAt s (score exp s source)

variable [IsStrictOrderedRing K]

theorem getCPUThresholds_pos (logicalCores : ℤ) :
    0 < (getCPUThresholds logicalCores : CPUThresholds K).sensitivityCPU ∧
      0 < (getCPUThresholds logicalCores : CPUThresholds K).mid := by
  unfold getCPUThresholds
  split
  · norm_num [twoCores]
  · split
    · norm_num [fourCores]
    · norm_num [twoCores]

section Exponential
variable {exp : K → K} (hpos : ∀ x, 0 < exp x) (hmono : StrictMono exp)

include hmono in
/-- More load is a larger penalty. -/
theorem computeCPUPenalty_lt {a b : K} (h : a < b) (logicalCores : ℤ) :
    computeCPUPenalty exp a logicalCores < computeCPUPenalty exp b logicalCores := by
  obtain ⟨hsens, hmid⟩ := getCPUThresholds_pos (K := K) logicalCores
  simp only [computeCPUPenalty, if_neg (not_le.mpr hsens), if_neg (not_le.mpr hmid)]
  refine hmono (mul_lt_mul_of_pos_left ?_ hsens)
  exact sub_lt_sub_right (div_lt_div_of_pos_right h hmid) 1

include hmono in
/-- A larger score is a smaller weight. -/
theorem softmaxWeight_lt {a b : K} (h : a < b) :
    softmaxWeight exp softmaxTemp b < softmaxWeight exp softmaxTemp a := by
  have htemp : (0 : K) < softmaxTemp := by norm_num [softmaxTemp]
  exact hmono (div_lt_div_of_pos_right (neg_lt_neg h) htemp)

include hpos in
theorem softmaxProbabilities_eq {candidates : List (NodeScore K)} (hne : candidates ≠ []) :
    softmaxProbabilities exp candidates softmaxTemp = candidates.map
      (share (fun c => softmaxWeight exp softmaxTemp c.score) candidates) := by
  have hlen : ¬ candidates.length = 0 := fun h => hne (List.length_eq_zero_iff.mp h)
  have hweight : ∀ c ∈ candidates, 0 < softmaxWeight exp softmaxTemp c.score :=
    fun c _ => hpos _
  simp only [softmaxProbabilities, if_neg hlen]
  rw [List.map_map]
  exact List.map_congr_left fun c _ => if_pos (total_pos hweight hne)

omit [LinearOrder K] [IsStrictOrderedRing K] in
/-- Looking up at its own index what was computed for each entry. -/
theorem mapIdx_getD {α β : Type*} (l : List α) (p : α → K) (g : α → K → β) :
    (l.mapIdx fun i a => g a ((l.map p)[i]?.getD 0)) = l.map fun a => g a (p a) := by
  refine List.ext_getElem? fun i => ?_
  rw [List.getElem?_mapIdx, List.getElem?_map, List.getElem?_map]
  cases l[i]? <;> rfl

include hpos in
/-- The traffic of a computation: a softmax of the scores, the least score first. -/
theorem computing_eq {s : Snapshot K} (hne : s.nodes.tel.keys ≠ []) (source : EndPoint)
    (order : s.nodes.tel.Range) (slice : Sorting (NodeScore.score (K := K))) :
    ∃ ips : List String, ips.Perm s.nodes.tel.keys ∧
      computing exp s source order slice =
        spread (fun ip => softmaxWeight exp softmaxTemp (penaltyAt exp s source ip))
          (penaltyAt exp s source) ips ∧
      ips.Pairwise fun a b => penaltyAt exp s source a ≤ penaltyAt exp s source b := by
  obtain ⟨ips, hperm, hsort, hsorted⟩ := sort_scored hne order (score exp s source) slice
  refine ⟨ips, hperm, ?_, hsorted⟩
  have hips : ips ≠ [] := by
    rintro rfl
    exact hne (List.nil_perm.mp hperm)
  have hlen : ¬ (scored s (score exp s source) (collectNodes s order)).length = 0 := by
    rw [← (slice.perm _).length_eq, hsort, List.length_map]
    exact fun h => hips (List.length_eq_zero_iff.mp h)
  have hmap : ips.map (fun ip => NodeScore.mk ip (penaltyAt exp s source ip)) ≠ [] :=
    fun h => hips (List.map_eq_nil_iff.mp h)
  change slice.sort _ = ips.map (fun ip => NodeScore.mk ip (penaltyAt exp s source ip)) at hsort
  simp only [computing, if_neg hlen, hsort]
  rw [softmaxProbabilities_eq hpos hmap]
  refine (mapIdx_getD _ _ fun (item : NodeScore K) rtt =>
    PathInfo.mk [item.nodeIp] rtt item.score).trans ?_
  rw [List.map_map]
  refine List.map_congr_left fun ip _ => ?_
  simp only [Function.comp_apply, share, total, List.map_map]
  rfl

end Exponential

end Arcturus.LyapunovSolver
