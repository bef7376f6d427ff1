import Arcturus.EwmaRouter
import Arcturus.LyapunovSolver
import Mathlib.Data.List.Chain
import Mathlib.Tactic.Ring
import Mathlib.Algebra.Order.Field.Rat

/-!
A request for a last-mile route. Each request makes a new solver from what the control
plane knows at that moment and drops it afterwards, so that the averages of the smoothing
router never hold more than one report of a node.
-/

namespace Arcturus.LastRouting

open ExchangeSort EdgeSolvers EwmaRouter

variable {K : Type*} [Field K]

/-- The averages one after the other: the first is the first value, each next one the
mixture of a value with the average before. Every value comes with its own factor. -/
def averages : Option K → List (K × K) → List K
  | _, [] => []
  | current, (alpha, x) :: rest =>
    smoothed alpha current x :: averages (some (smoothed alpha current x)) rest

/-- The factor is one, or the value has not changed. -/
def Steady (a b : K × K) : Prop := b.1 = 1 ∨ b.2 = a.2

theorem smoothed_eq_iff (alpha current x : K) :
    smoothed alpha (some current) x = x ↔ alpha = 1 ∨ x = current := by
  have hfactor : smoothed alpha (some current) x - x = (1 - alpha) * (current - x) := by
    unfold smoothed
    ring
  rw [← sub_eq_zero, hfactor, mul_eq_zero, sub_eq_zero, sub_eq_zero]
  exact or_congr eq_comm eq_comm

theorem averages_some_eq_iff (a : K × K) (l : List (K × K)) :
    averages (some a.2) l = l.map Prod.snd ↔ (a :: l).IsChain Steady := by
  induction l generalizing a with
  | nil => simp [averages]
  | cons b l ih =>
    rw [averages, List.map_cons, List.cons.injEq, smoothed_eq_iff, List.isChain_cons_cons]
    refine and_congr_right fun hb => ?_
    rw [(smoothed_eq_iff ..).mpr hb]
    exact ih b

/-- The averages are the values themselves iff every value is steady. -/
theorem averages_eq_iff (l : List (K × K)) :
    averages none l = l.map Prod.snd ↔ l.IsChain Steady := by
  cases l with
  | nil => simp [averages]
  | cons a l =>
    rw [averages, List.map_cons, List.cons.injEq]
    exact (and_iff_right rfl).trans (averages_some_eq_iff a l)

variable [LinearOrder K]

/-- A solver with the order in which its loop takes the nodes. -/
inductive Solver (K : Type*) where
  | lyapunov (snap : Snapshot K) (order : snap.nodes.tel.Range)
  | joint (router : JointRouter K) (snap : Snapshot K) (order : snap.nodes.tel.Range)
  | p2c (snap : Snapshot K) (order : snap.nodes.tel.Range)
  | ewma (router : EWMARouter K) (order : router.snap.nodes.tel.Range)

/-- An unknown algorithm gives no solver. -/
def initLastInterface (snap : Snapshot K) (order : snap.nodes.tel.Range) (algorithm : String)
    (cpuWeight latencyWeight : K) : Option (Solver K) :=
  if algorithm = "lyapunov" then some (.lyapunov snap order)
  else if algorithm = "latency_only" then
    some (.joint (newJointRouter.setWeights 0 1) snap order)
  else if algorithm = "cpu_only" then
    some (.joint (newJointRouter.setWeights 1 0) snap order)
  else if algorithm = "joint_cpu_latency" then
    if 0 ≤ cpuWeight ∧ 0 ≤ latencyWeight then
      some (.joint (newJointRouter.setWeights cpuWeight latencyWeight) snap order)
    else some (.joint newJointRouter snap order)
  else if algorithm = "p2c" then some (.p2c snap order)
  else if algorithm = "ewma_based" then
    if 0 ≤ cpuWeight ∧ 0 ≤ latencyWeight then
      some (.ewma ((newEWMARouter snap).setAlpha cpuWeight latencyWeight) order)
    else some (.ewma (newEWMARouter snap) order)
  else none

def Solver.computing (exp : K → K) (slice : Sorting (NodeScore.score (K := K)))
    (source : EndPoint) : Solver K → List (PathInfo K)
  | .lyapunov snap order => LyapunovSolver.computing exp snap source order slice
  | .joint router snap order => router.computing snap source order slice
  | .p2c snap order => p2cComputing snap order
  | .ewma router order => (router.computing source order).2

/-- The smoothing router after the computation. -/
def Solver.router (source : EndPoint) : Solver K → Option (EWMARouter K)
  | .ewma router order => some (router.computing source order).1
  | _ => none

/-- A call of `LastRouting`: what is known at that moment, and the place that is found for
the user's address, none for an error. -/
structure Call (K : Type*) where
  snap : Snapshot K
  order : snap.nodes.tel.Range
  located : Option EndPoint
  algorithm : String
  cpuWeight : K
  latencyWeight : K

/-- The paths of a call. No result stands for the call of a method on no solver. -/
def lastRouting (exp : K → K) (slice : Sorting (NodeScore.score (K := K))) (c : Call K) :
    Option (List (PathInfo K)) :=
  match c.located with
  | none => some []
  | some source =>
    match initLastInterface c.snap c.order c.algorithm c.cpuWeight c.latencyWeight with
    | none => none
    | some solver => some (solver.computing exp slice source)

namespace Call

/-- The smoothing router at the end of the call. -/
def router (c : Call K) : Option (EWMARouter K) :=
  c.located.bind fun source =>
    (initLastInterface c.snap c.order c.algorithm c.cpuWeight c.latencyWeight).bind
      (Solver.router source)

/-- The averages that the call uses for a node. -/
def cpuUsed (c : Call K) (ip : String) : Option K := c.router.bind fun r => r.cpuEWMA.val ip

def latUsed (c : Call K) (ip : String) : Option K := c.router.bind fun r => r.latEWMA.val ip

/-- The smoothing factor of a call. -/
def alpha (c : Call K) : K :=
  if 0 ≤ c.cpuWeight ∧ 0 ≤ c.latencyWeight then c.cpuWeight
  else (newEWMARouter c.snap).cpuAlpha

/-- The weight of the CPU in the score of a call. -/
def lambda (c : Call K) : K :=
  if 0 ≤ c.cpuWeight ∧ 0 ≤ c.latencyWeight then c.latencyWeight
  else (newEWMARouter c.snap).lambda

/-- The CPU value that is reported for a node when it occurs in a smoothing call. -/
def cpuReport (c : Call K) (ip : String) : Option (K × K) :=
  if c.algorithm = "ewma_based" then
    c.located.bind fun _ => (c.snap.nodes.tel.val ip).map fun tel => (c.alpha, cpuReading tel)
  else none

def latReport (c : Call K) (ip : String) : Option (K × K) :=
  if c.algorithm = "ewma_based" then
    c.located.bind fun source =>
      (c.snap.nodes.tel.val ip).map fun _ => (c.alpha, latencyReading c.snap source ip)
  else none

theorem router_of_ne {c : Call K} (h : c.algorithm ≠ "ewma_based") : c.router = none := by
  unfold router initLastInterface
  rw [if_neg h]
  cases c.located with
  | none => rfl
  | some source =>
    rw [Option.bind_some]
    split_ifs <;> rfl

/-- The router of a call before its computation. -/
structure Fresh (c : Call K) (r : EWMARouter K) : Prop where
  snap : r.snap = c.snap
  cpuAlpha : r.cpuAlpha = c.alpha
  latAlpha : r.latAlpha = c.alpha
  lambda : r.lambda = c.lambda
  cpu : r.cpuEWMA = GoMaps.GoMap.empty
  lat : r.latEWMA = GoMaps.GoMap.empty

/-- A smoothing call works on a new router. -/
theorem solver_of_eq {c : Call K} (h : c.algorithm = "ewma_based") :
    ∃ (r : EWMARouter K) (order : r.snap.nodes.tel.Range), Fresh c r ∧
      initLastInterface c.snap c.order c.algorithm c.cpuWeight c.latencyWeight =
        some (.ewma r order) := by
  unfold initLastInterface
  rw [h]
  by_cases hw : 0 ≤ c.cpuWeight ∧ 0 ≤ c.latencyWeight
  · have halpha : c.cpuWeight = c.alpha := (if_pos hw).symm
    have hlambda : c.latencyWeight = c.lambda := (if_pos hw).symm
    rw [if_pos hw, if_pos hw]
    exact ⟨(newEWMARouter c.snap).setAlpha c.cpuWeight c.latencyWeight, c.order,
      ⟨rfl, halpha, halpha, hlambda, rfl, rfl⟩, rfl⟩
  · have halpha : (newEWMARouter c.snap).cpuAlpha = c.alpha := (if_neg hw).symm
    have hlambda : (newEWMARouter c.snap).lambda = c.lambda := (if_neg hw).symm
    rw [if_neg hw, if_neg hw]
    exact ⟨newEWMARouter c.snap, c.order, ⟨rfl, halpha, halpha, hlambda, rfl, rfl⟩, rfl⟩

theorem router_of_solver {c : Call K} {source : EndPoint} (hsource : c.located = some source)
    {r : EWMARouter K} {order : r.snap.nodes.tel.Range}
    (hsolver : initLastInterface c.snap c.order c.algorithm c.cpuWeight c.latencyWeight =
      some (.ewma r order)) : c.router = some (r.computing source order).1 := by
  rw [router, hsource, Option.bind_some, hsolver]
  rfl

/-- A call uses exactly what is reported in it. -/
theorem used_eq (c : Call K) (ip : String) :
    c.cpuUsed ip = (c.cpuReport ip).map Prod.snd ∧
      c.latUsed ip = (c.latReport ip).map Prod.snd := by
  unfold cpuUsed latUsed cpuReport latReport
  by_cases halg : c.algorithm = "ewma_based"
  · rw [if_pos halg, if_pos halg]
    cases hsource : c.located with
    | none => simp [router, hsource]
    | some source =>
      obtain ⟨r, order, hfresh, hsolver⟩ := solver_of_eq halg
      rw [router_of_solver hsource hsolver, ← hfresh.snap]
      simp only [Option.bind_some]
      cases htel : r.snap.nodes.tel.val ip with
      | none =>
        have hmem := Nodes.not_mem_keys_of_val htel
        have hagree := EWMARouter.computing_agrees r source order
        rw [hagree.cpu ip hmem, hagree.lat ip hmem, hfresh.cpu, hfresh.lat]
        exact ⟨rfl, rfl⟩
      | some tel =>
        obtain ⟨hcpu, hlat⟩ := EWMARouter.computing_averages source order htel
        rw [hcpu, hlat, hfresh.cpu, hfresh.lat]
        exact ⟨rfl, rfl⟩
  · rw [if_neg halg, if_neg halg, router_of_ne halg]
    exact ⟨rfl, rfl⟩

/-- The score of a node in the answer to a smoothing call is made from what it uses. -/
theorem rawRTT_eq {exp : K → K} {slice : Sorting (NodeScore.score (K := K))} {c : Call K}
    (h : c.algorithm = "ewma_based") {paths : List (PathInfo K)}
    (hpaths : lastRouting exp slice c = some paths) {p : PathInfo K} (hp : p ∈ paths)
    {ip : String} (hip : p.hops = [ip]) :
    ∃ x y, c.cpuUsed ip = some x ∧ c.latUsed ip = some y ∧
      p.rawRTT = c.lambda * x + (1 - c.lambda) * y := by
  obtain ⟨r, order, hfresh, hsolver⟩ := solver_of_eq h
  unfold lastRouting at hpaths
  cases hsource : c.located with
  | none =>
    rw [hsource, Option.some.injEq] at hpaths
    exact absurd hp (hpaths ▸ List.not_mem_nil)
  | some source =>
    rw [hsource, hsolver, Option.some.injEq] at hpaths
    have hrouter := router_of_solver hsource hsolver
    obtain ⟨ip', tel, htel, hip', hraw⟩ := EWMARouter.mem_computing (hpaths ▸ hp)
    obtain rfl := List.singleton_inj.mp (hip.symm.trans hip')
    obtain ⟨hcpu, hlat⟩ := EWMARouter.computing_averages source order htel
    refine ⟨_, _, ?_, ?_, hfresh.lambda ▸ hraw⟩
    · rw [cpuUsed, hrouter]
      exact hcpu
    · rw [latUsed, hrouter]
      exact hlat

end Call

/-- What the calls use for a node are the averages of its reports. -/
structure HasMemory (calls : List (Call K)) (ip : String) : Prop where
  cpu : calls.filterMap (·.cpuUsed ip) = averages none (calls.filterMap (·.cpuReport ip))
  lat : calls.filterMap (·.latUsed ip) = averages none (calls.filterMap (·.latReport ip))

/-- The service averages the reports of a node iff no report differs from the one before
in a call with a factor other than one. -/
theorem hasMemory_iff (calls : List (Call K)) (ip : String) :
    HasMemory calls ip ↔ (calls.filterMap (·.cpuReport ip)).IsChain Steady ∧
      (calls.filterMap (·.latReport ip)).IsChain Steady := by
  have hcpu : calls.filterMap (·.cpuUsed ip) =
      (calls.filterMap (·.cpuReport ip)).map Prod.snd := by
    rw [List.map_filterMap]
    exact List.filterMap_congr fun c _ => (c.used_eq ip).1
  have hlat : calls.filterMap (·.latUsed ip) =
      (calls.filterMap (·.latReport ip)).map Prod.snd := by
    rw [List.map_filterMap]
    exact List.filterMap_congr fun c _ => (c.used_eq ip).2
  rw [← averages_eq_iff, ← averages_eq_iff, ← hcpu, ← hlat]
  exact ⟨fun h => ⟨h.cpu.symm, h.lat.symm⟩, fun h => ⟨h.1.symm, h.2.symm⟩⟩

/-- A call for a node with this usage. -/
def callAt (usage : ℚ) : Call ℚ where
  snap :=
    { nodes := Nodes.empty.add ⟨"10.0.0.1", "Asia", ⟨2, usage, 0⟩⟩
      edgeAgg := EdgeAgg.empty
      localIP := "10.0.0.9" }
  order := GoMaps.GoMap.range _
  located := some ⟨"Tokyo", "Asia"⟩
  algorithm := "ewma_based"
  cpuWeight := 1 / 2
  latencyWeight := 1 / 2

/-- A usage of 50 and then of 100: the second call uses 100, not the average 75. -/
theorem second_call_forgets :
    [callAt 50, callAt 100].filterMap (·.cpuUsed "10.0.0.1") = [50, 100] ∧
      averages none ([callAt 50, callAt 100].filterMap (·.cpuReport "10.0.0.1")) = [50, 75] ∧
      ¬ HasMemory [callAt 50, callAt 100] "10.0.0.1" := by
  have hused : [callAt 50, callAt 100].filterMap (·.cpuUsed "10.0.0.1") = [50, 100] := by
    decide +kernel
  have haverages :
      averages none ([callAt 50, callAt 100].filterMap (·.cpuReport "10.0.0.1")) = [50, 75] := by
    decide +kernel
  refine ⟨hused, haverages, fun h => ?_⟩
  have hcpu := h.cpu
  rw [hused, haverages] at hcpu
  simp at hcpu

end Arcturus.LastRouting
