import Arcturus.NodeGraph

/-!
From the dial attempts of the data plane to the report of its node. The results of a
round are kept under the addresses of their targets, every result that is kept becomes a
link, and the links become the report that the graph is given. Durations are 64-bit
counts of nanoseconds; rates and averages are exact. The encodings on the way from one
program to the other are left out.
-/

namespace Arcturus.Probing

open GoMaps Upserts EdgeLists NodeGraph

/-- How a dial ends. An error that is no timeout is an answer, too. -/
inductive DialOutcome where
  | connected
  | timedOut
  | otherError
  deriving DecidableEq, Repr

structure Attempt where
  outcome : DialOutcome
  rtt : ℤ
  deriving DecidableEq, Repr

structure Result where
  target : ProbeTask
  attempts : ℕ
  failures : ℕ
  lossRate : ℚ
  avgRTT : ℤ
  deriving DecidableEq, Repr, Inhabited

/-- What the loop over the attempts counts. -/
structure Tally where
  failures : ℕ
  totalRTT : ℤ
  successes : ℕ
  deriving DecidableEq, Repr

def tally (t : Tally) (a : Attempt) : Tally :=
  match a.outcome with
  | .timedOut => { t with failures := t.failures + 1 }
  | .connected | .otherError =>
    { t with successes := t.successes + 1, totalRTT := (t.totalRTT + a.rtt).bmod (2 ^ 64) }

/-- The average over the answers, at least one nanosecond. -/
def Tally.avgRTT (t : Tally) : ℤ :=
  let avgRTT := if t.successes > 0 then t.totalRTT.tdiv t.successes else 0
  if avgRTT ≤ 0 then 1 else avgRTT

/-- A task with the attempts that a worker makes for it. -/
structure Probe where
  target : ProbeTask
  attempts : List Attempt
  deriving DecidableEq, Repr

def Probe.tally (p : Probe) : Tally := p.attempts.foldl Probing.tally ⟨0, 0, 0⟩

def Probe.result (p : Probe) : Result where
  target := p.target
  attempts := p.attempts.length
  failures := p.tally.failures
  lossRate := p.tally.failures / p.attempts.length
  avgRTT := p.tally.avgRTT

abbrev Results := GoMap String Result

def updateLatestResults (latestResults : Results) (results : List Result) : Results :=
  results.foldl (fun m r => m.set r.target.ip r) latestResults

/-- A round, with the tasks in the order in which the workers finish them. -/
def doProbeLossRTT (latestResults : Results) (round : List Probe) : Results :=
  updateLatestResults latestResults (round.map Probe.result)

/-- The results that are kept after these rounds. -/
def resultsAfter (rounds : List (List Probe)) : Results :=
  rounds.foldl doProbeLossRTT GoMap.empty

/-- Whole milliseconds. -/
def milliseconds (d : ℤ) : ℤ := d.tdiv 1000000

def linkOf (target : String) (r : Result) : LinkCongestion where
  targetIP := target
  target := r.target
  packetLoss := r.lossRate
  averageLatency := milliseconds r.avgRTT

def buildLinkCongestion (results : Results) (order : results.Range) : List LinkCongestion :=
  order.keys.map fun target => linkOf target (results.val target)

/-- What is collected for one target. -/
structure LinkGroup where
  targetIP : String
  packetLosses : List ℚ
  averageLatencies : List ℚ
  probeTask : ProbeTask
  deriving Inhabited

def collect (o : Option LinkGroup) (v : LinkCongestion) : LinkGroup :=
  let t := o.getD ⟨v.targetIP, [], [], v.target⟩
  { t with
    packetLosses := t.packetLosses ++ [v.packetLoss]
    averageLatencies := t.averageLatencies ++ [v.averageLatency] }

def average (vs : List ℚ) : ℚ := if vs.sum ≠ 0 ∧ vs.length > 0 then vs.sum / vs.length else vs.sum

def averaged (k : String) (vs : LinkGroup) : LinkCongestion where
  targetIP := k
  target := vs.probeTask
  packetLoss := average vs.packetLosses
  averageLatency := average vs.averageLatencies

/-- What the configuration says about the node. -/
structure NodeConfig where
  publicIP : String
  provider : String
  continent : String

/-- The order of the loops over the groups shows only in the order of the keys. -/
def doClusterWeightedAvg (node : NodeConfig) (usage : ℚ) (links : List LinkCongestion) :
    NodeTelemetry :=
  let totalLinksCong := links.foldl (upsert (·.targetIP) collect) GoMap.empty
  { publicIP := node.publicIP
    provider := node.provider
    continent := node.continent
    cpuPressure := usage
    linksCongestion := totalLinksCong.keys.foldl
      (fun m k => m.set k (averaged k ((totalLinksCong.val k).getD default))) GoMap.empty }

/-- The report that the results become. -/
def report (node : NodeConfig) (usage : ℚ) (results : Results) (order : results.Range) :
    NodeTelemetry :=
  doClusterWeightedAvg node usage (buildLinkCongestion results order)

/-- An origin of the file of probe targets. -/
structure SourceTarget where
  provider : String
  ip : String
  port : ℤ
  region : String
  id : String

/-- The tasks that the control plane hands out, with its loops in any order: one for each
node but the one with its own address, and one for each origin. -/
def getProbeTasks (ip : String) (nodes : List NodeTelemetry) (sources : List SourceTarget) :
    List ProbeTask :=
  (nodes.filter fun telemetry => telemetry.publicIP ≠ ip).map (fun telemetry =>
      ⟨.node, telemetry.provider, telemetry.publicIP, 7083, telemetry.continent, ""⟩) ++
    sources.map fun v => ⟨.source, v.provider, v.ip, v.port, v.region, v.id⟩

section Tallies

/-- The attempts that did not time out. -/
def answered (attempts : List Attempt) : List Attempt :=
  attempts.filter fun a => a.outcome ≠ .timedOut

theorem tally_timedOut {a : Attempt} (h : a.outcome = .timedOut) (t : Tally) :
    tally t a = { t with failures := t.failures + 1 } := by
  simp [tally, h]

theorem tally_answered {a : Attempt} (h : a.outcome ≠ .timedOut) (t : Tally) :
    tally t a =
      { t with successes := t.successes + 1, totalRTT := (t.totalRTT + a.rtt).bmod (2 ^ 64) } := by
  cases houtcome : a.outcome with
  | timedOut => exact absurd houtcome h
  | connected => simp [tally, houtcome]
  | otherError => simp [tally, houtcome]

/-- The loop counts the answers and adds up their durations. -/
theorem foldl_tally (attempts : List Attempt) (t : Tally)
    (ht : t.totalRTT.bmod (2 ^ 64) = t.totalRTT) :
    (attempts.foldl tally t).successes = t.successes + (answered attempts).length ∧
      (attempts.foldl tally t).totalRTT =
        (t.totalRTT + ((answered attempts).map (·.rtt)).sum).bmod (2 ^ 64) := by
  induction attempts generalizing t with
  | nil =>
    refine ⟨rfl, ?_⟩
    rw [show answered [] = [] from rfl, List.map_nil, List.sum_nil, add_zero, ht]
    rfl
  | cons a attempts ih =>
    rw [List.foldl_cons]
    by_cases ha : a.outcome = .timedOut
    · have hskip : answered (a :: attempts) = answered attempts :=
        List.filter_cons_of_neg (by simp [ha])
      rw [tally_timedOut ha, hskip]
      exact ih _ ht
    · have hmeet : answered (a :: attempts) = a :: answered attempts :=
        List.filter_cons_of_pos (by simp [ha])
      rw [tally_answered ha, hmeet]
      obtain ⟨hsuccesses, htotal⟩ := ih ⟨t.failures, (t.totalRTT + a.rtt).bmod (2 ^ 64),
        t.successes + 1⟩ Int.bmod_bmod
      refine ⟨?_, ?_⟩
      · rw [hsuccesses, List.length_cons]
        simp only
        omega
      · rw [htotal, Int.bmod_add_bmod, List.map_cons, List.sum_cons, add_assoc]

/-- The total duration of the answers, as the 64-bit sum has it. -/
def totalRTT (attempts : List Attempt) : ℤ :=
  ((answered attempts).map Attempt.rtt).sum.bmod (2 ^ 64)

theorem Probe.tally_eq (p : Probe) : p.tally.successes = (answered p.attempts).length ∧
    p.tally.totalRTT = totalRTT p.attempts := by
  obtain ⟨hsuccesses, htotal⟩ := foldl_tally p.attempts ⟨0, 0, 0⟩ (by decide)
  rw [zero_add] at hsuccesses htotal
  exact ⟨hsuccesses, htotal⟩

theorem Probe.avgRTT_of_no_answer {p : Probe} (h : answered p.attempts = []) :
    p.tally.avgRTT = 1 := by
  have hnone : p.tally.successes = 0 := by
    rw [p.tally_eq.1, h]
    rfl
  simp [Tally.avgRTT, hnone]

end Tallies

section Rounds
variable {results : Results} {round : List Probe} {k : String}

theorem doProbeLossRTT_eq (results : Results) (round : List Probe) :
    doProbeLossRTT results round =
      round.foldl (fun m p => m.set p.target.ip p.result) results := by
  unfold doProbeLossRTT updateLatestResults
  rw [List.foldl_map]
  rfl

theorem mem_doProbeLossRTT_keys :
    k ∈ (doProbeLossRTT results round).keys ↔
      k ∈ results.keys ∨ ∃ p ∈ round, p.target.ip = k := by
  rw [doProbeLossRTT_eq]
  exact GoMap.mem_foldl_set_keys _ _ round results k

/-- Of the tasks with one address, the one that is finished last leaves its result. -/
theorem doProbeLossRTT_val :
    (doProbeLossRTT results round).val k =
      ((round.filter fun p => p.target.ip = k).getLast?).elim (results.val k) Probe.result := by
  rw [doProbeLossRTT_eq]
  induction round using List.reverseRecOn with
  | nil => rfl
  | append_singleton round p ih =>
    rw [List.foldl_append, List.foldl_cons, List.foldl_nil, List.filter_append]
    by_cases hp : p.target.ip = k
    · subst hp
      simp
    · rw [GoMap.set_val_of_ne _ _ (Ne.symm hp), ih]
      simp [hp]

/-- The results are kept under the addresses of their targets, once each. -/
structure Kept (results : Results) : Prop where
  nodup : results.keys.Nodup
  address : ∀ k ∈ results.keys, (results.val k).target.ip = k

theorem Kept.doProbeLossRTT (h : Kept results) (round : List Probe) :
    Kept (doProbeLossRTT results round) := by
  rw [doProbeLossRTT_eq]
  induction round generalizing results with
  | nil => exact h
  | cons p round ih =>
    refine ih ⟨GoMap.nodup_set_keys h.nodup _ _, ?_⟩
    intro k hk
    by_cases hkp : k = p.target.ip
    · subst hkp
      rw [GoMap.set_val_same]
      rfl
    · rw [GoMap.set_val_of_ne _ _ hkp]
      rw [GoMap.mem_set_keys] at hk
      exact h.address k (hk.resolve_left hkp)

theorem kept_resultsAfter (rounds : List (List Probe)) : Kept (resultsAfter rounds) := by
  unfold resultsAfter
  induction rounds using List.reverseRecOn with
  | nil => exact ⟨List.nodup_nil, by simp [GoMap.empty]⟩
  | append_singleton rounds round ih =>
    rw [List.foldl_append]
    exact ih.doProbeLossRTT round

theorem resultsAfter_concat (rounds : List (List Probe)) (round : List Probe) :
    resultsAfter (rounds ++ [round]) = doProbeLossRTT (resultsAfter rounds) round := by
  simp [resultsAfter]

end Rounds

section Reports
variable {results : Results} {order : results.Range} {node : NodeConfig} {usage : ℚ} {k : String}

theorem average_singleton (x : ℚ) : average [x] = x := by
  simp [average]

theorem map_targetIP_buildLinkCongestion :
    (buildLinkCongestion results order).map (·.targetIP) = order.keys := by
  unfold buildLinkCongestion
  rw [List.map_map]
  exact List.map_id _

/-- A link that is alone under its address is reported as it is. -/
theorem averaged_collect (v : LinkCongestion) : averaged v.targetIP (collect none v) = v := by
  simp [averaged, collect, average_singleton]

/-- The links of the report are those of the results that are kept. -/
theorem mem_report_keys :
    k ∈ (report node usage results order).linksCongestion.keys ↔ k ∈ results.keys := by
  unfold report doClusterWeightedAvg
  rw [GoMap.mem_foldl_set_keys]
  simp only [GoMap.empty, List.not_mem_nil, false_or, exists_eq_right]
  rw [mem_foldl_upsert_keys, ← order.perm.mem_iff, ← map_targetIP_buildLinkCongestion, List.mem_map]
  simp

theorem report_val (h : Kept results) (hk : k ∈ results.keys) :
    (report node usage results order).linksCongestion.val k = linkOf k (results.val k) := by
  have hmem : linkOf k (results.val k) ∈ buildLinkCongestion results order :=
    List.mem_map.mpr ⟨k, order.perm.mem_iff.mpr hk, rfl⟩
  have hnodup : ((buildLinkCongestion results order).map (·.targetIP)).Nodup := by
    rw [map_targetIP_buildLinkCongestion, order.perm.nodup_iff]
    exact h.nodup
  have hgroup : ((buildLinkCongestion results order).foldl (upsert (·.targetIP) collect)
      GoMap.empty).val k = some (collect none (linkOf k (results.val k))) :=
    foldl_upsert_val_of_mem (·.targetIP) collect hnodup hmem GoMap.empty
  unfold report doClusterWeightedAvg
  rcases GoMap.foldl_set_val (fun a => a) (fun a => averaged a
      ((((buildLinkCongestion results order).foldl (upsert (·.targetIP) collect)
        GoMap.empty).val a).getD default))
    ((buildLinkCongestion results order).foldl (upsert (·.targetIP) collect) GoMap.empty).keys
    GoMap.empty k with ⟨a, -, rfl, hval⟩ | ⟨hnone, -⟩
  · refine hval.trans ?_
    rw [hgroup]
    exact averaged_collect (linkOf a (results.val a))
  · refine absurd rfl (hnone k ?_)
    rw [mem_foldl_upsert_keys]
    exact Or.inr ⟨_, hmem, rfl⟩

end Reports

end Arcturus.Probing
