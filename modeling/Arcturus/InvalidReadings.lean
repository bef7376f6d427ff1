import Arcturus.LastMileDistribution

/-!
What an invalid CPU reading does to a node. The usage of one node is replaced by a
negative number and everything else stays. Three of the solvers take that for a full
load; the solver with penalties takes it for no load, so that the node gains by it
unless it had no load before.
-/

namespace Arcturus.InvalidReadings

open GoMaps ExchangeSort EdgeSolvers EwmaRouter Shares

variable {K : Type*}

section Reading
variable [Field K] [LinearOrder K]

/-- A node of a snapshot with a usage between 0 and 100, and a negative one. -/
structure InvalidReading (K : Type*) [Field K] [LinearOrder K] where
  snap : Snapshot K
  node : NodeTelemetry K
  known : snap.nodes.tel.val node.publicIP = some node
  usage_nonneg : 0 ≤ node.cpu.usage
  usage_le : node.cpu.usage ≤ 100
  invalid : K
  negative : invalid < 0

namespace InvalidReading

def ip (i : InvalidReading K) : String := i.node.publicIP

/-- The node with the invalid usage. -/
def changed (i : InvalidReading K) : NodeTelemetry K :=
  { i.node with cpu := { i.node.cpu with usage := i.invalid } }

def after (i : InvalidReading K) : Snapshot K :=
  { i.snap with nodes := i.snap.nodes.add i.changed }

variable (i : InvalidReading K)

theorem snap_val_ip : i.snap.nodes.tel.val i.ip = some i.node := i.known

theorem mem_keys : i.ip ∈ i.snap.nodes.tel.keys := Nodes.mem_keys_of_val i.known

theorem keys_ne_nil : i.snap.nodes.tel.keys ≠ [] := List.ne_nil_of_mem i.mem_keys

theorem after_keys : i.after.nodes.tel.keys = i.snap.nodes.tel.keys :=
  GoMap.set_keys_of_mem _ _ i.mem_keys

theorem after_keys_ne_nil : i.after.nodes.tel.keys ≠ [] := i.after_keys ▸ i.keys_ne_nil

theorem after_val_ip : i.after.nodes.tel.val i.ip = some i.changed := GoMap.set_val_same ..

theorem after_val {a : String} (h : a ≠ i.ip) :
    i.after.nodes.tel.val a = i.snap.nodes.tel.val a := GoMap.set_val_of_ne _ _ h

/-- The latencies do not depend on the usage. -/
theorem getNodeRT_after (source : EndPoint) (a : String) :
    getNodeRT i.after source a = getNodeRT i.snap source a := by
  unfold getNodeRT
  by_cases h : a = i.ip
  · rw [h, i.after_val_ip, i.snap_val_ip]
    rfl
  · rw [i.after_val h]
    rfl

theorem cpuReading_changed : cpuReading i.changed = 100 := if_pos i.negative

theorem cpuReading_node : cpuReading i.node = i.node.cpu.usage :=
  if_neg (not_lt.mpr i.usage_nonneg)

theorem effectiveLoad_le : effectiveLoad i.snap i.ip ≤ effectiveLoad i.after i.ip := by
  have hafter : effectiveLoad i.after i.ip = 100 := by
    unfold effectiveLoad
    rw [i.after_val_ip]
    exact if_pos (Or.inl i.negative)
  rw [hafter, effectiveLoad, i.snap_val_ip]
  simp only
  split
  · exact le_rfl
  · exact i.usage_le

theorem effectiveLoad_after {a : String} (h : a ≠ i.ip) :
    effectiveLoad i.after a = effectiveLoad i.snap a := by
  unfold effectiveLoad
  rw [i.after_val h]

theorem latencyReading_after (source : EndPoint) (a : String) :
    latencyReading i.after source a = latencyReading i.snap source a := by
  unfold latencyReading
  rw [i.getNodeRT_after]

theorem joint_score_after (r : JointRouter K) (source : EndPoint) (a : String)
    (tel : NodeTelemetry K) : r.score i.after source a tel = r.score i.snap source a tel := by
  unfold JointRouter.score
  rw [i.getNodeRT_after]

theorem lyapunov_score_after (exp : K → K) (source : EndPoint) (a : String)
    (tel : NodeTelemetry K) :
    LyapunovSolver.score exp i.after source a tel =
      LyapunovSolver.score exp i.snap source a tel := by
  unfold LyapunovSolver.score
  rw [i.getNodeRT_after]

theorem penaltyAt_after (exp : K → K) (source : EndPoint) {a : String} (h : a ≠ i.ip) :
    LyapunovSolver.penaltyAt exp i.after source a =
      LyapunovSolver.penaltyAt exp i.snap source a := by
  simp only [LyapunovSolver.penaltyAt, scoreAt, i.after_val h]
  rw [funext (i.lyapunov_score_after exp source a)]

/-- The penalties before and after differ in the backlog only. -/
theorem penaltyAt_eq (exp : K → K) (source : EndPoint) :
    LyapunovSolver.penaltyAt exp i.snap source i.ip =
        LyapunovSolver.score exp i.snap source i.ip i.node ∧
      LyapunovSolver.penaltyAt exp i.after source i.ip =
        LyapunovSolver.score exp i.snap source i.ip i.changed := by
  simp only [LyapunovSolver.penaltyAt, scoreAt, i.snap_val_ip, i.after_val_ip, Option.map_some,
    Option.getD_some, i.lyapunov_score_after, and_self]

theorem backlog_changed : LyapunovSolver.backlog i.changed = 0 := if_pos i.negative

theorem backlog_node : LyapunovSolver.backlog i.node = i.node.cpu.usage :=
  if_neg (not_lt.mpr i.usage_nonneg)

theorem penaltyAt_same (exp : K → K) (source : EndPoint) (h : i.node.cpu.usage = 0) (a : String) :
    LyapunovSolver.penaltyAt exp i.after source a =
      LyapunovSolver.penaltyAt exp i.snap source a := by
  by_cases ha : a = i.ip
  · have hbacklog : LyapunovSolver.backlog i.changed = LyapunovSolver.backlog i.node := by
      rw [i.backlog_changed, i.backlog_node, h]
    rw [ha, (i.penaltyAt_eq exp source).1, (i.penaltyAt_eq exp source).2]
    simp only [LyapunovSolver.score, hbacklog]
    rfl
  · exact i.penaltyAt_after exp source ha

end InvalidReading

section Ewma
variable (alpha lambda : K) (source : EndPoint)

/-- The score on a new router is made from the readings themselves. -/
theorem combinedAt_new {s : Snapshot K} {ip : String} {tel : NodeTelemetry K}
    (h : s.nodes.tel.val ip = some tel) :
    ((newEWMARouter s).setAlpha alpha lambda).combinedAt source ip =
      lambda * cpuReading tel + (1 - lambda) * latencyReading s source ip := by
  unfold EWMARouter.combinedAt
  rw [EWMARouter.candidateAt_some source h]
  simp only [EWMARouter.combine, latencyScale, div_one]
  rfl

theorem InvalidReading.combinedAt_after (i : InvalidReading K) {a : String}
    (hmem : a ∈ i.snap.nodes.tel.keys) (h : a ≠ i.ip) :
    ((newEWMARouter i.after).setAlpha alpha lambda).combinedAt source a =
      ((newEWMARouter i.snap).setAlpha alpha lambda).combinedAt source a := by
  obtain ⟨tel, htel, -⟩ := i.snap.nodes.keyed a hmem
  rw [combinedAt_new alpha lambda source htel,
    combinedAt_new alpha lambda source ((i.after_val h).trans htel), i.latencyReading_after]

end Ewma

/-- At this address the second list has no smaller score and no larger share. -/
structure NoBetter (ip : String) (before after : List (PathInfo K)) : Prop where
  score : ∀ p ∈ before, ∀ q ∈ after, p.hops = [ip] → q.hops = [ip] → p.rawRTT ≤ q.rawRTT
  share : ∀ p ∈ before, ∀ q ∈ after, p.hops = [ip] → q.hops = [ip] → q.rtt ≤ p.rtt

/-- The joint routers that calls of `SetWeights` lead to. -/
def jointRouter (calls : List (K × K)) : JointRouter K :=
  calls.foldl (fun r w => r.setWeights w.1 w.2) newJointRouter

/-- In none of the solvers without penalties does the node gain by the invalid reading, in
whatever orders the two runs take the nodes. -/
structure NoGain (i : InvalidReading K) : Prop where
  p2c_load : effectiveLoad i.snap i.ip ≤ effectiveLoad i.after i.ip
  p2c_share : ∀ order order', ∀ p ∈ p2cComputing i.snap order, ∀ q ∈ p2cComputing i.after order',
    p.hops = [i.ip] → q.hops = [i.ip] → q.rtt ≤ p.rtt
  ewma : ∀ alpha lambda : K, 0 ≤ lambda → lambda ≤ 1 → ∀ source order order',
    NoBetter i.ip
      (((newEWMARouter i.snap).setAlpha alpha lambda).computing source order).2
      (((newEWMARouter i.after).setAlpha alpha lambda).computing source order').2
  joint : ∀ calls source order order' slice slice',
    ∀ p ∈ (jointRouter calls).computing i.snap source order slice,
    ∀ q ∈ (jointRouter calls).computing i.after source order' slice',
      p.hops = [i.ip] → q.hops = [i.ip] → p.rtt ≤ q.rtt

/-- Neither does it gain in the solver with penalties. -/
structure NeverHelps (exp : K → K) (i : InvalidReading K) : Prop extends NoGain i where
  lyapunov : ∀ source order order' slice slice', NoBetter i.ip
    (LyapunovSolver.computing exp i.snap source order slice)
    (LyapunovSolver.computing exp i.after source order' slice')

end Reading

variable [Field K] [LinearOrder K] [IsStrictOrderedRing K]

/-- Lowering the weight of one node lowers its share, in whatever order they stand. -/
theorem spread_share_le {weight weight' raw raw' : String → K} {ips ips' keys : List String}
    {ip : String} (hperm : ips.Perm keys) (hperm' : ips'.Perm keys) (hnodup : keys.Nodup)
    (hip : ip ∈ keys) (hpos : ∀ a, 0 < weight a) (hpos' : 0 < weight' ip)
    (hle : weight' ip ≤ weight ip) (hsame : ∀ a ∈ keys, a ≠ ip → weight' a = weight a)
    {p q : PathInfo K} (hp : p ∈ spread weight raw ips) (hq : q ∈ spread weight' raw' ips')
    (hpip : p.hops = [ip]) (hqip : q.hops = [ip]) : q.rtt ≤ p.rtt := by
  obtain ⟨a, -, rfl⟩ := mem_spread hp
  obtain ⟨b, -, rfl⟩ := mem_spread hq
  obtain rfl := List.singleton_inj.mp hpip
  obtain rfl := List.singleton_inj.mp hqip
  exact share_le_of_lowered (hperm'.trans hperm.symm) (hperm.nodup_iff.mpr hnodup)
    (hperm.mem_iff.mpr hip) (fun a _ => hpos a) hpos' hle
    fun a ha hne => hsame a (hperm.mem_iff.mp ha) hne

/-- Of two such runs the second is not better if the score is no smaller and the weight
no larger. -/
theorem noBetter_spread {weight weight' raw raw' : String → K} {ips ips' keys : List String}
    {ip : String} (hperm : ips.Perm keys) (hperm' : ips'.Perm keys) (hnodup : keys.Nodup)
    (hip : ip ∈ keys) (hpos : ∀ a, 0 < weight a) (hpos' : 0 < weight' ip)
    (hraw : raw ip ≤ raw' ip) (hle : weight' ip ≤ weight ip)
    (hsame : ∀ a ∈ keys, a ≠ ip → weight' a = weight a) :
    NoBetter ip (spread weight raw ips) (spread weight' raw' ips') where
  score p hp q hq hpip hqip := by
    obtain ⟨a, -, rfl⟩ := mem_spread hp
    obtain ⟨b, -, rfl⟩ := mem_spread hq
    obtain rfl := List.singleton_inj.mp hpip
    obtain rfl := List.singleton_inj.mp hqip
    exact hraw
  share p hp q hq := spread_share_le hperm hperm' hnodup hip hpos hpos' hle hsame hp hq

/-- A score that does not fall does not raise the weight, unless it leaves zero for a
number below one. -/
theorem rawWeight_le {a b : K} (ha : 0 ≤ a) (hle : a ≤ b) (hone : a = 0 → 1 ≤ b) :
    rawWeight b ≤ rawWeight a := by
  unfold rawWeight
  rcases ha.lt_or_eq with hpos | hzero
  · rw [if_pos hpos, if_pos (hpos.trans_le hle)]
    exact one_div_le_one_div_of_le hpos hle
  · have hb := hone hzero.symm
    rw [if_pos (zero_lt_one.trans_le hb), if_neg (hzero ▸ lt_irrefl 0)]
    exact (div_le_one (zero_lt_one.trans_le hb)).mpr hb

theorem rawWeight_pos (a : K) : 0 < rawWeight a := by
  unfold rawWeight
  split
  · exact one_div_pos.mpr ‹_›
  · exact zero_lt_one

theorem setWeights_nonneg {r : JointRouter K} (h : 0 ≤ r.cpuWeight)
    (cpuWeight latencyWeight : K) : 0 ≤ (r.setWeights cpuWeight latencyWeight).cpuWeight := by
  unfold JointRouter.setWeights
  split
  · rename_i hpos
    exact div_nonneg hpos.1.le (add_pos hpos.1 hpos.2).le
  · split
    · exact le_rfl
    · split
      · exact zero_le_one
      · exact h

theorem jointRouter_nonneg (calls : List (K × K)) : 0 ≤ (jointRouter calls).cpuWeight := by
  have hnew : 0 ≤ (newJointRouter : JointRouter K).cpuWeight := by norm_num [newJointRouter]
  unfold jointRouter
  generalize (newJointRouter : JointRouter K) = r at hnew
  induction calls generalizing r with
  | nil => exact hnew
  | cons w calls ih => exact ih _ (setWeights_nonneg hnew w.1 w.2)

namespace InvalidReading

variable (i : InvalidReading K)

theorem p2c_share (order : i.snap.nodes.tel.Range) (order' : i.after.nodes.tel.Range)
    {p q : PathInfo K} (hp : p ∈ p2cComputing i.snap order)
    (hq : q ∈ p2cComputing i.after order') (hpip : p.hops = [i.ip]) (hqip : q.hops = [i.ip]) :
    q.rtt ≤ p.rtt := by
  rw [p2cComputing_eq i.keys_ne_nil] at hp
  rw [p2cComputing_eq i.after_keys_ne_nil] at hq
  refine spread_share_le order.perm (i.after_keys ▸ order'.perm) i.snap.nodes.nodup i.mem_keys
    ?_ ?_ ?_ ?_ hp hq hpip hqip
  · exact fun a => one_div_pos.mpr (effectiveLoad_pos ..)
  · exact one_div_pos.mpr (effectiveLoad_pos ..)
  · exact one_div_le_one_div_of_le (effectiveLoad_pos ..) i.effectiveLoad_le
  · intro a _ ha
    rw [i.effectiveLoad_after ha]

theorem ewma_noBetter {alpha lambda : K} (hnonneg : 0 ≤ lambda) (hle : lambda ≤ 1)
    (source : EndPoint)
    (order : ((newEWMARouter i.snap).setAlpha alpha lambda).snap.nodes.tel.Range)
    (order' : ((newEWMARouter i.after).setAlpha alpha lambda).snap.nodes.tel.Range) :
    NoBetter i.ip (((newEWMARouter i.snap).setAlpha alpha lambda).computing source order).2
      (((newEWMARouter i.after).setAlpha alpha lambda).computing source order').2 := by
  obtain ⟨ips, hperm, hpaths, -⟩ := EWMARouter.computing_snd (r := (newEWMARouter i.snap).setAlpha
    alpha lambda) i.keys_ne_nil source order
  obtain ⟨ips', hperm', hpaths', -⟩ := EWMARouter.computing_snd (r := (newEWMARouter
    i.after).setAlpha alpha lambda) i.after_keys_ne_nil source order'
  have hbefore := combinedAt_new alpha lambda source i.snap_val_ip
  have hafter := combinedAt_new alpha lambda source i.after_val_ip
  rw [i.cpuReading_node] at hbefore
  rw [i.cpuReading_changed, i.latencyReading_after] at hafter
  have hlat := latencyReading_pos i.snap source i.ip
  have hcpu := mul_le_mul_of_nonneg_left i.usage_le hnonneg
  have hcpu0 := mul_nonneg hnonneg i.usage_nonneg
  have hlat0 := mul_nonneg (sub_nonneg.mpr hle) hlat.le
  rw [hpaths, hpaths']
  refine noBetter_spread hperm (hperm'.trans (.of_eq i.after_keys)) i.snap.nodes.nodup i.mem_keys
    (fun a => rawWeight_pos _) (rawWeight_pos _) ?_ ?_ ?_
  · rw [hbefore, hafter]
    linarith
  · rw [hbefore, hafter]
    refine rawWeight_le (by linarith) (by linarith) fun hzero => ?_
    -- A score of zero leaves only the CPU in the mixture.
    have hone : (1 - lambda) * latencyReading i.snap source i.ip = 0 := by linarith
    have hlambda : 1 - lambda = 0 := (mul_eq_zero.mp hone).resolve_right hlat.ne'
    have hlambda' : lambda = 1 := by linarith
    rw [hlambda']
    norm_num
  · intro a ha hne
    rw [i.combinedAt_after alpha lambda source ha hne]

theorem joint_score_le (calls : List (K × K)) (source : EndPoint) :
    scoreAt i.snap ((jointRouter calls).score i.snap source) i.ip ≤
      scoreAt i.after ((jointRouter calls).score i.after source) i.ip := by
  unfold scoreAt
  rw [i.snap_val_ip, i.after_val_ip]
  simp only [Option.map_some, Option.getD_some, i.joint_score_after]
  simp only [JointRouter.score, i.cpuReading_node, i.cpuReading_changed]
  have := mul_le_mul_of_nonneg_left i.usage_le (jointRouter_nonneg calls)
  linarith

theorem joint_rtt_le {calls : List (K × K)} {source : EndPoint}
    {order : i.snap.nodes.tel.Range} {order' : i.after.nodes.tel.Range}
    {slice slice' : Sorting (NodeScore.score (K := K))} {p q : PathInfo K}
    (hp : p ∈ (jointRouter calls).computing i.snap source order slice)
    (hq : q ∈ (jointRouter calls).computing i.after source order' slice')
    (hpip : p.hops = [i.ip]) (hqip : q.hops = [i.ip]) : p.rtt ≤ q.rtt := by
  obtain ⟨a, -, ha, hprtt⟩ := JointRouter.mem_computing i.keys_ne_nil hp
  obtain ⟨b, -, hb, hqrtt⟩ := JointRouter.mem_computing i.after_keys_ne_nil hq
  obtain rfl := List.singleton_inj.mp (hpip.symm.trans ha)
  obtain rfl := List.singleton_inj.mp (hqip.symm.trans hb)
  rw [hprtt, hqrtt]
  exact i.joint_score_le calls source

section Lyapunov
variable {exp : K → K} (hpos : ∀ x, 0 < exp x) (hmono : StrictMono exp) (source : EndPoint)

include hmono in
/-- A node with some load has a smaller penalty after the invalid reading. -/
theorem penaltyAt_lt (h : i.node.cpu.usage ≠ 0) :
    LyapunovSolver.penaltyAt exp i.after source i.ip <
      LyapunovSolver.penaltyAt exp i.snap source i.ip := by
  have hload : i.node.cpu.usage > 0 := lt_of_le_of_ne i.usage_nonneg h.symm
  have hlt : LyapunovSolver.backlog i.changed + |i.changed.cpu.loadDelta| <
      LyapunovSolver.backlog i.node + |i.node.cpu.loadDelta| := by
    rw [i.backlog_changed, i.backlog_node]
    exact add_lt_add_left hload _
  have hcpu := LyapunovSolver.computeCPUPenalty_lt hmono hlt i.node.cpu.logicalCore
  rw [(i.penaltyAt_eq exp source).1, (i.penaltyAt_eq exp source).2]
  simp only [LyapunovSolver.score, one_mul]
  exact add_lt_add_left hcpu _

include hpos in
theorem lyapunov_noBetter (h : i.node.cpu.usage = 0) (order : i.snap.nodes.tel.Range)
    (order' : i.after.nodes.tel.Range) (slice slice' : Sorting (NodeScore.score (K := K))) :
    NoBetter i.ip (LyapunovSolver.computing exp i.snap source order slice)
      (LyapunovSolver.computing exp i.after source order' slice') := by
  obtain ⟨ips, hperm, hpaths, -⟩ :=
    LyapunovSolver.computing_eq hpos i.keys_ne_nil source order slice
  obtain ⟨ips', hperm', hpaths', -⟩ :=
    LyapunovSolver.computing_eq hpos i.after_keys_ne_nil source order' slice'
  have hsame : ∀ a, LyapunovSolver.penaltyAt exp i.after source a =
      LyapunovSolver.penaltyAt exp i.snap source a := i.penaltyAt_same exp source h
  rw [hpaths, hpaths']
  refine noBetter_spread hperm (hperm'.trans (.of_eq i.after_keys)) i.snap.nodes.nodup i.mem_keys
    (fun a => hpos _) (hpos _) (hsame i.ip).ge ?_ ?_
  · rw [hsame]
  · intro a _ _
    rw [hsame]

include hpos hmono in
/-- A node with some load gains in every computation. -/
theorem not_noBetter (h : i.node.cpu.usage ≠ 0) (order : i.snap.nodes.tel.Range)
    (order' : i.after.nodes.tel.Range) (slice slice' : Sorting (NodeScore.score (K := K))) :
    ¬ NoBetter i.ip (LyapunovSolver.computing exp i.snap source order slice)
      (LyapunovSolver.computing exp i.after source order' slice') := by
  obtain ⟨ips, hperm, hpaths, -⟩ :=
    LyapunovSolver.computing_eq hpos i.keys_ne_nil source order slice
  obtain ⟨ips', hperm', hpaths', -⟩ :=
    LyapunovSolver.computing_eq hpos i.after_keys_ne_nil source order' slice'
  rw [hpaths, hpaths']
  intro hno
  have hle := hno.score _ (spread_mem _ _ (hperm.mem_iff.mpr i.mem_keys)) _
    (spread_mem _ _ (hperm'.mem_iff.mpr (i.after_keys.symm ▸ i.mem_keys))) rfl rfl
  exact absurd hle (not_le.mpr (i.penaltyAt_lt hmono source h))

end Lyapunov

end InvalidReading

/-- The solvers without penalties take a negative usage for a full load. -/
theorem noGain (i : InvalidReading K) : NoGain i where
  p2c_load := i.effectiveLoad_le
  p2c_share order order' _ hp _ hq := i.p2c_share order order' hp hq
  ewma _ _ hnonneg hle source order order' := i.ewma_noBetter hnonneg hle source order order'
  joint _ _ _ _ _ _ _ hp _ hq := i.joint_rtt_le hp hq

theorem neverHelps_iff {exp : K → K} (hpos : ∀ x, 0 < exp x) (hmono : StrictMono exp)
    (i : InvalidReading K) : NeverHelps exp i ↔ i.node.cpu.usage = 0 := by
  constructor
  · intro h
    by_contra hload
    exact i.not_noBetter hpos hmono ⟨"", ""⟩ hload i.snap.nodes.tel.range i.after.nodes.tel.range
      (exchange _) (exchange _) (h.lyapunov ..)
  · intro h
    exact { noGain i with
      lyapunov := fun source order order' slice slice' =>
        i.lyapunov_noBetter hpos source h order order' slice slice' }

/-- An invalid reading never helps a node in the solvers without penalties. It helps in none of
the four iff the node had no load before. -/
theorem invalid_reading_iff (i : InvalidReading ℝ) :
    NoGain i ∧ (NeverHelps Real.exp i ↔ i.node.cpu.usage = 0) :=
  ⟨noGain i, neverHelps_iff Real.exp_pos Real.exp_strictMono i⟩

theorem zero_le_twoCores_mid : (0 : ℝ) ≤ LyapunovSolver.twoCores.mid := by
  norm_num [LyapunovSolver.twoCores]

theorem twoCores_mid_le_hundred : LyapunovSolver.twoCores.mid ≤ (100 : ℝ) := by
  norm_num [LyapunovSolver.twoCores]

/-- A node at the middle threshold of 60 percent and an idle one, and a reading of minus
one. -/
noncomputable def busyNode : InvalidReading ℝ where
  snap :=
    { nodes := (Nodes.empty.add
        ⟨"10.0.0.1", "Asia", ⟨2, LyapunovSolver.twoCores.mid, 0⟩⟩).add
        ⟨"10.0.0.2", "Asia", ⟨2, 0, 0⟩⟩
      edgeAgg := EdgeAgg.empty
      localIP := "10.0.0.9" }
  node := ⟨"10.0.0.1", "Asia", ⟨2, LyapunovSolver.twoCores.mid, 0⟩⟩
  known := rfl
  usage_nonneg := zero_le_twoCores_mid
  usage_le := twoCores_mid_le_hundred
  invalid := -1
  negative := neg_one_lt_zero

/-- Its penalty falls with the invalid reading. -/
theorem negative_usage_helps :
    LyapunovSolver.penaltyAt Real.exp busyNode.after ⟨"Tokyo", "Asia"⟩ "10.0.0.1" <
        LyapunovSolver.penaltyAt Real.exp busyNode.snap ⟨"Tokyo", "Asia"⟩ "10.0.0.1" ∧
      ¬ NeverHelps Real.exp busyNode := by
  have hload : busyNode.node.cpu.usage ≠ 0 := by
    norm_num [busyNode, LyapunovSolver.twoCores]
  refine ⟨busyNode.penaltyAt_lt Real.exp_strictMono _ hload, fun h => hload ?_⟩
  exact (neverHelps_iff Real.exp_pos Real.exp_strictMono busyNode).mp h

end Arcturus.InvalidReadings
