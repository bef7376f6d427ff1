import Arcturus.EdgeSolvers

/-!
The smoothing router. For each node it keeps an exponentially weighted average of the CPU
usage and of the latency, updated at every computation in which the node occurs. A node's
share of the traffic is the inverse of the mixture of its averages. The averages of a
router in use are those of loads and latencies.
-/

namespace Arcturus.EwmaRouter

open GoMaps ExchangeSort EdgeSolvers

structure EWMARouter (K : Type*) where
  snap : Snapshot K
  cpuEWMA : GoMap String (Option K)
  latEWMA : GoMap String (Option K)
  cpuAlpha : K
  latAlpha : K
  lambda : K

section Router
variable {K : Type*} [Field K]

def newEWMARouter (snap : Snapshot K) : EWMARouter K where
  snap := snap
  cpuEWMA := GoMap.empty
  latEWMA := GoMap.empty
  cpuAlpha := 0.3
  latAlpha := 0.3
  lambda := 0.5

/-- The next average: the first value, or the mixture of the value and the last average. -/
def smoothed (alpha : K) (current : Option K) (x : K) : K :=
  match current with
  | none => x
  | some current => alpha * x + (1 - alpha) * current

def updateEWMA (alpha : K) (ewma : GoMap String (Option K)) (nodeIP : String) (x : K) :
    GoMap String (Option K) :=
  ewma.set nodeIP (some (smoothed alpha (ewma.val nodeIP) x))

namespace EWMARouter

def setAlpha (r : EWMARouter K) (alpha lambda : K) : EWMARouter K :=
  { r with cpuAlpha := alpha, latAlpha := alpha, lambda }

def updateEWMACPU (r : EWMARouter K) (nodeIP : String) (cpuUsage : K) : EWMARouter K :=
  { r with cpuEWMA := updateEWMA r.cpuAlpha r.cpuEWMA nodeIP cpuUsage }

def updateEWMALatency (r : EWMARouter K) (nodeIP : String) (latency : K) : EWMARouter K :=
  { r with latEWMA := updateEWMA r.latAlpha r.latEWMA nodeIP latency }

def getCPUEWMA (r : EWMARouter K) (nodeIP : String) : K := (r.cpuEWMA.val nodeIP).getD 100.0

def getLatEWMA (r : EWMARouter K) (nodeIP : String) : K := (r.latEWMA.val nodeIP).getD 500.0

end EWMARouter

/-- A candidate of one computation. -/
structure Candidate (K : Type*) where
  nodeIp : String
  cpuUsage : K
  latency : K
  cpuEwma : K
  latEwma : K
  combined : K

variable [LinearOrder K]

def latencyReading (s : Snapshot K) (source : EndPoint) (nodeIp : String) : K :=
  positiveDelay <| match getNodeRT s source nodeIp with
    | some stats => if 0 < stats.count then stats.avgRT else 100.0
    | none => 100.0

def latencyScale : K := 1

/-- The weight of a node. -/
def rawWeight (combined : K) : K := if 0 < combined then 1 / combined else 1

namespace EWMARouter

/-- The first pass for one address; one without telemetry is skipped. -/
def observe (r : EWMARouter K) (source : EndPoint) (nodeIp : String) :
    EWMARouter K × Option (Candidate K) :=
  match r.snap.nodes.tel.val nodeIp with
  | none => (r, none)
  | some tel =>
    let cpuUsage := cpuReading tel
    let r := r.updateEWMACPU nodeIp cpuUsage
    let cpuEwma := r.getCPUEWMA nodeIp
    let latency := latencyReading r.snap source nodeIp
    let r := r.updateEWMALatency nodeIp latency
    let latEwma := r.getLatEWMA nodeIp
    (r, some { nodeIp, cpuUsage, latency, cpuEwma, latEwma, combined := 0 })

def observeAll (r : EWMARouter K) (source : EndPoint) :
    List String → EWMARouter K × List (Candidate K)
  | [] => (r, [])
  | nodeIp :: nodeIps =>
    let first := r.observe source nodeIp
    let rest := observeAll first.1 source nodeIps
    (rest.1, first.2.toList ++ rest.2)

/-- The score of a candidate. -/
def combine (r : EWMARouter K) (c : Candidate K) : Candidate K :=
  { c with combined := r.lambda * c.cpuEwma + (1 - r.lambda) * (c.latEwma / latencyScale) }

/-- `EWMARouter.Computing`: the averages are kept in the router. -/
def computing (r : EWMARouter K) (source : EndPoint) (order : r.snap.nodes.tel.Range) :
    EWMARouter K × List (PathInfo K) :=
  let pass := r.observeAll source (collectNodes r.snap order)
  if pass.2.length = 0 then (pass.1, [])
  else
    let candidates := sort Candidate.combined (pass.2.map r.combine)
    let totalWeight := (candidates.map fun c => rawWeight c.combined).sum
    (pass.1, candidates.map fun c =>
      { hops := [c.nodeIp], rtt := rawWeight c.combined / totalWeight, rawRTT := c.combined })

end EWMARouter

end Router

variable {K : Type*}

namespace EWMARouter

/-- The routers differ at most in the averages of these nodes. -/
structure Agrees (r r' : EWMARouter K) (ips : List String) : Prop where
  snap : r'.snap = r.snap
  cpuAlpha : r'.cpuAlpha = r.cpuAlpha
  latAlpha : r'.latAlpha = r.latAlpha
  lambda : r'.lambda = r.lambda
  cpu : ∀ ip ∉ ips, r'.cpuEWMA.val ip = r.cpuEWMA.val ip
  lat : ∀ ip ∉ ips, r'.latEWMA.val ip = r.latEWMA.val ip

theorem Agrees.refl (r : EWMARouter K) (ips : List String) : Agrees r r ips :=
  ⟨rfl, rfl, rfl, rfl, fun _ _ => rfl, fun _ _ => rfl⟩

theorem Agrees.mono {r r' : EWMARouter K} {ips ips' : List String} (h : Agrees r r' ips)
    (hsub : ∀ ip ∈ ips, ip ∈ ips') : Agrees r r' ips' :=
  ⟨h.snap, h.cpuAlpha, h.latAlpha, h.lambda, fun ip hip => h.cpu ip fun hin => hip (hsub ip hin),
    fun ip hip => h.lat ip fun hin => hip (hsub ip hin)⟩

theorem Agrees.cons {r₀ r₁ r₂ : EWMARouter K} {ip : String} {ips : List String}
    (h : Agrees r₀ r₁ [ip]) (h' : Agrees r₁ r₂ ips) : Agrees r₀ r₂ (ip :: ips) where
  snap := h'.snap.trans h.snap
  cpuAlpha := h'.cpuAlpha.trans h.cpuAlpha
  latAlpha := h'.latAlpha.trans h.latAlpha
  lambda := h'.lambda.trans h.lambda
  cpu a ha := by
    rw [List.mem_cons, not_or] at ha
    exact (h'.cpu a ha.2).trans (h.cpu a (List.mem_singleton.not.mpr ha.1))
  lat a ha := by
    rw [List.mem_cons, not_or] at ha
    exact (h'.lat a ha.2).trans (h.lat a (List.mem_singleton.not.mpr ha.1))

end EWMARouter

variable [Field K] [LinearOrder K]

namespace EWMARouter

/-- The candidate that a node with this telemetry gives. -/
def candidateOf (r : EWMARouter K) (source : EndPoint) (nodeIp : String) (tel : NodeTelemetry K) :
    Candidate K where
  nodeIp := nodeIp
  cpuUsage := cpuReading tel
  latency := latencyReading r.snap source nodeIp
  cpuEwma := smoothed r.cpuAlpha (r.cpuEWMA.val nodeIp) (cpuReading tel)
  latEwma := smoothed r.latAlpha (r.latEWMA.val nodeIp) (latencyReading r.snap source nodeIp)
  combined := 0

theorem Agrees.candidateOf {r r' : EWMARouter K} {ips : List String} (h : Agrees r r' ips)
    (source : EndPoint) {ip : String} (hip : ip ∉ ips) (tel : NodeTelemetry K) :
    r'.candidateOf source ip tel = r.candidateOf source ip tel := by
  unfold EWMARouter.candidateOf
  rw [h.snap, h.cpuAlpha, h.latAlpha, h.cpu ip hip, h.lat ip hip]

theorem observe_none {r : EWMARouter K} {source : EndPoint} {ip : String}
    (h : r.snap.nodes.tel.val ip = none) : r.observe source ip = (r, none) := by
  unfold observe
  rw [h]

/-- One address with telemetry: its candidate, and the averages it leaves. -/
theorem observe_some {r : EWMARouter K} (source : EndPoint) {ip : String} {tel : NodeTelemetry K}
    (h : r.snap.nodes.tel.val ip = some tel) :
    Agrees r (r.observe source ip).1 [ip] ∧
      (r.observe source ip).2 = some (r.candidateOf source ip tel) ∧
      (r.observe source ip).1.cpuEWMA.val ip = some (r.candidateOf source ip tel).cpuEwma ∧
      (r.observe source ip).1.latEWMA.val ip = some (r.candidateOf source ip tel).latEwma := by
  unfold observe
  rw [h]
  refine ⟨⟨rfl, rfl, rfl, rfl, ?_, ?_⟩, ?_, ?_, ?_⟩
  · intro a ha
    exact GoMap.set_val_of_ne _ _ fun he => ha (he ▸ List.mem_cons_self ..)
  · intro a ha
    exact GoMap.set_val_of_ne _ _ fun he => ha (he ▸ List.mem_cons_self ..)
  · simp [candidateOf, updateEWMACPU, updateEWMALatency, getCPUEWMA, getLatEWMA, updateEWMA]
  · exact GoMap.set_val_same ..
  · exact GoMap.set_val_same ..

theorem observe_agrees (r : EWMARouter K) (source : EndPoint) (ip : String) :
    Agrees r (r.observe source ip).1 [ip] := by
  cases h : r.snap.nodes.tel.val ip with
  | none =>
    rw [observe_none h]
    exact Agrees.refl ..
  | some tel => exact (observe_some source h).1

theorem observeAll_agrees (r : EWMARouter K) (source : EndPoint) (ips : List String) :
    Agrees r (r.observeAll source ips).1 ips := by
  induction ips generalizing r with
  | nil => exact Agrees.refl ..
  | cons ip ips ih => exact (observe_agrees r source ip).cons (ih _)

/-- Over distinct addresses every candidate is made from the averages before the pass. -/
theorem observeAll_candidates {ips : List String} (hnodup : ips.Nodup) (r : EWMARouter K)
    (source : EndPoint) :
    (r.observeAll source ips).2 =
      ips.filterMap fun ip => (r.snap.nodes.tel.val ip).map (r.candidateOf source ip) := by
  induction ips generalizing r with
  | nil => rfl
  | cons ip ips ih =>
    obtain ⟨hip, hips⟩ := List.nodup_cons.mp hnodup
    have hagree := observe_agrees r source ip
    have hfirst : (r.observe source ip).2 =
        (r.snap.nodes.tel.val ip).map (r.candidateOf source ip) := by
      cases h : r.snap.nodes.tel.val ip with
      | none => rw [observe_none h, Option.map_none]
      | some tel => rw [(observe_some source h).2.1, Option.map_some]
    have hrest : ((r.observe source ip).1.observeAll source ips).2 =
        ips.filterMap fun ip => (r.snap.nodes.tel.val ip).map (r.candidateOf source ip) := by
      rw [ih hips, hagree.snap]
      refine List.filterMap_congr fun a ha => ?_
      have hne : a ∉ [ip] := fun hmem => hip (List.mem_singleton.mp hmem ▸ ha)
      exact congrArg (Option.map · _) (funext fun tel => hagree.candidateOf source hne tel)
    rw [observeAll, hfirst, hrest, List.filterMap_cons]
    cases (r.snap.nodes.tel.val ip).map (r.candidateOf source ip) <;> rfl

/-- What the pass leaves for a node that occurs in it. -/
theorem observeAll_averages {ips : List String} (hnodup : ips.Nodup) {r : EWMARouter K}
    (source : EndPoint) {ip : String} (hmem : ip ∈ ips) {tel : NodeTelemetry K}
    (htel : r.snap.nodes.tel.val ip = some tel) :
    (r.observeAll source ips).1.cpuEWMA.val ip = some (r.candidateOf source ip tel).cpuEwma ∧
      (r.observeAll source ips).1.latEWMA.val ip = some (r.candidateOf source ip tel).latEwma := by
  induction ips generalizing r with
  | nil => exact absurd hmem List.not_mem_nil
  | cons a ips ih =>
    obtain ⟨ha, hips⟩ := List.nodup_cons.mp hnodup
    have hagree := observe_agrees r source a
    have hrest := observeAll_agrees (r.observe source a).1 source ips
    rcases List.mem_cons.mp hmem with rfl | hin
    · obtain ⟨-, -, hcpu, hlat⟩ := observe_some source htel
      exact ⟨(hrest.cpu ip ha).trans hcpu, (hrest.lat ip ha).trans hlat⟩
    · have hne : ip ∉ [a] := fun h => ha (List.mem_singleton.mp h ▸ hin)
      rw [← hagree.candidateOf source hne tel]
      exact ih hips hin (hagree.snap.symm ▸ htel)

/-- The candidate at an address, empty where there is no node. -/
def candidateAt (r : EWMARouter K) (source : EndPoint) (nodeIp : String) : Candidate K :=
  match r.snap.nodes.tel.val nodeIp with
  | none => { nodeIp, cpuUsage := 0, latency := 0, cpuEwma := 0, latEwma := 0, combined := 0 }
  | some tel => r.candidateOf source nodeIp tel

theorem candidateAt_some {r : EWMARouter K} (source : EndPoint) {ip : String}
    {tel : NodeTelemetry K} (h : r.snap.nodes.tel.val ip = some tel) :
    r.candidateAt source ip = r.candidateOf source ip tel := by
  unfold candidateAt
  rw [h]

theorem candidateAt_nodeIp (r : EWMARouter K) (source : EndPoint) (ip : String) :
    (r.candidateAt source ip).nodeIp = ip := by
  unfold candidateAt
  split <;> rfl

/-- The score of a node in a computation. -/
def combinedAt (r : EWMARouter K) (source : EndPoint) (nodeIp : String) : K :=
  (r.combine (r.candidateAt source nodeIp)).combined

/-- The averages after a computation are those of the first pass. -/
theorem computing_fst (r : EWMARouter K) (source : EndPoint) (order : r.snap.nodes.tel.Range) :
    (r.computing source order).1 = (r.observeAll source (collectNodes r.snap order)).1 := by
  simp only [computing]
  split <;> rfl

/-- Without nodes there is nothing to observe. -/
theorem observeAll_nil {r : EWMARouter K} (hnil : r.snap.nodes.tel.keys = []) {source : EndPoint}
    {order : r.snap.nodes.tel.Range} :
    r.observeAll source (collectNodes r.snap order) = (r, []) := by
  have hnone : r.snap.nodes.tel.val r.snap.localIP = none :=
    r.snap.nodes.tel.absent _ (hnil ▸ List.not_mem_nil)
  rw [collectNodes_nil hnil, observeAll, observe_none hnone]
  rfl

/-- A node that occurs in a computation gets its next averages. -/
theorem computing_averages {r : EWMARouter K} (source : EndPoint)
    (order : r.snap.nodes.tel.Range) {ip : String} {tel : NodeTelemetry K}
    (htel : r.snap.nodes.tel.val ip = some tel) :
    (r.computing source order).1.cpuEWMA.val ip =
        some (smoothed r.cpuAlpha (r.cpuEWMA.val ip) (cpuReading tel)) ∧
      (r.computing source order).1.latEWMA.val ip =
        some (smoothed r.latAlpha (r.latEWMA.val ip) (latencyReading r.snap source ip)) := by
  have hmem := Nodes.mem_keys_of_val htel
  rw [computing_fst, collectNodes_eq (List.ne_nil_of_mem hmem)]
  exact observeAll_averages (order.perm.nodup_iff.mpr r.snap.nodes.nodup) source
    (order.perm.mem_iff.mpr hmem) htel

/-- The parameters stay, and so do the averages of a node that does not occur. -/
theorem computing_agrees (r : EWMARouter K) (source : EndPoint)
    (order : r.snap.nodes.tel.Range) :
    Agrees r (r.computing source order).1 r.snap.nodes.tel.keys := by
  rw [computing_fst]
  by_cases hnil : r.snap.nodes.tel.keys = []
  · rw [observeAll_nil hnil]
    exact Agrees.refl ..
  · rw [collectNodes_eq hnil]
    exact (observeAll_agrees r source order.keys).mono fun ip => order.perm.mem_iff.mp

/-- The traffic of a computation: shares by inverse scores, the least score first. -/
theorem computing_snd {r : EWMARouter K} (hne : r.snap.nodes.tel.keys ≠ []) (source : EndPoint)
    (order : r.snap.nodes.tel.Range) :
    ∃ ips : List String, ips.Perm r.snap.nodes.tel.keys ∧
      (r.computing source order).2 =
        spread (fun ip => rawWeight (r.combinedAt source ip)) (r.combinedAt source) ips ∧
      ips.Pairwise fun a b => r.combinedAt source a ≤ r.combinedAt source b := by
  have hnodup : order.keys.Nodup := order.perm.nodup_iff.mpr r.snap.nodes.nodup
  have hpass : (r.observeAll source (collectNodes r.snap order)).2 =
      order.keys.map (r.candidateAt source) := by
    rw [collectNodes_eq hne, observeAll_candidates hnodup, ← List.filterMap_eq_map]
    refine List.filterMap_congr fun ip hip => ?_
    obtain ⟨tel, htel, -⟩ := r.snap.nodes.keyed ip (order.perm.mem_iff.mp hip)
    rw [htel, Option.map_some, Function.comp_apply, candidateAt_some source htel]
  have hlen : ¬ (order.keys.map (r.candidateAt source)).length = 0 := by
    rw [List.length_map, order.perm.length_eq]
    exact fun h => hne (List.length_eq_zero_iff.mp h)
  obtain ⟨ips, hperm, hsort, hsorted⟩ := (exchange Candidate.combined).exists_map
    (f := fun ip => r.combine (r.candidateAt source ip)) (g := Candidate.nodeIp)
    (candidateAt_nodeIp r source) order.keys
  refine ⟨ips, hperm.trans order.perm, ?_, hsorted⟩
  have hsort' : sort Candidate.combined ((order.keys.map (r.candidateAt source)).map r.combine) =
      ips.map fun ip => r.combine (r.candidateAt source ip) := by
    rw [List.map_map]
    exact hsort
  simp only [computing, hpass, if_neg hlen, hsort']
  rw [List.map_map, List.map_map]
  refine List.map_congr_left fun ip _ => ?_
  have hip : (r.combine (r.candidateAt source ip)).nodeIp = ip := candidateAt_nodeIp r source ip
  rw [Function.comp_apply, hip]
  rfl

/-- Every path of a computation leads to a node, with the score of its new averages. -/
theorem mem_computing {r : EWMARouter K} {source : EndPoint} {order : r.snap.nodes.tel.Range}
    {p : PathInfo K} (hp : p ∈ (r.computing source order).2) :
    ∃ ip tel, r.snap.nodes.tel.val ip = some tel ∧ p.hops = [ip] ∧
      p.rawRTT = r.lambda * (r.candidateOf source ip tel).cpuEwma +
        (1 - r.lambda) * (r.candidateOf source ip tel).latEwma := by
  by_cases hnil : r.snap.nodes.tel.keys = []
  · simp only [computing, observeAll_nil hnil, List.length_nil, if_true] at hp
    exact absurd hp List.not_mem_nil
  · obtain ⟨ips, hperm, hpaths, -⟩ := computing_snd hnil source order
    rw [hpaths] at hp
    obtain ⟨ip, hip, rfl⟩ := mem_spread hp
    obtain ⟨tel, htel, -⟩ := r.snap.nodes.keyed ip (hperm.mem_iff.mp hip)
    refine ⟨ip, tel, htel, rfl, ?_⟩
    simp only [combinedAt, combine, candidateAt_some source htel, latencyScale, div_one]

end EWMARouter

section Valid
variable [IsStrictOrderedRing K]

/-- The parameters are in their documented ranges, and the averages are those of loads
and of latencies. -/
structure Valid (r : EWMARouter K) : Prop where
  cpuAlpha : 0 < r.cpuAlpha ∧ r.cpuAlpha ≤ 1
  latAlpha : 0 < r.latAlpha ∧ r.latAlpha ≤ 1
  lambda : 0 ≤ r.lambda ∧ r.lambda < 1
  cpu : ∀ ip x, r.cpuEWMA.val ip = some x → 0 ≤ x
  lat : ∀ ip x, r.latEWMA.val ip = some x → 0 < x

/-- The routers that can come about: a new one, after a choice of the parameters, with
other telemetry, or after a computation. -/
inductive Reached : EWMARouter K → Prop
  | new (snap : Snapshot K) : Reached (newEWMARouter snap)
  | setAlpha {r : EWMARouter K} {alpha lambda : K} (h : Reached r) (hpos : 0 < alpha)
      (hle : alpha ≤ 1) (hnonneg : 0 ≤ lambda) (hlt : lambda < 1) :
      Reached (r.setAlpha alpha lambda)
  | refresh {r : EWMARouter K} (h : Reached r) (snap : Snapshot K) : Reached { r with snap }
  | computing {r : EWMARouter K} (h : Reached r) (source : EndPoint)
      (order : r.snap.nodes.tel.Range) : Reached (r.computing source order).1

theorem latencyReading_pos (s : Snapshot K) (source : EndPoint) (ip : String) :
    0 < latencyReading s source ip := positiveDelay_pos _

theorem smoothed_nonneg {alpha x : K} {current : Option K} (hpos : 0 < alpha) (hle : alpha ≤ 1)
    (hx : 0 ≤ x) (hcurrent : ∀ y, current = some y → 0 ≤ y) : 0 ≤ smoothed alpha current x := by
  cases current with
  | none => exact hx
  | some y =>
    exact add_nonneg (mul_nonneg hpos.le hx) (mul_nonneg (sub_nonneg.mpr hle) (hcurrent y rfl))

theorem smoothed_pos {alpha x : K} {current : Option K} (hpos : 0 < alpha) (hle : alpha ≤ 1)
    (hx : 0 < x) (hcurrent : ∀ y, current = some y → 0 < y) : 0 < smoothed alpha current x := by
  cases current with
  | none => exact hx
  | some y =>
    exact add_pos_of_pos_of_nonneg (mul_pos hpos hx)
      (mul_nonneg (sub_nonneg.mpr hle) (hcurrent y rfl).le)

theorem Valid.candidateOf {r : EWMARouter K} (h : Valid r) (source : EndPoint) (ip : String)
    (tel : NodeTelemetry K) :
    0 ≤ (r.candidateOf source ip tel).cpuEwma ∧ 0 < (r.candidateOf source ip tel).latEwma :=
  ⟨smoothed_nonneg h.cpuAlpha.1 h.cpuAlpha.2 (cpuReading_nonneg tel) (h.cpu ip),
    smoothed_pos h.latAlpha.1 h.latAlpha.2 (latencyReading_pos ..) (h.lat ip)⟩

theorem Valid.observe {r : EWMARouter K} (h : Valid r) (source : EndPoint) (ip : String) :
    Valid (r.observe source ip).1 := by
  cases htel : r.snap.nodes.tel.val ip with
  | none =>
    rw [EWMARouter.observe_none htel]
    exact h
  | some tel =>
    obtain ⟨hagree, -, hcpu, hlat⟩ := EWMARouter.observe_some source htel
    obtain ⟨hcpu', hlat'⟩ := h.candidateOf source ip tel
    refine ⟨?_, ?_, ?_, ?_, ?_⟩
    · rw [hagree.cpuAlpha]
      exact h.cpuAlpha
    · rw [hagree.latAlpha]
      exact h.latAlpha
    · rw [hagree.lambda]
      exact h.lambda
    · intro a x hx
      by_cases ha : a ∈ [ip]
      · obtain rfl := List.mem_singleton.mp ha
        rw [hcpu, Option.some.injEq] at hx
        exact hx ▸ hcpu'
      · rw [hagree.cpu a ha] at hx
        exact h.cpu a x hx
    · intro a x hx
      by_cases ha : a ∈ [ip]
      · obtain rfl := List.mem_singleton.mp ha
        rw [hlat, Option.some.injEq] at hx
        exact hx ▸ hlat'
      · rw [hagree.lat a ha] at hx
        exact h.lat a x hx

theorem Valid.observeAll {r : EWMARouter K} (h : Valid r) (source : EndPoint)
    (ips : List String) : Valid (r.observeAll source ips).1 := by
  induction ips generalizing r with
  | nil => exact h
  | cons ip ips ih => exact ih (h.observe source ip)

theorem Reached.valid {r : EWMARouter K} (h : Reached r) : Valid r := by
  induction h with
  | new snap =>
    refine ⟨by norm_num [newEWMARouter], by norm_num [newEWMARouter],
      by norm_num [newEWMARouter], ?_, ?_⟩
    · intro ip x hx
      cases hx
    · intro ip x hx
      cases hx
  | setAlpha _ hpos hle hnonneg hlt ih =>
    exact ⟨⟨hpos, hle⟩, ⟨hpos, hle⟩, ⟨hnonneg, hlt⟩, ih.cpu, ih.lat⟩
  | refresh _ snap ih => exact ⟨ih.cpuAlpha, ih.latAlpha, ih.lambda, ih.cpu, ih.lat⟩
  | computing _ source order ih =>
    rw [EWMARouter.computing_fst]
    exact ih.observeAll source _

/-- The score of a node is positive, so that its weight is the inverse. -/
theorem Valid.combinedAt_pos {r : EWMARouter K} (h : Valid r) (source : EndPoint) {ip : String}
    (hip : ip ∈ r.snap.nodes.tel.keys) : 0 < r.combinedAt source ip := by
  obtain ⟨tel, htel, -⟩ := r.snap.nodes.keyed ip hip
  obtain ⟨hcpu, hlat⟩ := h.candidateOf source ip tel
  unfold EWMARouter.combinedAt
  rw [EWMARouter.candidateAt_some source htel]
  simp only [EWMARouter.combine, latencyScale, div_one]
  exact add_pos_of_nonneg_of_pos (mul_nonneg h.lambda.1 hcpu)
    (mul_pos (sub_pos.mpr h.lambda.2) hlat)

end Valid

end Arcturus.EwmaRouter
