import Arcturus.GoMaps
import Arcturus.ExchangeSort
import Arcturus.Shares
import Mathlib.Tactic.NormNum

/-!
The last mile: which node a user is sent to. A solver works on a copy of the node
telemetry and of the latency statistics and gives every node a part of the traffic
or a score. Numbers are exact; the nodes are taken in the order of a range loop.
Two of the four solvers are here, by inverse loads and by both measures jointly.
-/

namespace Arcturus.EdgeSolvers

open GoMaps ExchangeSort Shares

structure CPUInfo (K : Type*) where
  logicalCore : ℤ
  usage : K
  loadDelta : K

structure NodeTelemetry (K : Type*) where
  publicIP : String
  continent : String
  cpu : CPUInfo K

structure LastCongestion (K : Type*) where
  count : ℤ
  avgRT : K

/-- The source of a request with the place that was looked up for its address. -/
structure EndPoint where
  city : String
  continent : String

structure PathInfo (K : Type*) where
  hops : List String
  rtt : K
  rawRTT : K

/-- Node telemetry stored under the public address of the node. -/
structure Nodes (K : Type*) where
  tel : GoMap String (Option (NodeTelemetry K))
  nodup : tel.keys.Nodup
  keyed : ∀ ip ∈ tel.keys, ∃ node, tel.val ip = some node ∧ node.publicIP = ip

/-- Latency statistics by city and node. They are copies, so that no entry is nil. -/
structure EdgeAgg (K : Type*) where
  entries : GoMap String (Option (LastCongestion K))
  copied : ∀ key ∈ entries.keys, entries.val key ≠ none

def EdgeAgg.empty {K : Type*} : EdgeAgg K := ⟨GoMap.empty, fun _ h => absurd h List.not_mem_nil⟩

/-- What a solver is made with, and the public address of the node it runs on. -/
structure Snapshot (K : Type*) where
  nodes : Nodes K
  edgeAgg : EdgeAgg K
  localIP : String

namespace Nodes

variable {K : Type*}

def empty : Nodes K := ⟨GoMap.empty, List.nodup_nil, fun _ h => absurd h List.not_mem_nil⟩

def add (nodes : Nodes K) (node : NodeTelemetry K) : Nodes K where
  tel := nodes.tel.set node.publicIP (some node)
  nodup := GoMap.nodup_set_keys nodes.nodup _ _
  keyed := by
    intro ip hip
    by_cases heq : ip = node.publicIP
    · exact ⟨node, by rw [heq, GoMap.set_val_same], heq.symm⟩
    · rw [GoMap.set_val_of_ne _ _ heq]
      exact nodes.keyed ip (((GoMap.mem_set_keys ..).mp hip).resolve_left heq)

theorem mem_keys_of_val {nodes : Nodes K} {ip : String} {node : NodeTelemetry K}
    (h : nodes.tel.val ip = some node) : ip ∈ nodes.tel.keys := by
  by_contra hmem
  rw [nodes.tel.absent ip hmem] at h
  cases h

theorem not_mem_keys_of_val {nodes : Nodes K} {ip : String} (h : nodes.tel.val ip = none) :
    ip ∉ nodes.tel.keys := by
  intro hmem
  obtain ⟨node, hval, -⟩ := nodes.keyed ip hmem
  rw [h] at hval
  cases hval

end Nodes

variable {K : Type*}

/-- The addresses of all nodes, or the own one if there is none. -/
def collectNodes (s : Snapshot K) (order : s.nodes.tel.Range) : List String :=
  let nodeIps := order.keys.filterMap fun k => (s.nodes.tel.val k).map (·.publicIP)
  if nodeIps.length ≤ 0 then [s.localIP] else nodeIps

/-- The addresses are the keys, in the order of the loop. -/
theorem collectNodes_eq {s : Snapshot K} (hne : s.nodes.tel.keys ≠ [])
    (order : s.nodes.tel.Range) : collectNodes s order = order.keys := by
  have hmap : (order.keys.filterMap fun k => (s.nodes.tel.val k).map (·.publicIP)) =
      order.keys.filterMap some := by
    refine List.filterMap_congr fun k hk => ?_
    obtain ⟨node, hval, hip⟩ := s.nodes.keyed k (order.perm.mem_iff.mp hk)
    rw [hval, Option.map_some, hip]
  rw [List.filterMap_some] at hmap
  have hlen : 0 < order.keys.length := by
    rw [order.perm.length_eq]
    exact List.length_pos_of_ne_nil hne
  unfold collectNodes
  rw [hmap]
  exact if_neg (by omega)

theorem collectNodes_nil {s : Snapshot K} (hnil : s.nodes.tel.keys = [])
    (order : s.nodes.tel.Range) : collectNodes s order = [s.localIP] := by
  have hkeys : order.keys = [] := List.perm_nil.mp (hnil ▸ order.perm)
  simp [collectNodes, hkeys]

variable [Field K]

/-- The statistics for a user's city and a node; a node without data counts as 50 ms. -/
def getNodeRT (s : Snapshot K) (source : EndPoint) (nodeIP : String) :
    Option (LastCongestion K) :=
  match s.nodes.tel.val nodeIP with
  | none => none
  | some _ =>
    match s.edgeAgg.entries.val (source.city ++ "-" ++ nodeIP) with
    | some congestion => some congestion
    | none => some ⟨1, 50⟩

structure NodeScore (K : Type*) where
  nodeIp : String
  score : K

/-- The nodes with telemetry and their scores. -/
def scored (s : Snapshot K) (score : String → NodeTelemetry K → K) (nodeIps : List String) :
    List (NodeScore K) :=
  nodeIps.filterMap fun nodeIp =>
    (s.nodes.tel.val nodeIp).map fun tel => { nodeIp, score := score nodeIp tel }

/-- The score at an address, zero where there is no node. -/
def scoreAt (s : Snapshot K) (score : String → NodeTelemetry K → K) (nodeIp : String) : K :=
  ((s.nodes.tel.val nodeIp).map (score nodeIp)).getD 0

theorem scored_eq {s : Snapshot K} {score : String → NodeTelemetry K → K} {ips : List String}
    (hips : ∀ ip ∈ ips, ip ∈ s.nodes.tel.keys) :
    scored s score ips = ips.map fun ip => { nodeIp := ip, score := scoreAt s score ip } := by
  unfold scored
  rw [← List.filterMap_eq_map]
  refine List.filterMap_congr fun ip hip => ?_
  obtain ⟨node, hval, -⟩ := s.nodes.keyed ip (hips ip hip)
  simp only [scoreAt, hval, Option.map_some, Option.getD_some, Function.comp_apply]

/-- One path to each of these nodes, with its share of the traffic. -/
def spread (weight raw : String → K) (ips : List String) : List (PathInfo K) :=
  ips.map fun ip => { hops := [ip], rtt := share weight ips ip, rawRTT := raw ip }

theorem mem_spread {weight raw : String → K} {ips : List String} {p : PathInfo K}
    (h : p ∈ spread weight raw ips) :
    ∃ ip ∈ ips, p = { hops := [ip], rtt := share weight ips ip, rawRTT := raw ip } := by
  obtain ⟨ip, hip, rfl⟩ := List.mem_map.mp h
  exact ⟨ip, hip, rfl⟩

theorem spread_mem (weight raw : String → K) {ips : List String} {ip : String} (h : ip ∈ ips) :
    { hops := [ip], rtt := share weight ips ip, rawRTT := raw ip } ∈ spread weight raw ips :=
  List.mem_map_of_mem h

variable [LinearOrder K]

/-- Every node is on one path, the shares add up to one, and a better node has a larger
share. -/
structure Favours (nodes : List String) (score : String → K) (paths : List (PathInfo K)) :
    Prop where
  once : (paths.map (·.hops)).Perm (nodes.map fun ip => [ip])
  pos : ∀ p ∈ paths, 0 < p.rtt
  total : (paths.map (·.rtt)).sum = 1
  better : ∀ p ∈ paths, ∀ q ∈ paths, ∀ a b, p.hops = [a] → q.hops = [b] → score a < score b →
    q.rtt < p.rtt

section Spread
variable [IsStrictOrderedRing K] {weight raw score : String → K} {ips nodes : List String}

theorem favours_spread (hperm : ips.Perm nodes) (hne : nodes ≠ [])
    (hpos : ∀ ip ∈ nodes, 0 < weight ip)
    (hanti : ∀ a ∈ nodes, ∀ b ∈ nodes, score a < score b → weight b < weight a) :
    Favours nodes score (spread weight raw ips) := by
  have hne' : ips ≠ [] := by
    rintro rfl
    exact hne (List.nil_perm.mp hperm)
  have hpos' : ∀ ip ∈ ips, 0 < weight ip := fun ip hip => hpos ip (hperm.mem_iff.mp hip)
  refine ⟨?_, ?_, ?_, ?_⟩
  · unfold spread
    rw [List.map_map]
    exact hperm.map _
  · intro p hp
    obtain ⟨ip, hip, rfl⟩ := mem_spread hp
    exact share_pos hpos' hip
  · unfold spread
    rw [List.map_map]
    exact sum_share hpos' hne'
  · intro p hp q hq a b ha hb hlt
    obtain ⟨ip, hip, rfl⟩ := mem_spread hp
    obtain ⟨ip', hip', rfl⟩ := mem_spread hq
    obtain rfl := List.singleton_inj.mp ha
    obtain rfl := List.singleton_inj.mp hb
    exact share_lt hpos' hne' (hanti _ (hperm.mem_iff.mp hip) _ (hperm.mem_iff.mp hip') hlt)

/-- In the order of their scores the nodes come with falling shares. -/
theorem spread_sorted (hpos : ∀ ip ∈ ips, 0 < weight ip)
    (hsorted : ips.Pairwise fun a b => weight b ≤ weight a) :
    (spread weight raw ips).Pairwise fun p q => q.rtt ≤ p.rtt := by
  cases hips : ips with
  | nil => exact List.Pairwise.nil
  | cons ip rest =>
    rw [← hips]
    have hne : ips ≠ [] := by simp [hips]
    exact hsorted.map _ fun a b hab => share_le hpos hne hab

end Spread

/-! ### Inverse loads -/

/-- The load that counts for a node: no reading, or none above zero, is a full load. -/
def effectiveLoad (s : Snapshot K) (nodeIP : String) : K :=
  match s.nodes.tel.val nodeIP with
  | none => 100
  | some tel => if tel.cpu.usage < 0 ∨ tel.cpu.usage = 0 then 100 else tel.cpu.usage

structure NodeWeight (K : Type*) where
  nodeIP : String
  load : K
  weight : K

def nodeWeight (s : Snapshot K) (nodeIP : String) : NodeWeight K where
  nodeIP := nodeIP
  load := effectiveLoad s nodeIP
  weight := 1 / effectiveLoad s nodeIP

/-- `P2CRouter.Computing`. -/
def p2cComputing (s : Snapshot K) (order : s.nodes.tel.Range) : List (PathInfo K) :=
  let weights := (collectNodes s order).map (nodeWeight s)
  let totalWeight := (weights.map (·.weight)).sum
  weights.map fun w => { hops := [w.nodeIP], rtt := w.weight / totalWeight, rawRTT := 0 }

theorem p2cComputing_eq {s : Snapshot K} (hne : s.nodes.tel.keys ≠ [])
    (order : s.nodes.tel.Range) :
    p2cComputing s order =
      spread (fun ip => 1 / effectiveLoad s ip) (fun _ => 0) order.keys := by
  unfold p2cComputing
  rw [collectNodes_eq hne]
  simp only [List.map_map]
  rfl

theorem effectiveLoad_pos [IsStrictOrderedRing K] (s : Snapshot K) (nodeIP : String) :
    0 < effectiveLoad s nodeIP := by
  unfold effectiveLoad
  split
  · norm_num
  · split
    · norm_num
    · rename_i h
      push Not at h
      exact lt_of_le_of_ne h.1 (Ne.symm h.2)

/-! ### Both measures jointly -/

structure JointRouter (K : Type*) where
  cpuWeight : K
  latencyWeight : K

def newJointRouter : JointRouter K := ⟨1 / 2, 1 / 2⟩

/-- Weights that are both zero, or one of them negative, change nothing. -/
def JointRouter.setWeights (r : JointRouter K) (cpuWeight latencyWeight : K) : JointRouter K :=
  if 0 < cpuWeight ∧ 0 < latencyWeight then
    let total := cpuWeight + latencyWeight
    ⟨cpuWeight / total, latencyWeight / total⟩
  else if cpuWeight = 0 ∧ 0 < latencyWeight then ⟨0, 1⟩
  else if latencyWeight = 0 ∧ 0 < cpuWeight then ⟨1, 0⟩
  else r

/-- A delay that is not positive counts as 100 ms. -/
def positiveDelay (delay : K) : K := if delay ≤ 0 then 100 else delay

theorem positiveDelay_pos [IsStrictOrderedRing K] (delay : K) : 0 < positiveDelay delay := by
  unfold positiveDelay
  split
  · norm_num
  · exact not_le.mp ‹_›

/-- The delay of a node: statistics of no request count as 500 ms. -/
def delayOf (stats : Option (LastCongestion K)) : K :=
  positiveDelay <| match stats with
    | none => 500
    | some stats => if stats.count = 0 then 500 else stats.avgRT

/-- A negative usage counts as a full load. -/
def cpuReading (tel : NodeTelemetry K) : K := if tel.cpu.usage < 0 then 100 else tel.cpu.usage

theorem cpuReading_nonneg [IsStrictOrderedRing K] (tel : NodeTelemetry K) :
    0 ≤ cpuReading tel := by
  unfold cpuReading
  split
  · norm_num
  · exact not_lt.mp ‹_›

def JointRouter.score (r : JointRouter K) (s : Snapshot K) (source : EndPoint) (nodeIp : String)
    (tel : NodeTelemetry K) : K :=
  let delay := delayOf (getNodeRT s source nodeIp)
  let qk := cpuReading tel
  r.cpuWeight * qk + r.latencyWeight * delay

/-- What a sort of the scored nodes can give. -/
theorem sort_scored {s : Snapshot K} (hne : s.nodes.tel.keys ≠ []) (order : s.nodes.tel.Range)
    (score : String → NodeTelemetry K → K) (slice : Sorting (NodeScore.score (K := K))) :
    ∃ ips : List String, ips.Perm s.nodes.tel.keys ∧
      slice.sort (scored s score (collectNodes s order)) =
        ips.map (fun ip => { nodeIp := ip, score := scoreAt s score ip }) ∧
      ips.Pairwise fun a b => scoreAt s score a ≤ scoreAt s score b := by
  rw [collectNodes_eq hne, scored_eq fun ip hip => order.perm.mem_iff.mp hip]
  obtain ⟨ips, hperm, hsort, hsorted⟩ := slice.exists_map
    (f := fun ip => { nodeIp := ip, score := scoreAt s score ip }) (g := NodeScore.nodeIp)
    (fun ip => rfl) order.keys
  exact ⟨ips, hperm.trans order.perm, hsort, hsorted⟩

/-- `JointRouter.Computing`: the score itself is returned, the least one first. -/
def JointRouter.computing (r : JointRouter K) (s : Snapshot K) (source : EndPoint)
    (order : s.nodes.tel.Range) (slice : Sorting (NodeScore.score (K := K))) :
    List (PathInfo K) :=
  let candidates := scored s (r.score s source) (collectNodes s order)
  (slice.sort candidates).map fun item => { hops := [item.nodeIp], rtt := item.score, rawRTT := 0 }

theorem JointRouter.mem_computing {r : JointRouter K} {s : Snapshot K} {source : EndPoint}
    {order : s.nodes.tel.Range} {slice : Sorting (NodeScore.score (K := K))}
    (hne : s.nodes.tel.keys ≠ []) {p : PathInfo K} (h : p ∈ r.computing s source order slice) :
    ∃ ip ∈ s.nodes.tel.keys, p.hops = [ip] ∧ p.rtt = scoreAt s (r.score s source) ip := by
  obtain ⟨ips, hperm, hsort, -⟩ := sort_scored hne order (r.score s source) slice
  simp only [computing, hsort, List.map_map] at h
  obtain ⟨ip, hip, rfl⟩ := List.mem_map.mp h
  exact ⟨ip, hperm.mem_iff.mp hip, rfl, rfl⟩

end Arcturus.EdgeSolvers
