import Arcturus.EwmaRouter
import Arcturus.LyapunovSolver
import Mathlib.Analysis.Complex.Exponential

/-!
The last-mile solvers that divide the traffic all give a distribution over the nodes
in which a node with a smaller score has a larger share.
-/

namespace Arcturus.LastMileDistribution

open ExchangeSort EdgeSolvers EwmaRouter

variable {K : Type*} [Field K] [LinearOrder K]

/-- A distribution listed by falling shares, each path with the score of its node. -/
structure Ranked (nodes : List String) (score : String → K) (paths : List (PathInfo K)) : Prop
    extends Favours nodes score paths where
  raw : ∀ p ∈ paths, ∀ ip, p.hops = [ip] → p.rawRTT = score ip
  sorted : paths.Pairwise fun p q => q.rtt ≤ p.rtt

variable [IsStrictOrderedRing K]

/-- Shares by a decreasing weight of the score, in the order of the scores. -/
theorem ranked_spread {nodes ips : List String} {score : String → K} {weight : K → K}
    (hperm : ips.Perm nodes) (hne : nodes ≠ []) (hpos : ∀ ip ∈ nodes, 0 < weight (score ip))
    (hanti : ∀ a ∈ nodes, ∀ b ∈ nodes, score a < score b → weight (score b) < weight (score a))
    (hsorted : ips.Pairwise fun a b => score a ≤ score b) :
    Ranked nodes score (spread (fun ip => weight (score ip)) score ips) where
  toFavours := favours_spread hperm hne hpos hanti
  raw p hp ip hip := by
    obtain ⟨a, -, rfl⟩ := mem_spread hp
    rw [List.singleton_inj.mp hip]
  sorted := by
    refine spread_sorted (fun ip hip => hpos ip (hperm.mem_iff.mp hip)) ?_
    refine hsorted.imp_of_mem fun {a b} ha hb hle => ?_
    rcases hle.lt_or_eq with hlt | heq
    · exact (hanti a (hperm.mem_iff.mp ha) b (hperm.mem_iff.mp hb) hlt).le
    · rw [heq]

theorem p2c_favours {s : Snapshot K} (hne : s.nodes.tel.keys ≠ []) (order : s.nodes.tel.Range) :
    Favours s.nodes.tel.keys (effectiveLoad s) (p2cComputing s order) := by
  rw [p2cComputing_eq hne]
  refine favours_spread order.perm hne ?_ ?_
  · exact fun ip _ => one_div_pos.mpr (effectiveLoad_pos s ip)
  · exact fun a _ b _ hlt => one_div_lt_one_div_of_lt (effectiveLoad_pos s a) hlt

theorem ewma_ranked {r : EWMARouter K} (h : Valid r) (hne : r.snap.nodes.tel.keys ≠ [])
    (source : EndPoint) (order : r.snap.nodes.tel.Range) :
    Ranked r.snap.nodes.tel.keys (r.combinedAt source) (r.computing source order).2 := by
  obtain ⟨ips, hperm, hpaths, hsorted⟩ := EWMARouter.computing_snd hne source order
  have hweight : ∀ ip ∈ r.snap.nodes.tel.keys,
      rawWeight (r.combinedAt source ip) = 1 / r.combinedAt source ip :=
    fun ip hip => if_pos (h.combinedAt_pos source hip)
  rw [hpaths]
  refine ranked_spread hperm hne ?_ ?_ hsorted
  · intro ip hip
    rw [hweight ip hip]
    exact one_div_pos.mpr (h.combinedAt_pos source hip)
  · intro a ha b hb hlt
    rw [hweight a ha, hweight b hb]
    exact one_div_lt_one_div_of_lt (h.combinedAt_pos source ha) hlt

theorem lyapunov_ranked {exp : K → K} (hpos : ∀ x, 0 < exp x) (hmono : StrictMono exp)
    {s : Snapshot K} (hne : s.nodes.tel.keys ≠ []) (source : EndPoint)
    (order : s.nodes.tel.Range) (slice : Sorting (NodeScore.score (K := K))) :
    Ranked s.nodes.tel.keys (LyapunovSolver.penaltyAt exp s source)
      (LyapunovSolver.computing exp s source order slice) := by
  obtain ⟨ips, hperm, hpaths, hsorted⟩ :=
    LyapunovSolver.computing_eq hpos hne source order slice
  rw [hpaths]
  exact ranked_spread hperm hne (fun ip _ => hpos _)
    (fun a _ b _ hlt => LyapunovSolver.softmaxWeight_lt hmono hlt) hsorted

/-- Whatever the telemetry and the latencies, each solver gives a distribution over the
nodes that favours the better ones. -/
theorem traffic_distributed (s : Snapshot ℝ) (hne : s.nodes.tel.keys ≠ []) :
    (∀ order, Favours s.nodes.tel.keys (effectiveLoad s) (p2cComputing s order)) ∧
    (∀ r : EWMARouter ℝ, Reached r → r.snap = s → ∀ source order,
      Ranked s.nodes.tel.keys (r.combinedAt source) (r.computing source order).2) ∧
    ∀ source order slice, Ranked s.nodes.tel.keys (LyapunovSolver.penaltyAt Real.exp s source)
      (LyapunovSolver.computing Real.exp s source order slice) := by
  refine ⟨p2c_favours hne, ?_, ?_⟩
  · rintro r hr rfl source order
    exact ewma_ranked hr.valid hne source order
  · exact lyapunov_ranked Real.exp_pos Real.exp_strictMono hne

/-- Two nodes, one with an invalid usage and none with latency statistics. -/
noncomputable def twoNodes : Snapshot ℝ where
  nodes := (Nodes.empty.add ⟨"10.0.0.1", "Asia", ⟨2, 1, 0⟩⟩).add
    ⟨"10.0.0.2", "Europe", ⟨4, -1, 1⟩⟩
  edgeAgg := EdgeAgg.empty
  localIP := "10.0.0.9"

theorem twoNodes_distributed : twoNodes.nodes.tel.keys = ["10.0.0.1", "10.0.0.2"] ∧
    Ranked ["10.0.0.1", "10.0.0.2"] ((newEWMARouter twoNodes).combinedAt ⟨"Tokyo", "Asia"⟩)
      ((newEWMARouter twoNodes).computing ⟨"Tokyo", "Asia"⟩ twoNodes.nodes.tel.range).2 :=
  have hkeys : twoNodes.nodes.tel.keys = ["10.0.0.1", "10.0.0.2"] := rfl
  ⟨hkeys, (traffic_distributed twoNodes (hkeys ▸ List.cons_ne_nil _ _)).2.1 _ (.new twoNodes) rfl
    ⟨"Tokyo", "Asia"⟩ twoNodes.nodes.tel.range⟩

end Arcturus.LastMileDistribution
