import Arcturus.GraphIntegrity

/-!
The edges of a node after its report, compared with the links of the report. They agree
if and only if the report does not change what an existing edge keeps: no link has gone,
and no latency or load is another one than before.
-/

namespace Arcturus.ReportedEdges

open GoMaps Upserts EdgeLists NodeGraph GraphIntegrity

/-- The links of a report to origins and to nodes of the graph. -/
def liveLinks (nodes : Nodes) (t : NodeTelemetry) : List LinkCongestion :=
  t.links.filter fun v => Known nodes v

/-- The edges from the node are one for each live link of its report, as reported. -/
def Reflects (math : Math) (g : GraphManager) (t : NodeTelemetry) : Prop :=
  ∀ order : g.edges.Range, ((g.getEdges order).filter fun e => e.sourceIp = t.publicIP).Perm
    ((liveLinks g.nodes t).map (reportedEdge math g.nodes t))

/-- The nodes once the report is entered. -/
def withReport (g : GraphManager) (t : NodeTelemetry) : Nodes :=
  g.nodes.set t.publicIP (some t)

/-- Before the report: its live links lead to different ends, every edge of the node is
among them, and the edges that exist have the latencies and loads of the report. -/
structure Unchanged (g : GraphManager) (t : NodeTelemetry) : Prop where
  distinct : ((liveLinks (withReport g t) t).map destination).Nodup
  kept : ∀ e, g.HasEdge e → e.sourceIp = t.publicIP →
    ∃ v ∈ liveLinks (withReport g t) t, destination v = e.destinationIp
  same : ∀ v ∈ liveLinks (withReport g t) t, ∀ e,
    g.edges.val (edgeKey t.publicIP (destination v)) = some e →
      e.sourceIp = t.publicIP ∧ e.latency = v.averageLatency ∧
        e.load = targetLoad (withReport g t) v

section Report
variable {math : Math} {calls : List Call} {g : GraphManager} {t : NodeTelemetry}
  {order : t.linksCongestion.Range}

theorem mem_getEdges {order : g.edges.Range} {e : Edge} (hsound : Sound calls g) :
    e ∈ g.getEdges order ↔ g.edges.val (line e) = some e := by
  unfold GraphManager.getEdges
  rw [List.mem_filterMap]
  constructor
  · rintro ⟨k, -, he⟩
    rw [hsound.stored he]
    exact he
  · intro he
    refine ⟨line e, ?_, he⟩
    rw [order.perm.mem_iff]
    by_contra hnone
    rw [g.edges.absent _ hnone] at he
    simp [Option.default_eq_none] at he

/-- The edges of the report with their keys. -/
theorem map_line_written (nodes : Nodes) (links : List LinkCongestion) :
    (written math nodes t links).map line =
      ((links.filter fun v => Known nodes v).map destination).map (edgeKey t.publicIP) := by
  unfold written
  rw [List.map_map, List.map_map]
  rfl

theorem nodup_line_written (hdistinct : ((liveLinks (withReport g t) t).map destination).Nodup) :
    ((written math (withReport g t) t (order.keys.map t.linksCongestion.val)).map line).Nodup := by
  rw [((written_perm math _ t order).map line).nodup_iff, map_line_written]
  exact hdistinct.map fun d d' hdd => edgeKey_inj.mp hdd

theorem mem_written_iff {e : Edge} :
    e ∈ written math (withReport g t) t (order.keys.map t.linksCongestion.val) ↔
      ∃ v ∈ liveLinks (withReport g t) t, reportedEdge math (withReport g t) t v = e := by
  rw [(written_perm math _ t order).mem_iff]
  exact List.mem_map

theorem line_reportedEdge (math : Math) (nodes : Nodes) (v : LinkCongestion) :
    line (reportedEdge math nodes t v) = edgeKey t.publicIP (destination v) := rfl

/-- What a live link finds under its key afterwards, if no other one has its end. -/
theorem addNode_val_of_live (math : Math) (order : t.linksCongestion.Range)
    (hdistinct : ((liveLinks (withReport g t) t).map destination).Nodup) {v : LinkCongestion}
    (hv : v ∈ liveLinks (withReport g t) t) :
    (g.addNode math t order).edges.val (edgeKey t.publicIP (destination v)) =
      some (renew (g.edges.val (edgeKey t.publicIP (destination v)))
        (reportedEdge math (withReport g t) t v)) := by
  rw [addNode_edges, ← line_reportedEdge math (withReport g t)]
  exact foldl_upsert_val_of_mem line renew (nodup_line_written hdistinct)
    (mem_written_iff.mpr ⟨v, hv, rfl⟩) g.edges

/-- An existing edge with the end, the latency and the load of a link becomes its edge. -/
theorem renew_eq_reported (hsound : Sound calls g) (h : Unchanged g t) {v : LinkCongestion}
    (hv : v ∈ liveLinks (withReport g t) t) :
    renew (g.edges.val (edgeKey t.publicIP (destination v)))
        (reportedEdge math (withReport g t) t v) = reportedEdge math (withReport g t) t v := by
  cases hold : g.edges.val (edgeKey t.publicIP (destination v)) with
  | none => rfl
  | some old =>
    obtain ⟨hsource, hlatency, hload⟩ := h.same v hv old hold
    have hline := hsound.stored hold
    rw [line, hsource, edgeKey_inj] at hline
    unfold renew reportedEdge
    simp only
    rw [← hsource, ← hlatency, ← hload, ← hline]

theorem reflects_of_unchanged (hsound : Sound calls g) (h : Unchanged g t) :
    Reflects math (g.addNode math t order) t := by
  have hafter : Sound (calls ++ [.addNode t order]) (g.addNode math t order) :=
    hsound.addNode t order
  intro range
  have hpairs := hafter.nodup_pairs range
  have hleft := ((hpairs.of_map _).filter fun e => decide (e.sourceIp = t.publicIP))
  have hright : ((liveLinks (withReport g t) t).map
      (reportedEdge math (withReport g t) t)).Nodup := by
    apply List.Nodup.of_map (·.destinationIp)
    rw [List.map_map]
    exact h.distinct
  apply (List.perm_ext_iff_of_nodup hleft hright).mpr
  intro e
  rw [List.mem_filter, mem_getEdges hafter, decide_eq_true_eq, List.mem_map]
  constructor
  · rintro ⟨he, hsource⟩
    -- an old edge is among the live links, and a new one is the edge of such a link
    obtain ⟨v, hv, hend⟩ : ∃ v ∈ liveLinks (withReport g t) t,
        destination v = e.destinationIp := by
      obtain ⟨first, w, rfl, hold | ⟨-, hnew⟩⟩ := addNode_edge_cases he
      · exact h.kept first ⟨_, hold⟩ hsource
      · obtain ⟨v, hv, rfl⟩ := List.mem_map.mp hnew
        exact ⟨v, hv, rfl⟩
    have hval := addNode_val_of_live math order h.distinct hv
    rw [renew_eq_reported hsound h hv, hend, ← hsource] at hval
    exact ⟨v, hv, Option.some.inj (hval.symm.trans he)⟩
  · rintro ⟨v, hv, rfl⟩
    rw [line_reportedEdge, addNode_val_of_live math order h.distinct hv,
      renew_eq_reported hsound h hv]
    exact ⟨rfl, rfl⟩

theorem unchanged_of_reflects (hsound : Sound calls g)
    (h : Reflects math (g.addNode math t order) t) : Unchanged g t := by
  have hafter : Sound (calls ++ [.addNode t order]) (g.addNode math t order) :=
    hsound.addNode t order
  have hperm := h (GoMap.range _)
  have hmem : ∀ e, (g.addNode math t order).edges.val (line e) = some e ∧
      e.sourceIp = t.publicIP ↔
        ∃ v ∈ liveLinks (withReport g t) t, reportedEdge math (withReport g t) t v = e := by
    intro e
    have hiff := hperm.mem_iff (a := e)
    rw [List.mem_filter, mem_getEdges hafter, decide_eq_true_eq, List.mem_map] at hiff
    exact hiff
  have hdistinct : ((liveLinks (withReport g t) t).map destination).Nodup := by
    -- edges of one node with different keys have different ends
    have hpairs := hafter.nodup_pairs (GoMap.range _)
    have hends := (hpairs.sublist (List.filter_sublist.map _)).perm (hperm.map _)
    rw [List.map_map] at hends
    apply List.Nodup.of_map (fun d => (t.publicIP, d))
    rw [List.map_map]
    exact hends
  refine ⟨hdistinct, ?_, ?_⟩
  · rintro e ⟨k, he⟩ hsource
    have hline := hsound.stored he
    obtain ⟨w, hval⟩ : ∃ w, (g.addNode math t order).edges.val k =
        some { e with edgeWeight := w } := by
      rw [addNode_edges, foldl_upsert_val, he, combined_renew_some]
      exact ⟨_, rfl⟩
    rw [← hline] at hval
    obtain ⟨v, hv, heq⟩ := (hmem { e with edgeWeight := w }).mp ⟨hval, hsource⟩
    exact ⟨v, hv, congrArg (·.destinationIp) heq⟩
  · intro v hv e he
    have hval := addNode_val_of_live math order hdistinct hv
    obtain ⟨hown, -⟩ := (hmem _).mpr ⟨v, hv, rfl⟩
    rw [line_reportedEdge, hval, he, Option.some.injEq] at hown
    exact ⟨congrArg (·.sourceIp) hown, congrArg (·.latency) hown, congrArg (·.load) hown⟩

end Report

/-- After any calls, a report leaves the edges of its node as reported if and only if it
changes nothing that existing edges keep. -/
theorem edges_reflect_report_iff (math : Math) (calls : List Call) (t : NodeTelemetry)
    (order : t.linksCongestion.Range) :
    Reflects math (run math (calls ++ [.addNode t order])) t ↔ Unchanged (run math calls) t := by
  have hsound := sound_run math calls
  rw [run_concat]
  exact ⟨unchanged_of_reflects hsound, reflects_of_unchanged hsound⟩

/-- Functions that agree with the library's at the ratios 0, 1 and 4. -/
def sampleMath : Math where
  pow := fun x y => if y = 2 then x * x else if x ≤ 1 then x else 1 + 7 / 3 * (x - 1)
  exp := fun x => 1 + x

def task (targetType : TargetType) (ip : String) (port : ℤ) : ProbeTask :=
  { targetType, provider := "", ip, port, region := "", id := "" }

/-- A report with one link, which loses nothing. -/
def oneLink (publicIP : String) (target : ProbeTask) (latency : ℚ) : NodeTelemetry where
  publicIP := publicIP
  provider := ""
  continent := ""
  cpuPressure := 0
  linksCongestion := GoMap.empty.set target.ip ⟨target.ip, target, 0, latency⟩

/-- The latency to an origin goes up from 150 to 600 between two reports. -/
def slower : List Call :=
  [.addNode (oneLink "10.0.0.1" (task .source "10.0.0.9" 80) 150) (GoMap.range _)]

/-- The edge keeps the latency of the first report, with the weight of the second. -/
theorem slower_keeps_latency :
    ¬ Reflects sampleMath (run sampleMath (slower ++
      [.addNode (oneLink "10.0.0.1" (task .source "10.0.0.9" 80) 600) (GoMap.range _)]))
      (oneLink "10.0.0.1" (task .source "10.0.0.9" 80) 600) := by
  rw [run_concat]
  intro h
  have hsame := (unchanged_of_reflects (sound_run sampleMath slower) h).same
    ⟨"10.0.0.9", task .source "10.0.0.9" 80, 0, 600⟩ (by decide +kernel)
    { sourceIp := "10.0.0.1", destinationIp := "10.0.0.9:80", edgeWeight := 1 / 2, latency := 150,
      load := 0 } (by decide +kernel)
  exact absurd hsame.2.1 (by decide +kernel)

end Arcturus.ReportedEdges
