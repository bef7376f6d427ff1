import Arcturus.NodeGraph
import Mathlib.Data.List.Nodup

/-!
The two maps of the graph stay consistent under every sequence of calls: each edge is
stored under its own key, starts at a node of the graph and ends at one or at an origin
that its node has reported.
-/

namespace Arcturus.GraphIntegrity

open GoMaps Upserts EdgeLists NodeGraph

/-- A node has reported a link to this origin. -/
def Reported (calls : List Call) (source dest : String) : Prop :=
  ∃ node order, Call.addNode node order ∈ calls ∧ node.publicIP = source ∧
    ∃ v ∈ node.links, v.target.targetType = .source ∧ originName v.target = dest

/-- What holds of the stored edges after these calls. -/
structure Sound (calls : List Call) (g : GraphManager) : Prop where
  stored : ∀ {k e}, g.edges.val k = some e → line e = k
  source : ∀ {k e}, g.edges.val k = some e → g.HasNode e.sourceIp
  dest : ∀ {k e}, g.edges.val k = some e →
    g.HasNode e.destinationIp ∨ Reported calls e.sourceIp e.destinationIp
  keys : g.edges.keys.Nodup

section Steps
variable {math : Math} {calls : List Call} {g : GraphManager}

theorem Reported.mono {source dest : String} (h : Reported calls source dest) (c : Call) :
    Reported (calls ++ [c]) source dest := by
  obtain ⟨node, order, hmem, hrest⟩ := h
  exact ⟨node, order, List.mem_append_left _ hmem, hrest⟩

/-- A link leads from its node to an origin or to a node. -/
theorem mem_written {nodes : Nodes} {node : NodeTelemetry} {links : List LinkCongestion} {e : Edge}
    (h : e ∈ written math nodes node links) :
    e.sourceIp = node.publicIP ∧ ((nodes.val e.destinationIp).isSome ∨
      ∃ v ∈ links, v.target.targetType = .source ∧ originName v.target = e.destinationIp) := by
  obtain ⟨v, hv, rfl⟩ := List.mem_map.mp h
  obtain ⟨hmem, hknown⟩ := List.mem_filter.mp hv
  refine ⟨rfl, ?_⟩
  unfold reportedEdge destination
  cases htype : v.target.targetType with
  | source => exact Or.inr ⟨v, hmem, htype, rfl⟩
  | node => exact Or.inl ((of_decide_eq_true hknown).resolve_left (by simp [htype]))

theorem sound_start : Sound [] newGraphManager where
  stored h := absurd h (by simp [newGraphManager, GoMap.empty, Option.default_eq_none])
  source h := absurd h (by simp [newGraphManager, GoMap.empty, Option.default_eq_none])
  dest h := absurd h (by simp [newGraphManager, GoMap.empty, Option.default_eq_none])
  keys := List.nodup_nil

/-- An edge after a report was there before or is one of the edges of the report. -/
theorem addNode_edge_cases {node : NodeTelemetry} {order : node.linksCongestion.Range} {k : String}
    {e : Edge} (h : (g.addNode math node order).edges.val k = some e) :
    ∃ first w, e = { first with edgeWeight := w } ∧ (g.edges.val k = some first ∨
      line first = k ∧
        first ∈ written math (g.nodes.set node.publicIP (some node)) node node.links) := by
  rw [addNode_edges, foldl_upsert_val] at h
  obtain ⟨first, w, heq, hold | ⟨-, hnew⟩⟩ := combined_renew_eq_some h
  · exact ⟨first, w, heq, Or.inl hold⟩
  · have hmem := List.mem_filter.mp (List.mem_of_mem_head? hnew)
    exact ⟨first, w, heq, Or.inr ⟨of_decide_eq_true hmem.2,
      (written_perm math _ node order).mem_iff.mp hmem.1⟩⟩

theorem Sound.addNode (h : Sound calls g) (node : NodeTelemetry)
    (order : node.linksCongestion.Range) :
    Sound (calls ++ [.addNode node order]) (g.addNode math node order) where
  stored he := by
    obtain ⟨first, w, rfl, hold | ⟨hline, -⟩⟩ := addNode_edge_cases he
    · have hline := h.stored hold
      exact hline
    · exact hline
  source he := by
    rw [addNode_hasNode]
    obtain ⟨first, w, rfl, hold | ⟨-, hnew⟩⟩ := addNode_edge_cases he
    · have hnode := h.source hold
      exact Or.inr hnode
    · exact Or.inl (mem_written hnew).1
  dest he := by
    obtain ⟨first, w, rfl, hold | ⟨-, hnew⟩⟩ := addNode_edge_cases he
    · rcases h.dest hold with hnode | hrep
      · exact Or.inl (addNode_hasNode.mpr (Or.inr hnode))
      · exact Or.inr (hrep.mono _)
    · obtain ⟨hsource, hnode | horigin⟩ := mem_written hnew
      · exact Or.inl hnode
      · exact Or.inr ⟨node, order, by simp, hsource.symm, horigin⟩
  keys := nodup_foldl_upsert_keys line renew _ h.keys

theorem Sound.removeNode (h : Sound calls g) (id : String) :
    Sound (calls ++ [.removeNode id]) (g.removeNode id) where
  stored he := h.stored (removeNode_edges_val.mp he).1
  source he := by
    obtain ⟨hold, hsource, -⟩ := removeNode_edges_val.mp he
    exact removeNode_hasNode.mpr ⟨hsource, h.source hold⟩
  dest he := by
    obtain ⟨hold, -, hdest⟩ := removeNode_edges_val.mp he
    rcases h.dest hold with hnode | hrep
    · exact Or.inl (removeNode_hasNode.mpr ⟨hdest, hnode⟩)
    · exact Or.inr (hrep.mono _)
  keys := GoMap.nodup_foldl_erase_keys _ _ h.keys

end Steps

theorem sound_run (math : Math) (calls : List Call) : Sound calls (run math calls) := by
  induction calls using List.reverseRecOn with
  | nil => exact sound_start
  | append_singleton calls c ih =>
    rw [run_concat]
    cases c with
    | addNode node order => exact ih.addNode node order
    | removeNode id => exact ih.removeNode id

/-- No two entries of the list of edges join the same nodes in the same direction. -/
theorem Sound.nodup_pairs {calls : List Call} {g : GraphManager} (h : Sound calls g)
    (order : g.edges.Range) :
    ((g.getEdges order).map fun e => (e.sourceIp, e.destinationIp)).Nodup := by
  unfold GraphManager.getEdges
  rw [List.map_filterMap]
  apply List.Nodup.filterMap ?_ (order.perm.nodup_iff.mpr h.keys)
  intro k k' pair hk hk'
  obtain ⟨e, he, rfl⟩ := Option.map_eq_some_iff.mp hk
  obtain ⟨e', he', hpair⟩ := Option.map_eq_some_iff.mp hk'
  rw [Prod.mk.injEq] at hpair
  rw [← h.stored he, ← h.stored he', line, line, hpair.1, hpair.2]

/-- The edges after these calls. -/
structure Integrity (calls : List Call) (g : GraphManager) : Prop where
  stored : ∀ k e, g.edges.val k = some e → k = edgeKey e.sourceIp e.destinationIp
  source : ∀ e, g.HasEdge e → g.HasNode e.sourceIp
  dest : ∀ e, g.HasEdge e → g.HasNode e.destinationIp ∨ Reported calls e.sourceIp e.destinationIp
  distinct : ∀ order : g.edges.Range,
    ((g.getEdges order).map fun e => (e.sourceIp, e.destinationIp)).Nodup

/-- Every sequence of calls keeps the edges consistent with the nodes, and no edge is
left at a node that was removed. -/
theorem graph_integrity (math : Math) (calls : List Call) :
    Integrity calls (run math calls) ∧
      ∀ id e, (run math (calls ++ [.removeNode id])).HasEdge e →
        e.sourceIp ≠ id ∧ e.destinationIp ≠ id := by
  have h := sound_run math calls
  refine ⟨⟨fun k e he => (h.stored he).symm, ?_, ?_, h.nodup_pairs⟩, ?_⟩
  · rintro e ⟨k, he⟩
    exact h.source he
  · rintro e ⟨k, he⟩
    exact h.dest he
  · rintro id e ⟨k, he⟩
    rw [run_concat] at he
    exact (removeNode_edges_val.mp he).2

end Arcturus.GraphIntegrity
