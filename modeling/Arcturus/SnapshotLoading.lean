import Arcturus.ReportedEdges

/-!
The graph after the start-up loop, which enters the reports of a snapshot in an arbitrary
order: the nodes it ends with, and the edges it writes one after the other. A link to a
node that has not been loaded yet is not written.
-/

namespace Arcturus.SnapshotLoading

open GoMaps Upserts EdgeLists NodeGraph GraphIntegrity ReportedEdges

/-- One call of the loop, with the order in which it takes the links. -/
structure Load where
  node : NodeTelemetry
  order : node.linksCongestion.Range

def Load.links (x : Load) : List LinkCongestion := x.order.keys.map x.node.linksCongestion.val

/-- The loop over the snapshot. -/
def loadAll (math : Math) (l : List Load) : GraphManager :=
  l.foldl (fun g x => g.addNode math x.node x.order) newGraphManager

/-- The calls enter these reports, each once. -/
def Loads (T : List NodeTelemetry) (l : List Load) : Prop := (l.map Load.node).Perm T

def enter (nodes : Nodes) (t : NodeTelemetry) : Nodes := nodes.set t.publicIP (some t)

/-- The nodes of a snapshot. -/
def nodesOf (T : List NodeTelemetry) : Nodes := T.foldl enter GoMap.empty

/-- The edges that the loop writes, in order. -/
def loadWrites (math : Math) : Nodes → List Load → List Edge
  | _, [] => []
  | nodes, x :: l =>
    written math (enter nodes x.node) x.node x.links ++ loadWrites math (enter nodes x.node) l

section Loop
variable {math : Math}

theorem foldl_addNode (l : List Load) (g : GraphManager) :
    (l.foldl (fun g x => g.addNode math x.node x.order) g).nodes =
        (l.map Load.node).foldl enter g.nodes ∧
      (l.foldl (fun g x => g.addNode math x.node x.order) g).edges =
        (loadWrites math g.nodes l).foldl (upsert line renew) g.edges := by
  induction l generalizing g with
  | nil => exact ⟨rfl, rfl⟩
  | cons x l ih =>
    obtain ⟨hnodes, hedges⟩ := ih (g.addNode math x.node x.order)
    rw [addNode_nodes] at hnodes hedges
    rw [List.foldl_cons]
    refine ⟨hnodes, ?_⟩
    rw [hedges, addNode_edges, loadWrites, List.foldl_append]
    rfl

/-- What is stored under a key at the end. -/
theorem loadAll_val (l : List Load) (k : String) :
    (loadAll math l).edges.val k =
      combined renew ((loadWrites math GoMap.empty l).filter fun e => line e = k) none := by
  unfold loadAll
  rw [(foldl_addNode l newGraphManager).2, foldl_upsert_val]
  rfl

theorem foldl_enter_val (T : List NodeTelemetry) (nodes : Nodes) (ip : String) (t : NodeTelemetry)
    (hT : (T.map (·.publicIP)).Nodup) :
    (T.foldl enter nodes).val ip = some t ↔
      (t ∈ T ∧ t.publicIP = ip) ∨ (∀ u ∈ T, u.publicIP ≠ ip) ∧ nodes.val ip = some t := by
  induction T generalizing nodes with
  | nil => simp
  | cons u T ih =>
    rw [List.map_cons, List.nodup_cons] at hT
    rw [List.foldl_cons, ih _ hT.2]
    by_cases hu : u.publicIP = ip
    · have hnone : ∀ u' ∈ T, u'.publicIP ≠ ip := by
        intro u' hu' heq
        exact hT.1 (List.mem_map.mpr ⟨u', hu', heq.trans hu.symm⟩)
      have hval : (enter nodes u).val ip = some u := by
        unfold enter
        rw [← hu, GoMap.set_val_same]
      constructor
      · rintro (⟨ht, hip⟩ | ⟨-, hval'⟩)
        · exact absurd hip (hnone t ht)
        · rw [hval, Option.some.injEq] at hval'
          subst hval'
          exact Or.inl ⟨List.mem_cons_self, hu⟩
      · rintro (⟨ht, hip⟩ | ⟨hno, -⟩)
        · rcases List.mem_cons.mp ht with rfl | ht
          · exact Or.inr ⟨hnone, hval⟩
          · exact absurd hip (hnone t ht)
        · exact absurd hu (hno u List.mem_cons_self)
    · have hval : (enter nodes u).val ip = nodes.val ip :=
        GoMap.set_val_of_ne _ _ (Ne.symm hu)
      rw [hval, List.mem_cons, List.forall_mem_cons]
      constructor
      · rintro (⟨ht, hip⟩ | ⟨hno, hold⟩)
        · exact Or.inl ⟨Or.inr ht, hip⟩
        · exact Or.inr ⟨⟨hu, hno⟩, hold⟩
      · rintro (⟨rfl | ht, hip⟩ | ⟨hno, hold⟩)
        · exact absurd hip hu
        · exact Or.inl ⟨ht, hip⟩
        · exact Or.inr ⟨hno.2, hold⟩

theorem nodesOf_val {T : List NodeTelemetry} (hT : (T.map (·.publicIP)).Nodup) {ip : String}
    {t : NodeTelemetry} : (nodesOf T).val ip = some t ↔ t ∈ T ∧ t.publicIP = ip := by
  unfold nodesOf
  rw [foldl_enter_val T _ ip t hT]
  simp [GoMap.empty, Option.default_eq_none]

/-- The nodes do not depend on the order. -/
theorem loadAll_nodes_val {T : List NodeTelemetry} (hT : (T.map (·.publicIP)).Nodup) {l : List Load}
    (hl : Loads T l) : (loadAll math l).nodes.val = (nodesOf T).val := by
  have hmap := ((hl.map (·.publicIP)).nodup_iff).mpr hT
  have hnodes : (loadAll math l).nodes = nodesOf (l.map Load.node) :=
    (foldl_addNode l newGraphManager).1
  funext ip
  rw [hnodes]
  apply Option.ext
  intro t
  rw [nodesOf_val hmap, nodesOf_val hT, hl.mem_iff]

end Loop

/-- What the first map knows, the second knows too. -/
def Within (part full : Nodes) : Prop := ∀ ip t, part.val ip = some t → full.val ip = some t

/-- A link that is written whatever other nodes have been loaded. -/
def Always (t : NodeTelemetry) (v : LinkCongestion) : Prop :=
  v.target.targetType = .source ∨ v.target.ip = t.publicIP

section Writes
variable {math : Math} {part full : Nodes} {t : NodeTelemetry} {v : LinkCongestion}

theorem Within.enter (h : Within part full) (ht : full.val t.publicIP = some t) :
    Within (enter part t) full := by
  intro ip u hu
  unfold SnapshotLoading.enter at hu
  by_cases hip : ip = t.publicIP
  · subst hip
    rw [GoMap.set_val_same] at hu
    exact ht.trans hu
  · rw [GoMap.set_val_of_ne _ _ hip] at hu
    exact h ip u hu

theorem Always.known (h : Always t v) (nodes : Nodes) : Known (enter nodes t) v := by
  rcases h with hsource | hself
  · exact Or.inl hsource
  · refine Or.inr ?_
    unfold enter
    rw [hself, GoMap.set_val_same]
    rfl

/-- A link that can be written is written as the edge it is for all the nodes. -/
theorem Within.reportedEdge_eq (math : Math) (t : NodeTelemetry) (h : Within part full)
    (hv : Known part v) :
    Known full v ∧ reportedEdge math part t v = reportedEdge math full t v := by
  unfold Known at hv
  cases htype : v.target.targetType with
  | source => exact ⟨Or.inl htype, by simp [reportedEdge, targetLoad, htype]⟩
  | node =>
    obtain ⟨u, hu⟩ := Option.isSome_iff_exists.mp (hv.resolve_left (by simp [htype]))
    have hfull := h _ u hu
    exact ⟨Or.inr (by rw [hfull]; rfl), by simp [reportedEdge, targetLoad, htype, hu, hfull]⟩

theorem mem_written_within (h : Within part full) {links : List LinkCongestion} {e : Edge}
    (he : e ∈ written math part t links) :
    ∃ v ∈ links, Known part v ∧ Known full v ∧ e = reportedEdge math full t v := by
  obtain ⟨v, hv, rfl⟩ := List.mem_map.mp he
  obtain ⟨hmem, hknown⟩ := List.mem_filter.mp hv
  have hknown := of_decide_eq_true hknown
  obtain ⟨hfull, heq⟩ := h.reportedEdge_eq math t hknown
  exact ⟨v, hmem, hknown, hfull, heq⟩

theorem mem_links {x : Load} {v : LinkCongestion} : v ∈ x.links ↔ v ∈ x.node.links :=
  (x.order.perm.map _).mem_iff

/-- Whatever the loop writes is an edge of one of its reports. -/
theorem mem_loadWrites {l : List Load} {e : Edge} (h : Within part full)
    (hl : ∀ x ∈ l, full.val x.node.publicIP = some x.node) (he : e ∈ loadWrites math part l) :
    ∃ x ∈ l, ∃ v ∈ liveLinks full x.node, e = reportedEdge math full x.node v := by
  induction l generalizing part with
  | nil => simp [loadWrites] at he
  | cons x l ih =>
    have hx := h.enter (hl x List.mem_cons_self)
    rw [loadWrites, List.mem_append] at he
    rcases he with he | he
    · obtain ⟨v, hv, -, hknown, heq⟩ := mem_written_within hx he
      exact ⟨x, List.mem_cons_self, v,
        List.mem_filter.mpr ⟨mem_links.mp hv, decide_eq_true hknown⟩, heq⟩
    · obtain ⟨y, hy, hrest⟩ := ih hx (fun y hy => hl y (List.mem_cons_of_mem _ hy)) he
      exact ⟨y, List.mem_cons_of_mem _ hy, hrest⟩

theorem always_mem_loadWrites (math : Math) {l : List Load} (h : Within part full)
    (hl : ∀ x ∈ l, full.val x.node.publicIP = some x.node) {x : Load} (hx : x ∈ l)
    (hv : v ∈ x.node.links) (halways : Always x.node v) :
    reportedEdge math full x.node v ∈ loadWrites math part l := by
  induction l generalizing part with
  | nil => simp at hx
  | cons y l ih =>
    have hy := h.enter (hl y List.mem_cons_self)
    rw [loadWrites, List.mem_append]
    rcases List.mem_cons.mp hx with rfl | hx
    · have hknown := halways.known part
      rw [← (hy.reportedEdge_eq math _ hknown).2]
      exact Or.inl (List.mem_map_of_mem
        (List.mem_filter.mpr ⟨mem_links.mpr hv, decide_eq_true hknown⟩))
    · exact Or.inr (ih hy (fun z hz => hl z (List.mem_cons_of_mem _ hz)) hx)

theorem loadWrites_append (l l' : List Load) (nodes : Nodes) :
    loadWrites math nodes (l ++ l') =
      loadWrites math nodes l ++ loadWrites math ((l.map Load.node).foldl enter nodes) l' := by
  induction l generalizing nodes with
  | nil => rfl
  | cons x l ih =>
    rw [List.cons_append, loadWrites, ih, loadWrites, List.append_assoc]
    rfl

/-- The same edge written again and again stays as it is. -/
theorem combined_renew_const {l : List Edge} {e : Edge} (hall : ∀ f ∈ l, f = e) (hne : l ≠ []) :
    combined renew l none = some e := by
  obtain ⟨first, rest, rfl⟩ := List.exists_cons_of_ne_nil hne
  obtain rfl := hall first List.mem_cons_self
  rw [combined_renew_cons, combined_renew_some]
  cases hlast : rest.getLast? with
  | none => rfl
  | some last =>
    rw [hall last (List.mem_cons_of_mem _ (List.mem_of_getLast? hlast))]
    rfl

theorem within_empty (full : Nodes) : Within GoMap.empty full := by
  intro ip t h
  simp [GoMap.empty, Option.default_eq_none] at h

end Writes

end Arcturus.SnapshotLoading
