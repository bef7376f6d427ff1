import Arcturus.SnapshotLoading

/-!
When the order of loading does not matter. The first link that is written for a key makes
the edge and the last one gives it its weight, so that the graph is the same for all
orders only if no link waits for a node that may come later and links with the same key
agree.
-/

namespace Arcturus.SnapshotLoading

open GoMaps Upserts EdgeLists NodeGraph GraphIntegrity ReportedEdges

/-- Every two orders give the same nodes and edges, and every link between two loaded
nodes is an edge. -/
def OrderFree (math : Math) (T : List NodeTelemetry) : Prop :=
  ∀ l, Loads T l →
    (∀ l', Loads T l' → (loadAll math l).nodes.val = (loadAll math l').nodes.val ∧
      (loadAll math l).edges.val = (loadAll math l').edges.val) ∧
    ∀ t ∈ T, ∀ v ∈ t.links, v.target.targetType = .node →
      (∃ u ∈ T, u.publicIP = v.target.ip) →
        ∃ e, (loadAll math l).HasEdge e ∧ e.sourceIp = t.publicIP ∧ e.destinationIp = v.target.ip

/-- A link to another loaded node has the name of an origin that the same node reports,
and links with the same key stand for the same edge. -/
structure Settled (math : Math) (T : List NodeTelemetry) : Prop where
  origins : ∀ t ∈ T, ∀ v ∈ t.links, v.target.targetType = .node →
    (∃ u ∈ T, u.publicIP = v.target.ip) → v.target.ip = t.publicIP ∨
      ∃ w ∈ t.links, w.target.targetType = .source ∧ originName w.target = v.target.ip
  agree : ∀ t ∈ T, ∀ v ∈ liveLinks (nodesOf T) t, ∀ t' ∈ T, ∀ v' ∈ liveLinks (nodesOf T) t',
    line (reportedEdge math (nodesOf T) t v) = line (reportedEdge math (nodesOf T) t' v') →
      reportedEdge math (nodesOf T) t v = reportedEdge math (nodesOf T) t' v'

section Settled
variable {math : Math} {T : List NodeTelemetry}

theorem Loads.full_val (hT : (T.map (·.publicIP)).Nodup) {l : List Load} (hl : Loads T l) :
    ∀ x ∈ l, (nodesOf T).val x.node.publicIP = some x.node := by
  intro x hx
  exact (nodesOf_val hT).mpr ⟨hl.mem_iff.mp (List.mem_map_of_mem hx), rfl⟩

theorem Loads.exists_load {l : List Load} (hl : Loads T l) {t : NodeTelemetry} (ht : t ∈ T) :
    ∃ x ∈ l, x.node = t := List.mem_map.mp (hl.mem_iff.mpr ht)

/-- Whatever is written under a key is the edge of a link of the snapshot. -/
theorem Loads.mem_written (hT : (T.map (·.publicIP)).Nodup) {l : List Load} (hl : Loads T l)
    {k : String} {f : Edge}
    (hf : f ∈ (loadWrites math GoMap.empty l).filter fun f => line f = k) :
    ∃ t ∈ T, ∃ v ∈ liveLinks (nodesOf T) t, line (reportedEdge math (nodesOf T) t v) = k ∧
      f = reportedEdge math (nodesOf T) t v := by
  obtain ⟨hmem, hline⟩ := List.mem_filter.mp hf
  obtain ⟨x, hx, v, hv, rfl⟩ := mem_loadWrites (within_empty _) (hl.full_val hT) hmem
  exact ⟨x.node, hl.mem_iff.mp (List.mem_map_of_mem hx), v, hv, of_decide_eq_true hline, rfl⟩

/-- In a settled snapshot every end of a node's links is the end of one that is always
written. -/
theorem Settled.exists_always (hT : (T.map (·.publicIP)).Nodup) (h : Settled math T)
    {t : NodeTelemetry} (ht : t ∈ T) {v : LinkCongestion} (hv : v ∈ liveLinks (nodesOf T) t) :
    ∃ w ∈ t.links, Always t w ∧ destination w = destination v := by
  obtain ⟨hmem, hknown⟩ := List.mem_filter.mp hv
  cases htype : v.target.targetType with
  | source => exact ⟨v, hmem, Or.inl htype, rfl⟩
  | node =>
    obtain ⟨u, hu⟩ := Option.isSome_iff_exists.mp
      ((of_decide_eq_true hknown).resolve_left (by simp [htype]))
    rcases h.origins t ht v hmem htype ⟨u, (nodesOf_val hT).mp hu⟩ with
      hself | ⟨w, hw, hsource, hname⟩
    · exact ⟨v, hmem, Or.inr hself, rfl⟩
    · refine ⟨w, hw, Or.inl hsource, ?_⟩
      simp [destination, htype, hsource, hname]

/-- In a settled snapshot all that is written under the key of a link is its edge. -/
theorem Settled.written_eq (hT : (T.map (·.publicIP)).Nodup) (h : Settled math T) {l : List Load}
    (hl : Loads T l) {t : NodeTelemetry} (ht : t ∈ T) {v : LinkCongestion}
    (hv : v ∈ liveLinks (nodesOf T) t) {k : String}
    (hline : line (reportedEdge math (nodesOf T) t v) = k) :
    ∀ f ∈ (loadWrites math GoMap.empty l).filter (fun f => line f = k),
      f = reportedEdge math (nodesOf T) t v := by
  intro f hf
  obtain ⟨t', ht', v', hv', hline', rfl⟩ := hl.mem_written hT hf
  exact h.agree t' ht' v' hv' t ht v hv (hline'.trans hline.symm)

/-- A settled snapshot has the edges of its links, in every order. -/
theorem Settled.val_iff (hT : (T.map (·.publicIP)).Nodup) (h : Settled math T) {l : List Load}
    (hl : Loads T l) {k : String} {e : Edge} :
    (loadAll math l).edges.val k = some e ↔ ∃ t ∈ T, ∃ v ∈ liveLinks (nodesOf T) t,
      line (reportedEdge math (nodesOf T) t v) = k ∧ e = reportedEdge math (nodesOf T) t v := by
  rw [loadAll_val]
  constructor
  · intro hval
    obtain ⟨first, hfirst⟩ : ∃ first,
        first ∈ (loadWrites math GoMap.empty l).filter fun f => line f = k := by
      apply List.exists_mem_of_ne_nil
      intro hnil
      rw [hnil] at hval
      simp [combined] at hval
    obtain ⟨t, ht, v, hv, hline, rfl⟩ := hl.mem_written hT hfirst
    refine ⟨t, ht, v, hv, hline, ?_⟩
    rw [combined_renew_const (h.written_eq hT hl ht hv hline) (List.ne_nil_of_mem hfirst),
      Option.some.injEq] at hval
    exact hval.symm
  · rintro ⟨t, ht, v, hv, hline, rfl⟩
    obtain ⟨w, hw, halways, hend⟩ := h.exists_always hT ht hv
    obtain ⟨x, hx, rfl⟩ := hl.exists_load ht
    have hwrite := always_mem_loadWrites math (within_empty _) (hl.full_val hT) hx hw halways
    have hkey : line (reportedEdge math (nodesOf T) x.node w) = k := by
      rw [line_reportedEdge, hend, ← line_reportedEdge math (nodesOf T), hline]
    exact combined_renew_const (h.written_eq hT hl ht hv hline)
      (List.ne_nil_of_mem (List.mem_filter.mpr ⟨hwrite, decide_eq_true hkey⟩))

theorem orderFree_of_settled (hT : (T.map (·.publicIP)).Nodup) (h : Settled math T) :
    OrderFree math T := by
  intro l hl
  refine ⟨?_, ?_⟩
  · intro l' hl'
    refine ⟨(loadAll_nodes_val hT hl).trans (loadAll_nodes_val hT hl').symm, ?_⟩
    funext k
    apply Option.ext
    intro e
    rw [h.val_iff hT hl, h.val_iff hT hl']
  · intro t ht v hv htype hu
    have hknown : Known (nodesOf T) v := by
      obtain ⟨u, hu⟩ := hu
      exact Or.inr (by rw [(nodesOf_val hT).mpr hu]; rfl)
    have hlive : v ∈ liveLinks (nodesOf T) t := List.mem_filter.mpr ⟨hv, decide_eq_true hknown⟩
    refine ⟨_, ⟨_, (h.val_iff hT hl).mpr ⟨t, ht, v, hlive, rfl, rfl⟩⟩, rfl, ?_⟩
    simp [reportedEdge, destination, htype]

end Settled

section Writers
variable {math : Math} {T : List NodeTelemetry} {t u : NodeTelemetry} {v : LinkCongestion}

theorem exists_first (h : v ∈ t.links) :
    ∃ order : t.linksCongestion.Range, ∃ rest, (Load.mk t order).links = v :: rest := by
  obtain ⟨k, hk, rfl⟩ := List.mem_map.mp h
  exact ⟨t.linksCongestion.rangeFrom hk, _, rfl⟩

theorem exists_last (h : v ∈ t.links) :
    ∃ order : t.linksCongestion.Range, ∃ rest, (Load.mk t order).links = rest ++ [v] := by
  obtain ⟨k, hk, rfl⟩ := List.mem_map.mp h
  refine ⟨⟨t.linksCongestion.keys.erase k ++ [k], ?_⟩, _, List.map_append⟩
  exact (List.perm_append_singleton k _).trans (List.perm_cons_erase hk).symm

theorem exists_rest (h : t ∈ T) : ∃ R, T.Perm (t :: R) := by
  obtain ⟨front, back, rfl⟩ := List.append_of_mem h
  exact ⟨front ++ back, List.perm_middle⟩

/-- A call with the links in the order of insertion. -/
def plain (t : NodeTelemetry) : Load := ⟨t, GoMap.range _⟩

theorem map_node_plain (R : List NodeTelemetry) : (R.map plain).map Load.node = R := by
  rw [List.map_map]
  exact List.map_id R

theorem written_cons {nodes : Nodes} {links : List LinkCongestion} (h : Known nodes v) :
    written math nodes t (v :: links) =
      reportedEdge math nodes t v :: written math nodes t links := by
  unfold written
  rw [List.filter_cons_of_pos (by simpa using h), List.map_cons]

theorem written_concat {nodes : Nodes} {links : List LinkCongestion} (h : Known nodes v) :
    written math nodes t (links ++ [v]) =
      written math nodes t links ++ [reportedEdge math nodes t v] := by
  unfold written
  rw [List.filter_append, List.filter_cons_of_pos (by simpa using h), List.map_append]
  rfl

theorem nodesOf_within (hT : (T.map (·.publicIP)).Nodup) {R : List NodeTelemetry}
    (hR : T.Perm R) : Within (nodesOf T) (nodesOf R) ∧ Within (nodesOf R) (nodesOf T) := by
  have hmap := ((hR.map (·.publicIP)).nodup_iff).mp hT
  refine ⟨?_, ?_⟩
  · intro ip t h
    rw [nodesOf_val hT, hR.mem_iff] at h
    exact (nodesOf_val hmap).mpr h
  · intro ip t h
    rw [nodesOf_val hmap, ← hR.mem_iff] at h
    exact (nodesOf_val hT).mpr h

/-- A link that is always written can be written first. -/
theorem exists_writes_first (math : Math) (hT : (T.map (·.publicIP)).Nodup) (ht : t ∈ T)
    (hv : v ∈ t.links) (halways : Always t v) : ∃ l, Loads T l ∧ ∃ back,
      loadWrites math GoMap.empty l = reportedEdge math (nodesOf T) t v :: back := by
  obtain ⟨R, hR⟩ := exists_rest ht
  obtain ⟨order, rest, hlinks⟩ := exists_first hv
  refine ⟨⟨t, order⟩ :: R.map plain, ?_, ?_⟩
  · unfold Loads
    rw [List.map_cons, map_node_plain]
    exact hR.symm
  · have hknown := halways.known GoMap.empty
    have hwithin := (within_empty (nodesOf T)).enter ((nodesOf_val hT).mpr ⟨ht, rfl⟩)
    rw [loadWrites, hlinks, written_cons hknown, (hwithin.reportedEdge_eq math t hknown).2]
    exact ⟨_, rfl⟩

/-- A link to an origin or a loaded node can be written last. -/
theorem exists_writes_last (math : Math) (hT : (T.map (·.publicIP)).Nodup) (ht : t ∈ T)
    (hv : v ∈ liveLinks (nodesOf T) t) : ∃ l, Loads T l ∧ ∃ front,
      loadWrites math GoMap.empty l = front ++ [reportedEdge math (nodesOf T) t v] := by
  obtain ⟨hmem, hknown⟩ := List.mem_filter.mp hv
  have hknown := of_decide_eq_true hknown
  obtain ⟨R, hR⟩ := exists_rest ht
  have hlast : T.Perm (R ++ [t]) := hR.trans (List.perm_append_singleton t R).symm
  obtain ⟨order, rest, hlinks⟩ := exists_last hmem
  refine ⟨R.map plain ++ [⟨t, order⟩], ?_, ?_⟩
  · unfold Loads
    rw [List.map_append, map_node_plain]
    exact hlast.symm
  · obtain ⟨hknown', heq⟩ := (nodesOf_within hT hlast).1.reportedEdge_eq math t hknown
    have hnodes : enter (R.foldl enter GoMap.empty) t = nodesOf (R ++ [t]) := by
      unfold nodesOf
      rw [List.foldl_append]
      rfl
    rw [loadWrites_append, map_node_plain, loadWrites, loadWrites, hlinks, hnodes,
      written_concat hknown', List.append_nil, ← List.append_assoc, heq]
    exact ⟨_, rfl⟩

/-- A link to another node can be written first after this node was loaded. -/
theorem exists_writes_second (math : Math) (hT : (T.map (·.publicIP)).Nodup) (ht : t ∈ T)
    (hu : u ∈ T) (hv : v ∈ t.links) (hip : u.publicIP = v.target.ip)
    (hne : v.target.ip ≠ t.publicIP) :
    ∃ l, Loads T l ∧ ∃ front back,
      loadWrites math GoMap.empty l = front ++ reportedEdge math (nodesOf T) t v :: back ∧
        ∀ f ∈ front, ∃ w ∈ u.links, Always u w ∧ f = reportedEdge math (nodesOf T) u w := by
  obtain ⟨R, hR⟩ := exists_rest ht
  have huR : u ∈ R := by
    rcases List.mem_cons.mp (hR.mem_iff.mp hu) with rfl | huR
    · exact absurd hip.symm hne
    · exact huR
  obtain ⟨S, hS⟩ := exists_rest huR
  have hperm : T.Perm (u :: t :: S) := hR.trans ((hS.cons t).trans (List.Perm.swap u t S))
  obtain ⟨order, rest, hlinks⟩ := exists_first hv
  have hone := (within_empty (nodesOf T)).enter ((nodesOf_val hT).mpr ⟨hu, rfl⟩)
  have htwo := hone.enter ((nodesOf_val hT).mpr ⟨ht, rfl⟩)
  have hknown : Known (enter (enter GoMap.empty u) t) v := by
    refine Or.inr ?_
    unfold enter
    rw [GoMap.set_val_of_ne _ _ hne, ← hip, GoMap.set_val_same]
    rfl
  refine ⟨plain u :: ⟨t, order⟩ :: S.map plain, ?_,
    written math (enter GoMap.empty u) u (plain u).links, ?_⟩
  · unfold Loads
    rw [List.map_cons, List.map_cons, map_node_plain]
    exact hperm.symm
  · have hsecond : written math (enter (enter GoMap.empty u) t) t (v :: rest) =
        reportedEdge math (nodesOf T) t v ::
          written math (enter (enter GoMap.empty u) t) t rest := by
      rw [written_cons hknown, (htwo.reportedEdge_eq math t hknown).2]
    rw [loadWrites, loadWrites, hlinks]
    refine ⟨_, congrArg _ (congrArg (· ++ _) hsecond), ?_⟩
    intro f hf
    obtain ⟨w, hw, hsmall, -, heq⟩ := mem_written_within hone hf
    refine ⟨w, mem_links.mp hw, ?_, heq⟩
    rcases hsmall with hsource | hnode
    · exact Or.inl hsource
    · refine Or.inr ?_
      by_contra hother
      unfold enter at hnode
      rw [GoMap.set_val_of_ne _ _ hother] at hnode
      simp [GoMap.empty, Option.default_eq_none] at hnode

/-- The first edge written for a key is stored, up to its weight. -/
theorem loadAll_val_first {l : List Load} {e : Edge} {front back : List Edge}
    (h : loadWrites math GoMap.empty l = front ++ e :: back)
    (hfront : ∀ f ∈ front, line f ≠ line e) :
    ∃ w, (loadAll math l).edges.val (line e) = some { e with edgeWeight := w } := by
  have hnone : front.filter (fun f => line f = line e) = [] := by
    rw [List.filter_eq_nil_iff]
    intro f hf
    simpa using hfront f hf
  rw [loadAll_val, h, List.filter_append, hnone, List.nil_append,
    List.filter_cons_of_pos (by simp), combined_renew_cons, combined_renew_some]
  exact ⟨_, rfl⟩

/-- The last edge written for a key gives the weight. -/
theorem loadAll_val_last {l : List Load} {e : Edge} {front : List Edge}
    (h : loadWrites math GoMap.empty l = front ++ [e]) :
    ∃ f, (loadAll math l).edges.val (line e) = some f ∧ f.edgeWeight = e.edgeWeight := by
  rw [loadAll_val, h, List.filter_append, List.filter_cons_of_pos (by simp), List.filter_nil]
  unfold combined
  rw [List.foldl_append]
  refine ⟨_, rfl, ?_⟩
  cases (front.filter fun f => line f = line e).foldl (fun o i => some (renew o i)) none <;> rfl

end Writers

section OrderFree
variable {math : Math} {T : List NodeTelemetry} {t : NodeTelemetry} {v : LinkCongestion}

/-- If the order does not matter, a link that can be the first and the last to be written
for its key is the edge that is stored. -/
theorem OrderFree.stored_of_first (hT : (T.map (·.publicIP)).Nodup) (h : OrderFree math T)
    (ht : t ∈ T) (hv : v ∈ liveLinks (nodesOf T) t) {l : List Load} (hl : Loads T l)
    {front back : List Edge}
    (hwrites : loadWrites math GoMap.empty l = front ++ reportedEdge math (nodesOf T) t v :: back)
    (hfront : ∀ f ∈ front, line f ≠ line (reportedEdge math (nodesOf T) t v))
    {l' : List Load} (hl' : Loads T l') :
    (loadAll math l').edges.val (line (reportedEdge math (nodesOf T) t v)) =
      some (reportedEdge math (nodesOf T) t v) := by
  obtain ⟨w, hfirst⟩ := loadAll_val_first hwrites hfront
  obtain ⟨m, hm, last, hlast⟩ := exists_writes_last math hT ht hv
  obtain ⟨f, hf, hweight⟩ := loadAll_val_last hlast
  rw [((h m hm).1 l hl).2, hfirst, Option.some.injEq] at hf
  subst hf
  simp only at hweight
  subst hweight
  rw [((h l' hl').1 l hl).2]
  exact hfirst

theorem Always.live (hT : (T.map (·.publicIP)).Nodup) (h : Always t v) (ht : t ∈ T)
    (hv : v ∈ t.links) : v ∈ liveLinks (nodesOf T) t := by
  refine List.mem_filter.mpr ⟨hv, decide_eq_true ?_⟩
  rcases h with hsource | hself
  · exact Or.inl hsource
  · exact Or.inr (by rw [hself, (nodesOf_val hT).mpr ⟨ht, rfl⟩]; rfl)

theorem OrderFree.stored_of_always (hT : (T.map (·.publicIP)).Nodup) (h : OrderFree math T)
    (ht : t ∈ T) (hv : v ∈ t.links) (halways : Always t v) {l : List Load} (hl : Loads T l) :
    (loadAll math l).edges.val (line (reportedEdge math (nodesOf T) t v)) =
      some (reportedEdge math (nodesOf T) t v) := by
  obtain ⟨m, hm, back, hwrites⟩ := exists_writes_first math hT ht hv halways
  have hfront : ∀ f ∈ ([] : List Edge), line f ≠ line (reportedEdge math (nodesOf T) t v) := by
    simp
  exact h.stored_of_first hT ht (halways.live hT ht hv) hm (hwrites.trans rfl) hfront hl

/-- The edge for a link to a node that is loaded later can only stem from an origin. -/
theorem OrderFree.origins (hT : (T.map (·.publicIP)).Nodup) (h : OrderFree math T) (ht : t ∈ T)
    (hv : v ∈ t.links) (htype : v.target.targetType = .node)
    (hu : ∃ u ∈ T, u.publicIP = v.target.ip) : v.target.ip = t.publicIP ∨
      ∃ w ∈ t.links, w.target.targetType = .source ∧ originName w.target = v.target.ip := by
  obtain ⟨R, hR⟩ := exists_rest ht
  have hl : Loads T (plain t :: R.map plain) := by
    unfold Loads
    rw [List.map_cons, map_node_plain]
    exact hR.symm
  have hmap := ((hR.map (·.publicIP)).nodup_iff).mp hT
  rw [List.map_cons, List.nodup_cons] at hmap
  obtain ⟨e, ⟨k, he⟩, hsource, hdest⟩ := (h _ hl).2 t ht v hv htype hu
  rw [loadAll_val] at he
  obtain ⟨first, w, rfl, hnone | ⟨-, hhead⟩⟩ := combined_renew_eq_some he
  · simp at hnone
  · have hmem := (List.mem_filter.mp (List.mem_of_mem_head? hhead)).1
    rw [loadWrites, List.mem_append] at hmem
    rcases hmem with hown | hother
    · obtain ⟨x, hx, rfl⟩ := List.mem_map.mp hown
      obtain ⟨hlink, hknown⟩ := List.mem_filter.mp hx
      have hknown : Known (enter GoMap.empty t) x := of_decide_eq_true hknown
      have hend : destination x = v.target.ip := hdest
      cases hxtype : x.target.targetType with
      | source =>
        refine Or.inr ⟨x, mem_links.mp hlink, hxtype, ?_⟩
        simpa [destination, hxtype] using hend
      | node =>
        have hip : x.target.ip = v.target.ip := by simpa [destination, hxtype] using hend
        have hsome := hknown.resolve_left (by simp [hxtype])
        by_contra hno
        rw [not_or] at hno
        unfold enter at hsome
        rw [hip, GoMap.set_val_of_ne _ _ hno.1] at hsome
        simp [GoMap.empty, Option.default_eq_none] at hsome
    · -- an edge of another node does not start at this one
      have hfull : ∀ y ∈ R.map plain, (nodesOf T).val y.node.publicIP = some y.node :=
        fun y hy => hl.full_val hT y (List.mem_cons_of_mem _ hy)
      have hone := (within_empty (nodesOf T)).enter ((nodesOf_val hT).mpr ⟨ht, rfl⟩)
      obtain ⟨y, hy, x, -, rfl⟩ := mem_loadWrites hone hfull hother
      obtain ⟨u, hu, rfl⟩ := List.mem_map.mp hy
      exact absurd (List.mem_map.mpr ⟨u, hu, hsource⟩) hmap.1

theorem OrderFree.stored (hT : (T.map (·.publicIP)).Nodup) (h : OrderFree math T) (ht : t ∈ T)
    (hv : v ∈ liveLinks (nodesOf T) t) {l : List Load} (hl : Loads T l) :
    (loadAll math l).edges.val (line (reportedEdge math (nodesOf T) t v)) =
      some (reportedEdge math (nodesOf T) t v) := by
  obtain ⟨hmem, hknown⟩ := List.mem_filter.mp hv
  by_cases halways : Always t v
  · exact h.stored_of_always hT ht hmem halways hl
  · unfold Always at halways
    rw [not_or] at halways
    obtain ⟨u, hu⟩ := Option.isSome_iff_exists.mp
      ((of_decide_eq_true hknown).resolve_left halways.1)
    obtain ⟨huT, hip⟩ := (nodesOf_val hT).mp hu
    have htype : v.target.targetType = .node := by
      cases hcase : v.target.targetType with
      | source => exact absurd hcase halways.1
      | node => rfl
    obtain ⟨m, hm, front, back, hwrites, hfront⟩ :=
      exists_writes_second math hT ht huT hmem hip halways.2
    refine h.stored_of_first hT ht hv hm hwrites ?_ hl
    intro f hf hline
    -- the edge under the key would start at both nodes
    obtain ⟨w, hw, hwalways, rfl⟩ := hfront f hf
    obtain ⟨x, hx, hsource, hname⟩ :=
      (h.origins hT ht hmem htype ⟨u, huT, hip⟩).resolve_left halways.2
    have hend : destination x = destination v := by
      simp [destination, hsource, htype, hname]
    have hother := h.stored_of_always hT huT hw hwalways hl
    have hown := h.stored_of_always hT ht hx (Or.inl hsource) hl
    rw [line_reportedEdge math (nodesOf T), hend, ← line_reportedEdge math (nodesOf T), ← hline,
      hother, Option.some.injEq] at hown
    exact halways.2 (hip.symm.trans (congrArg (·.sourceIp) hown))

theorem settled_of_orderFree (hT : (T.map (·.publicIP)).Nodup) (h : OrderFree math T) :
    Settled math T := by
  refine ⟨fun t ht v hv htype hu => h.origins hT ht hv htype hu, ?_⟩
  intro t ht v hv t' ht' v' hv' hline
  have hl : Loads T (T.map plain) := by
    unfold Loads
    rw [map_node_plain]
  have hstored := h.stored hT ht hv hl
  rw [hline, h.stored hT ht' hv' hl, Option.some.injEq] at hstored
  exact hstored.symm

end OrderFree

/-- The order of loading does not matter, and no link between loaded nodes is lost, if and
only if the snapshot is settled. -/
theorem orderFree_iff (math : Math) {T : List NodeTelemetry} (hT : (T.map (·.publicIP)).Nodup) :
    OrderFree math T ↔ Settled math T :=
  ⟨settled_of_orderFree hT, orderFree_of_settled hT⟩

/-- Two nodes that have probed the same origin. -/
def twoReports : List NodeTelemetry :=
  [oneLink "10.0.0.1" (task .source "10.0.0.9" 80) 150,
    oneLink "10.0.0.2" (task .source "10.0.0.9" 80) 600]

theorem twoReports_orderFree : OrderFree sampleMath twoReports :=
  (orderFree_iff sampleMath (by decide +kernel)).mpr ⟨by decide +kernel, by decide +kernel⟩

/-- A node that has probed another one. -/
def nodeLink : List NodeTelemetry :=
  [oneLink "10.0.0.1" (task .node "10.0.0.2" 7083) 150,
    oneLink "10.0.0.2" (task .source "10.0.0.9" 80) 600]

/-- The link is an edge only if the second node is loaded first. -/
theorem nodeLink_not_orderFree : ¬ OrderFree sampleMath nodeLink := by
  intro h
  have horigins := (settled_of_orderFree (by decide +kernel) h).origins
    (oneLink "10.0.0.1" (task .node "10.0.0.2" 7083) 150) List.mem_cons_self
    ⟨"10.0.0.2", task .node "10.0.0.2" 7083, 0, 150⟩ (by decide +kernel) rfl
    ⟨_, List.mem_cons_of_mem _ List.mem_cons_self, rfl⟩
  exact absurd horigins (by decide +kernel)

end Arcturus.SnapshotLoading
