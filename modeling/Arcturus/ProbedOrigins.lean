import Arcturus.Addresses
import Arcturus.Probing
import Arcturus.ReportedEdges

/-!
The edges to the origins after a round of probes. The results of a round are kept under
the address of the target alone, and an edge that exists already keeps its latency. So
every origin gets an edge with its own latency if and only if it shares its address with
no other task and its name with no node, and has no edge yet.
-/

namespace Arcturus.ProbedOrigins

open GoMaps Upserts EdgeLists NodeGraph ReportedEdges Probing

section Property
variable (math : Math) (node : NodeConfig) (usage : ℚ) (g : GraphManager)

/-- Every origin of the round has an edge with the latency that was measured for it. -/
def Yields (round : List Probe) (g' : GraphManager) : Prop :=
  ∀ p ∈ round, p.target.targetType = .source →
    ∃ e, g'.edges.val (edgeKey node.publicIP (originName p.target)) = some e ∧
      e.sourceIp = node.publicIP ∧ e.destinationIp = originName p.target ∧
      e.latency = milliseconds p.result.avgRTT

/-- The same for every round on these tasks, in every order in which the workers finish
them, with any outcomes of this many attempts, and for all orders of the loops. -/
def EveryRoundYields (earlier : List (List Probe)) (attempts : ℕ) (tasks : List ProbeTask) : Prop :=
  ∀ round : List Probe, (round.map Probe.target).Perm tasks →
    (∀ p ∈ round, p.attempts.length = attempts) →
    ∀ (order : (resultsAfter (earlier ++ [round])).Range)
      (links : (report node usage _ order).linksCongestion.Range),
      Yields node round (g.addNode math (report node usage _ order) links)

/-- A task whose result may be kept after a round on these tasks. -/
def MayBeKept (earlier : List (List Probe)) (tasks : List ProbeTask) (u : ProbeTask) : Prop :=
  u ∈ tasks ∨ (∀ t ∈ tasks, t.ip ≠ u.ip) ∧ u.ip ∈ (resultsAfter earlier).keys ∧
    ((resultsAfter earlier).val u.ip).target = u

/-- An origin shares its address with no other task and its name with no node of the
graph that is probed, and it has no edge yet. -/
structure Unshared (earlier : List (List Probe)) (tasks : List ProbeTask) : Prop where
  alone : ∀ t ∈ tasks, t.targetType = .source → (tasks.filter fun u => u.ip = t.ip) = [t]
  fresh : ∀ t ∈ tasks, t.targetType = .source →
    g.edges.val (edgeKey node.publicIP (originName t)) = none
  nameless : ∀ t ∈ tasks, t.targetType = .source → ∀ u, MayBeKept earlier tasks u →
    u.targetType = .node → u.ip = originName t → u.ip ≠ node.publicIP ∧ g.nodes.val u.ip = none

end Property

section Names

theorem colon_notMem_toString (n : ℤ) : ':' ∉ (toString n).toList := by
  have hdigits : ∀ m : ℕ, ':' ∉ (toString m).toList := by
    intro m hmem
    have hdigit := Addresses.isDigit_toString hmem
    simp at hdigit
  cases n with
  | ofNat m => exact hdigits m
  | negSucc m =>
    have htext : toString (Int.negSucc m) = "-" ++ toString (m + 1) := rfl
    rw [htext, String.toList_append, List.mem_append]
    rintro (hmem | hmem)
    · simp at hmem
    · exact hdigits _ hmem

theorem toList_originName (t : ProbeTask) :
    (originName t).toList = t.ip.toList ++ ':' :: (toString t.port).toList := by
  unfold originName
  simp

/-- Read from its end, a name goes on with the address after the first colon. -/
theorem dropWhile_reverse_originName (t : ProbeTask) :
    (originName t).toList.reverse.dropWhile (· ≠ ':') = ':' :: t.ip.toList.reverse := by
  rw [toList_originName, List.reverse_append, List.reverse_cons, List.append_assoc,
    List.dropWhile_append_of_pos]
  · rfl
  · intro c hc
    rw [decide_eq_true_eq]
    rintro rfl
    exact colon_notMem_toString t.port (List.mem_reverse.mp hc)

/-- The name of an origin determines its address. -/
theorem ip_of_originName {t u : ProbeTask} (h : originName t = originName u) : t.ip = u.ip := by
  have hdrop := dropWhile_reverse_originName t
  rw [h, dropWhile_reverse_originName u, List.cons_inj_right] at hdrop
  exact String.toList_inj.mp (List.reverse_injective hdrop.symm)

theorem ip_ne_originName (t : ProbeTask) : t.ip ≠ originName t := by
  intro h
  have hlist := congrArg (fun s => s.toList.length) h
  simp only [toList_originName, List.length_append, List.length_cons] at hlist
  omega

end Names

section Writes
variable {math : Math} {g : GraphManager} {t : NodeTelemetry} {links : t.linksCongestion.Range}

/-- The edges that a report writes under a key, in their order. -/
def writtenUnder (math : Math) (g : GraphManager) (t : NodeTelemetry)
    (links : t.linksCongestion.Range) (k : String) : List Edge :=
  (written math (withReport g t) t (links.keys.map t.linksCongestion.val)).filter fun e =>
    line e = k

theorem addNode_edges_val (k : String) :
    (g.addNode math t links).edges.val k =
      combined renew (writtenUnder math g t links k) (g.edges.val k) := by
  rw [addNode_edges, foldl_upsert_val]
  rfl

theorem mem_writtenUnder {k : String} {e : Edge} : e ∈ writtenUnder math g t links k ↔
    ∃ v ∈ liveLinks (withReport g t) t, reportedEdge math (withReport g t) t v = e ∧
      edgeKey t.publicIP (destination v) = k := by
  unfold writtenUnder
  rw [List.mem_filter, mem_written_iff, decide_eq_true_eq]
  constructor
  · rintro ⟨⟨v, hv, rfl⟩, hline⟩
    exact ⟨v, hv, rfl, hline⟩
  · rintro ⟨v, hv, rfl, hline⟩
    exact ⟨⟨v, hv, rfl⟩, hline⟩

/-- If the first link of the loop is one for a key, its edge is the first one there. -/
theorem head?_writtenUnder (math : Math) (links : t.linksCongestion.Range) {k a : String}
    {rest : List String} (hkeys : links.keys = a :: rest)
    (hknown : Known (withReport g t) (t.linksCongestion.val a))
    (hend : edgeKey t.publicIP (destination (t.linksCongestion.val a)) = k) :
    (writtenUnder math g t links k).head? =
      some (reportedEdge math (withReport g t) t (t.linksCongestion.val a)) := by
  have hline : line (reportedEdge math (withReport g t) t (t.linksCongestion.val a)) = k := hend
  unfold writtenUnder written
  rw [hkeys, List.map_cons, List.filter_cons_of_pos (by simpa using hknown), List.map_cons,
    List.filter_cons_of_pos (by simpa using hline), List.head?_cons]

end Writes

section Kept
variable {earlier : List (List Probe)} {round : List Probe} {tasks : List ProbeTask}

/-- A result that is kept is that of a task of the round or of an earlier one. -/
theorem mayBeKept (htasks : (round.map Probe.target).Perm tasks) {k : String}
    (hk : k ∈ (resultsAfter (earlier ++ [round])).keys) :
    MayBeKept earlier tasks ((resultsAfter (earlier ++ [round])).val k).target := by
  have haddress := (kept_resultsAfter (earlier ++ [round])).address k hk
  cases hlast : (round.filter fun p => p.target.ip = k).getLast? with
  | some p =>
    have hval : (resultsAfter (earlier ++ [round])).val k = p.result := by
      rw [resultsAfter_concat, doProbeLossRTT_val, hlast]
      rfl
    rw [hval]
    have hp := (List.mem_filter.mp (List.mem_of_getLast? hlast)).1
    exact Or.inl (htasks.mem_iff.mp (List.mem_map_of_mem hp))
  | none =>
    have hval : (resultsAfter (earlier ++ [round])).val k = (resultsAfter earlier).val k := by
      rw [resultsAfter_concat, doProbeLossRTT_val, hlast]
      rfl
    rw [List.getLast?_eq_none_iff, List.filter_eq_nil_iff] at hlast
    have hnone : ∀ p ∈ round, p.target.ip ≠ k := fun p hp => by simpa using hlast p hp
    rw [hval] at haddress ⊢
    refine Or.inr ⟨?_, ?_, ?_⟩
    · intro t ht
      obtain ⟨p, hp, rfl⟩ := List.mem_map.mp (htasks.mem_iff.mpr ht)
      rw [haddress]
      exact hnone p hp
    · rw [resultsAfter_concat, mem_doProbeLossRTT_keys] at hk
      rw [haddress]
      exact hk.resolve_right fun ⟨p, hp, hpk⟩ => hnone p hp hpk
    · rw [haddress]

/-- A task that is alone with its address leaves its result. -/
theorem val_of_alone (htasks : (round.map Probe.target).Perm tasks) {p : Probe} (hp : p ∈ round)
    (halone : (tasks.filter fun u => u.ip = p.target.ip) = [p.target]) :
    (resultsAfter (earlier ++ [round])).val p.target.ip = p.result := by
  have hlength : (round.filter fun q => q.target.ip = p.target.ip).length = 1 := by
    have hperm := (htasks.filter fun u => decide (u.ip = p.target.ip)).length_eq
    rw [halone, List.filter_map, List.length_map] at hperm
    exact hperm
  obtain ⟨q, hq⟩ := List.length_eq_one_iff.mp hlength
  have hpq : p ∈ round.filter fun q => q.target.ip = p.target.ip :=
    List.mem_filter.mpr ⟨hp, by simp⟩
  rw [hq, List.mem_singleton] at hpq
  subst hpq
  rw [resultsAfter_concat, doProbeLossRTT_val, hq]
  rfl

end Kept

section Links
variable {results : Results} {order : results.Range} {node : NodeConfig} {usage : ℚ}

theorem mem_report_links (h : Kept results) {v : LinkCongestion} :
    v ∈ (report node usage results order).links ↔
      ∃ k ∈ results.keys, linkOf k (results.val k) = v := by
  unfold NodeTelemetry.links
  rw [List.mem_map]
  constructor
  · rintro ⟨k, hk, rfl⟩
    rw [mem_report_keys] at hk
    exact ⟨k, hk, (report_val h hk).symm⟩
  · rintro ⟨k, hk, rfl⟩
    exact ⟨k, mem_report_keys.mpr hk, report_val h hk⟩

/-- A target is known if it is an origin, the node itself or a node of the graph. -/
theorem known_iff {g : GraphManager} {v : LinkCongestion} :
    Known (withReport g (report node usage results order)) v ↔ v.target.targetType = .source ∨
      v.target.ip = node.publicIP ∨ (g.nodes.val v.target.ip).isSome := by
  have hname : (report node usage results order).publicIP = node.publicIP := rfl
  unfold Known withReport
  rw [hname]
  by_cases hself : v.target.ip = node.publicIP
  · rw [hself, GoMap.set_val_same]
    simp
  · rw [GoMap.set_val_of_ne _ _ hself]
    simp [hself]

end Links

section Round
variable {math : Math} {node : NodeConfig} {usage : ℚ} {g : GraphManager}
  {earlier : List (List Probe)} {round : List Probe} {tasks : List ProbeTask}

/-- A link to the name of an origin is the link of this origin. -/
theorem link_of_destination (hunshared : Unshared node g earlier tasks)
    (htasks : (round.map Probe.target).Perm tasks)
    {order : (resultsAfter (earlier ++ [round])).Range} {p : Probe} (hp : p ∈ round)
    (hsource : p.target.targetType = .source) {v : LinkCongestion}
    (hv : v ∈ (report node usage _ order).links)
    (hknown : Known (withReport g (report node usage _ order)) v)
    (hend : destination v = originName p.target) : v = linkOf p.target.ip p.result := by
  have hkept := kept_resultsAfter (earlier ++ [round])
  have ht : p.target ∈ tasks := htasks.mem_iff.mp (List.mem_map_of_mem hp)
  obtain ⟨k, hk, rfl⟩ := (mem_report_links hkept).mp hv
  have haddress := hkept.address k hk
  unfold destination at hend
  split at hend
  · have hkp : k = p.target.ip := haddress.symm.trans (ip_of_originName hend)
    rw [hkp, val_of_alone htasks hp (hunshared.alone _ ht hsource)]
  · rename_i htype
    -- a node of this name would have to be in the graph
    obtain ⟨hself, hnone⟩ := hunshared.nameless _ ht hsource _ (mayBeKept htasks hk) htype hend
    rcases known_iff.mp hknown with hother | hname | hsome
    · rw [htype] at hother
      simp at hother
    · exact absurd hname hself
    · rw [show g.nodes.val (linkOf k _).target.ip = none from hnone] at hsome
      simp at hsome

theorem yields_of_unshared (hunshared : Unshared node g earlier tasks) (attempts : ℕ) :
    EveryRoundYields math node usage g earlier attempts tasks := by
  intro round htasks _ order links p hp hsource
  have hkept := kept_resultsAfter (earlier ++ [round])
  have ht : p.target ∈ tasks := htasks.mem_iff.mp (List.mem_map_of_mem hp)
  have hkey : p.target.ip ∈ (resultsAfter (earlier ++ [round])).keys := by
    rw [resultsAfter_concat, mem_doProbeLossRTT_keys]
    exact Or.inr ⟨p, hp, rfl⟩
  -- the link of the origin is written under its key
  have hlink : linkOf p.target.ip p.result ∈ (report node usage _ order).links :=
    (mem_report_links hkept).mpr ⟨_, hkey, by
      rw [val_of_alone htasks hp (hunshared.alone _ ht hsource)]⟩
  have hdest : destination (linkOf p.target.ip p.result) = originName p.target := by
    unfold destination linkOf
    simp only
    rw [show p.result.target = p.target from rfl, hsource]
  have hwritten : reportedEdge math (withReport g (report node usage _ order))
      (report node usage _ order) (linkOf p.target.ip p.result) ∈ writtenUnder math g
        (report node usage _ order) links (edgeKey node.publicIP (originName p.target)) := by
    refine mem_writtenUnder.mpr ⟨_, List.mem_filter.mpr ⟨hlink, ?_⟩, rfl, ?_⟩
    · rw [decide_eq_true_eq]
      exact Or.inl hsource
    · rw [hdest]
      rfl
  have hsome : (combined renew (writtenUnder math g (report node usage _ order) links
      (edgeKey node.publicIP (originName p.target))) none).isSome :=
    combined_isSome.mpr (Or.inl (List.ne_nil_of_mem hwritten))
  obtain ⟨e, he⟩ := Option.isSome_iff_exists.mp hsome
  refine ⟨e, ?_, ?_⟩
  · rw [addNode_edges_val, hunshared.fresh _ ht hsource]
    exact he
  -- and it is the only one there
  obtain ⟨first, w, rfl, hold | ⟨-, hfirst⟩⟩ := combined_renew_eq_some he
  · simp at hold
  · obtain ⟨v, hv, rfl, hline⟩ := mem_writtenUnder.mp (List.mem_of_mem_head? hfirst)
    obtain ⟨hvlink, hknown⟩ := List.mem_filter.mp hv
    have hend := edgeKey_inj.mp hline
    have heq := link_of_destination hunshared htasks hp hsource hvlink (by simpa using hknown) hend
    refine ⟨rfl, hend, ?_⟩
    rw [heq]
    rfl

end Round

end Arcturus.ProbedOrigins
