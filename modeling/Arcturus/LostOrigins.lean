import Arcturus.ProbedOrigins

/-!
Rounds that lose the edge of an origin. For each way in which two targets can meet under
one key there is an order of finishing, with outcomes of the dials, that leaves an origin
without its edge or with the latency of another target.
-/

namespace Arcturus.ProbedOrigins

open GoMaps Upserts EdgeLists NodeGraph ReportedEdges Probing

section Outcomes

/-- Attempts without an answer. -/
def silent (attempts : ℕ) : List Attempt := List.replicate attempts ⟨.timedOut, 0⟩

/-- Attempts of which the first is answered after a millisecond. -/
def answering (attempts : ℕ) : List Attempt := ⟨.connected, 1000000⟩ :: silent (attempts - 1)

theorem answered_silent (attempts : ℕ) : answered (silent attempts) = [] := by
  unfold answered silent
  rw [List.filter_eq_nil_iff]
  intro a ha
  simp [List.eq_of_mem_replicate ha]

theorem latency_silent (t : ProbeTask) (attempts : ℕ) :
    milliseconds (Probe.mk t (silent attempts)).result.avgRTT = 0 := by
  have havg : (Probe.mk t (silent attempts)).result.avgRTT = 1 :=
    Probe.avgRTT_of_no_answer (answered_silent attempts)
  rw [havg]
  rfl

theorem latency_answering (t : ProbeTask) (attempts : ℕ) :
    milliseconds (Probe.mk t (answering attempts)).result.avgRTT = 1 := by
  obtain ⟨hsuccesses, htotal⟩ := (Probe.mk t (answering attempts)).tally_eq
  have hone : answered (answering attempts) = [⟨.connected, 1000000⟩] := by
    have hcons : answered (answering attempts) =
      ⟨.connected, 1000000⟩ :: answered (silent (attempts - 1)) := List.filter_cons_of_pos (by simp)
    rw [hcons, answered_silent]
  have havg : (Probe.mk t (answering attempts)).result.avgRTT = 1000000 := by
    show Tally.avgRTT _ = _
    unfold Tally.avgRTT
    rw [hsuccesses, htotal]
    simp only [totalRTT, hone]
    decide
  rw [havg]
  rfl

theorem length_answering {attempts : ℕ} (h : 1 ≤ attempts) :
    (answering attempts).length = attempts := by
  simp only [answering, silent, List.length_cons, List.length_replicate]
  omega

/-- The other tasks are not answered. -/
def unanswered (attempts : ℕ) (tasks : List ProbeTask) : List Probe :=
  tasks.map fun t => ⟨t, silent attempts⟩

theorem map_target_unanswered (attempts : ℕ) (tasks : List ProbeTask) :
    (unanswered attempts tasks).map Probe.target = tasks := by
  unfold unanswered
  rw [List.map_map]
  exact List.map_id _

theorem length_of_mem_unanswered {attempts : ℕ} {tasks : List ProbeTask} {p : Probe}
    (hp : p ∈ unanswered attempts tasks) : p.attempts.length = attempts := by
  obtain ⟨t, -, rfl⟩ := List.mem_map.mp hp
  exact List.length_replicate

end Outcomes

section Necessity
variable {math : Math} {node : NodeConfig} {usage : ℚ} {g : GraphManager}
  {earlier : List (List Probe)} {attempts : ℕ} {tasks : List ProbeTask} {t : ProbeTask}

/-- What is measured for an origin is not the same in every round. -/
theorem latency_varies (hattempts : 1 ≤ attempts) {L : ℚ}
    (h : ∀ outcomes : List Attempt, outcomes.length = attempts →
      L = milliseconds (Probe.mk t outcomes).result.avgRTT) : False := by
  have hzero := h (silent attempts) List.length_replicate
  have hone := h (answering attempts) (length_answering hattempts)
  rw [latency_silent] at hzero
  rw [latency_answering] at hone
  rw [hzero] at hone
  simp at hone

/-- The round in which another task is finished right after an origin, and no other task is
answered. -/
def overtaken (attempts : ℕ) (tasks : List ProbeTask) (t u : ProbeTask)
    (outcomes : List Attempt) : List Probe :=
  unanswered attempts ((tasks.erase t).erase u) ++ [⟨t, outcomes⟩, ⟨u, silent attempts⟩]

theorem perm_overtaken {u : ProbeTask} (ht : t ∈ tasks) (hu : u ∈ tasks.erase t)
    (outcomes : List Attempt) :
    ((overtaken attempts tasks t u outcomes).map Probe.target).Perm tasks := by
  unfold overtaken
  rw [List.map_append, map_target_unanswered]
  refine List.perm_append_comm.trans ?_
  exact ((List.perm_cons_erase hu).symm.cons t).trans (List.perm_cons_erase ht).symm

theorem length_of_mem_overtaken {u : ProbeTask} {outcomes : List Attempt}
    (hout : outcomes.length = attempts) {p : Probe}
    (hp : p ∈ overtaken attempts tasks t u outcomes) : p.attempts.length = attempts := by
  rcases List.mem_append.mp hp with hp | hp
  · exact length_of_mem_unanswered hp
  · rcases List.mem_pair.mp hp with rfl | rfl
    · exact hout
    · exact List.length_replicate

/-- The result of the origin is gone if the other task has its address. -/
theorem resultsAfter_overtaken {u : ProbeTask} (hip : u.ip = t.ip) (outcomes : List Attempt) :
    resultsAfter (earlier ++ [overtaken attempts tasks t u outcomes]) =
      resultsAfter (earlier ++ [overtaken attempts tasks t u []]) := by
  simp only [resultsAfter_concat, doProbeLossRTT_eq, overtaken, List.foldl_append, List.foldl_cons,
    List.foldl_nil, hip, GoMap.set_set]

theorem exists_same_ip (ht : t ∈ tasks) (h : (tasks.filter fun u => u.ip = t.ip) ≠ [t]) :
    ∃ u ∈ tasks.erase t, u.ip = t.ip := by
  by_contra hnone
  have hempty : ((tasks.erase t).filter fun u => u.ip = t.ip) = [] := by
    rw [List.filter_eq_nil_iff]
    intro u hu
    rw [decide_eq_true_eq]
    exact fun hip => hnone ⟨u, hu, hip⟩
  have hperm := (List.perm_cons_erase ht).filter fun u => decide (u.ip = t.ip)
  rw [List.filter_cons_of_pos (by simp), hempty] at hperm
  exact h (List.perm_singleton.mp hperm)

/-- The graph after a report of these results, with the loops in the order of insertion. -/
def graphAfter (math : Math) (node : NodeConfig) (usage : ℚ) (g : GraphManager)
    (results : Results) : GraphManager :=
  g.addNode math (report node usage results results.range) (GoMap.range _)

theorem alone_of_yields (hattempts : 1 ≤ attempts)
    (h : EveryRoundYields math node usage g earlier attempts tasks) (ht : t ∈ tasks)
    (hsource : t.targetType = .source) : (tasks.filter fun u => u.ip = t.ip) = [t] := by
  by_contra hshared
  obtain ⟨u, hu, hip⟩ := exists_same_ip ht hshared
  -- the graph is the same whatever the origin has answered
  have hedge : ∀ outcomes : List Attempt, outcomes.length = attempts →
      ∃ e, (graphAfter math node usage g
        (resultsAfter (earlier ++ [overtaken attempts tasks t u []]))).edges.val
          (edgeKey node.publicIP (originName t)) = some e ∧
        e.latency = milliseconds (Probe.mk t outcomes).result.avgRTT := by
    intro outcomes hout
    obtain ⟨e, he, -, -, hlatency⟩ := h _ (perm_overtaken ht hu outcomes)
      (fun p hp => length_of_mem_overtaken hout hp) (GoMap.range _) (GoMap.range _)
      ⟨t, outcomes⟩ (by simp [overtaken]) hsource
    rw [← resultsAfter_overtaken hip outcomes]
    exact ⟨e, he, hlatency⟩
  obtain ⟨e, he, -⟩ := hedge (silent attempts) List.length_replicate
  refine latency_varies hattempts (t := t) (L := e.latency) ?_
  intro outcomes hout
  obtain ⟨e', he', hlatency⟩ := hedge outcomes hout
  cases Option.some.inj (he.symm.trans he')
  exact hlatency

/-- The round in which an origin is finished first and no other task is answered. -/
def firstFinished (attempts : ℕ) (tasks : List ProbeTask) (t : ProbeTask)
    (outcomes : List Attempt) : List Probe :=
  ⟨t, outcomes⟩ :: unanswered attempts (tasks.erase t)

theorem firstFinished_yields (h : EveryRoundYields math node usage g earlier attempts tasks)
    (ht : t ∈ tasks) (hsource : t.targetType = .source) {outcomes : List Attempt}
    (hout : outcomes.length = attempts)
    (order : (resultsAfter (earlier ++ [firstFinished attempts tasks t outcomes])).Range)
    (links : (report node usage _ order).linksCongestion.Range) :
    ∃ e, combined renew (writtenUnder math g (report node usage _ order) links
      (edgeKey node.publicIP (originName t)))
        (g.edges.val (edgeKey node.publicIP (originName t))) = some e ∧
      e.latency = milliseconds (Probe.mk t outcomes).result.avgRTT := by
  have htasks : ((firstFinished attempts tasks t outcomes).map Probe.target).Perm tasks := by
    unfold firstFinished
    rw [List.map_cons, map_target_unanswered]
    exact (List.perm_cons_erase ht).symm
  have hlength : ∀ p ∈ firstFinished attempts tasks t outcomes, p.attempts.length = attempts := by
    intro p hp
    rcases List.mem_cons.mp hp with rfl | hp
    · exact hout
    · exact length_of_mem_unanswered hp
  obtain ⟨e, he, -, -, hlatency⟩ := h _ htasks hlength order links ⟨t, outcomes⟩
    List.mem_cons_self hsource
  rw [addNode_edges_val] at he
  exact ⟨e, he, hlatency⟩

theorem fresh_of_yields (hattempts : 1 ≤ attempts)
    (h : EveryRoundYields math node usage g earlier attempts tasks) (ht : t ∈ tasks)
    (hsource : t.targetType = .source) :
    g.edges.val (edgeKey node.publicIP (originName t)) = none := by
  cases hold : g.edges.val (edgeKey node.publicIP (originName t)) with
  | none => rfl
  | some old =>
    refine absurd (latency_varies hattempts (t := t) (L := old.latency) ?_) id
    intro outcomes hout
    obtain ⟨e, he, hlatency⟩ :=
      firstFinished_yields h ht hsource hout (GoMap.range _) (GoMap.range _)
    rw [hold, combined_renew_some, Option.some.injEq] at he
    rw [← hlatency, ← he]

/-- What is kept under the name of an origin that is finished first. -/
def keptUnderName (earlier : List (List Probe)) (attempts : ℕ) (tasks : List ProbeTask)
    (t : ProbeTask) : Result :=
  ((unanswered attempts (tasks.erase t)).filter fun p => p.target.ip = originName t).getLast?.elim
    ((resultsAfter earlier).val (originName t)) Probe.result

/-- It does not depend on the origin's own probe. -/
theorem val_originName {outcomes : List Attempt} :
    (resultsAfter (earlier ++ [firstFinished attempts tasks t outcomes])).val (originName t) =
      keptUnderName earlier attempts tasks t := by
  unfold keptUnderName
  rw [resultsAfter_concat, doProbeLossRTT_val]
  unfold firstFinished
  rw [List.filter_cons_of_neg (by simpa using ip_ne_originName t)]

/-- If a node of the round has the name of the origin, it is a node that is kept. -/
theorem keptUnderName_of_mem (hattempts : 1 ≤ attempts)
    (h : EveryRoundYields math node usage g earlier attempts tasks) {u : ProbeTask}
    (hu : u ∈ tasks.erase t) (hnode : u.targetType = .node) (hip : u.ip = originName t) :
    (keptUnderName earlier attempts tasks t).target.targetType = .node := by
  have hmem : Probe.mk u (silent attempts) ∈ (unanswered attempts (tasks.erase t)).filter
      fun p => p.target.ip = originName t :=
    List.mem_filter.mpr ⟨List.mem_map.mpr ⟨u, hu, rfl⟩, by simpa using hip⟩
  obtain ⟨p, hp⟩ := Option.isSome_iff_exists.mp
    (List.getLast?_isSome.mpr (List.ne_nil_of_mem hmem))
  unfold keptUnderName
  rw [hp]
  obtain ⟨hpmem, hpip⟩ := List.mem_filter.mp (List.mem_of_getLast? hp)
  obtain ⟨w, hw, rfl⟩ := List.mem_map.mp hpmem
  rw [decide_eq_true_eq] at hpip
  -- an origin with this address would not be alone with it
  cases htype : w.targetType with
  | node => exact htype
  | source =>
    have halone := alone_of_yields hattempts h (List.mem_of_mem_erase hw) htype
    have humem : u ∈ tasks.filter fun v => v.ip = w.ip :=
      List.mem_filter.mpr ⟨List.mem_of_mem_erase hu, by simpa using hip.trans hpip.symm⟩
    rw [halone, List.mem_singleton] at humem
    rw [humem, htype] at hnode
    simp at hnode

/-- If no task of the round has the name, the earlier result is kept. -/
theorem keptUnderName_of_forall_ne (h : ∀ w ∈ tasks, w.ip ≠ originName t) :
    keptUnderName earlier attempts tasks t = (resultsAfter earlier).val (originName t) := by
  have hnone : (unanswered attempts (tasks.erase t)).filter
      (fun p => p.target.ip = originName t) = [] := by
    rw [List.filter_eq_nil_iff]
    intro p hp
    obtain ⟨w, hw, rfl⟩ := List.mem_map.mp hp
    rw [decide_eq_true_eq]
    exact h w (List.mem_of_mem_erase hw)
  unfold keptUnderName
  rw [hnone]
  rfl

/-- A node with the name of an origin that may be kept is kept in these rounds, and it is a
node that is kept under this name. -/
theorem node_kept (hattempts : 1 ≤ attempts)
    (h : EveryRoundYields math node usage g earlier attempts tasks)
    (hsource : t.targetType = .source) {u : ProbeTask} (hu : MayBeKept earlier tasks u)
    (hnode : u.targetType = .node) (hip : u.ip = originName t) (outcomes : List Attempt) :
    originName t ∈ (resultsAfter (earlier ++ [firstFinished attempts tasks t outcomes])).keys ∧
      (keptUnderName earlier attempts tasks t).target.targetType = .node := by
  rw [resultsAfter_concat, mem_doProbeLossRTT_keys]
  rcases hu with hu | ⟨hother, hkey, htarget⟩
  · have hut : u ≠ t := by
      rintro rfl
      rw [hnode] at hsource
      simp at hsource
    have herase : u ∈ tasks.erase t := (List.mem_erase_of_ne hut).mpr hu
    refine ⟨Or.inr ⟨⟨u, silent attempts⟩, ?_, hip⟩,
      keptUnderName_of_mem hattempts h herase hnode hip⟩
    exact List.mem_cons_of_mem _ (List.mem_map.mpr ⟨u, herase, rfl⟩)
  · rw [hip] at hother hkey htarget
    rw [keptUnderName_of_forall_ne hother, htarget]
    exact ⟨Or.inl hkey, hnode⟩

theorem nameless_of_yields (hattempts : 1 ≤ attempts)
    (h : EveryRoundYields math node usage g earlier attempts tasks) (ht : t ∈ tasks)
    (hsource : t.targetType = .source) {u : ProbeTask} (hu : MayBeKept earlier tasks u)
    (hnode : u.targetType = .node) (hip : u.ip = originName t) :
    u.ip ≠ node.publicIP ∧ g.nodes.val u.ip = none := by
  by_contra hknown
  have hthere : u.ip = node.publicIP ∨ (g.nodes.val u.ip).isSome := by
    rw [not_and_or, not_not] at hknown
    exact hknown.imp id fun hsome => Option.isSome_iff_ne_none.mpr hsome
  refine latency_varies hattempts (t := t)
    (L := milliseconds (keptUnderName earlier attempts tasks t).avgRTT) ?_
  intro outcomes hout
  obtain ⟨hkey, htype⟩ := node_kept hattempts h hsource hu hnode hip outcomes
  have hkept := kept_resultsAfter (earlier ++ [firstFinished attempts tasks t outcomes])
  have haddress := hkept.address _ hkey
  rw [val_originName] at haddress
  have order := GoMap.range (resultsAfter (earlier ++ [firstFinished attempts tasks t outcomes]))
  have hreport : (report node usage _ order).linksCongestion.val (originName t) =
      linkOf (originName t) (keptUnderName earlier attempts tasks t) := by
    rw [report_val hkept hkey, val_originName]
  have hlink : originName t ∈ (report node usage _ order).linksCongestion.keys :=
    mem_report_keys.mpr hkey
  have hknownLink : Known (withReport g (report node usage _ order))
      ((report node usage _ order).linksCongestion.val (originName t)) := by
    rw [hreport, known_iff]
    have hip' : (linkOf (originName t) (keptUnderName earlier attempts tasks t)).target.ip = u.ip :=
      haddress.trans hip.symm
    rw [hip']
    exact Or.inr hthere
  have hdest : destination ((report node usage _ order).linksCongestion.val (originName t)) =
      originName t := by
    rw [hreport]
    unfold destination linkOf
    simp only [htype]
    exact haddress
  -- the loop takes the link to the node first
  obtain ⟨e, he, hlatency⟩ := firstFinished_yields h ht hsource hout order (GoMap.rangeFrom _ hlink)
  have hhead := head?_writtenUnder math (GoMap.rangeFrom _ hlink) rfl hknownLink
    (congrArg (edgeKey node.publicIP) hdest)
  rw [fresh_of_yields hattempts h ht hsource] at he
  obtain ⟨first, w, rfl, hold | ⟨-, hfirst⟩⟩ := combined_renew_eq_some he
  · simp at hold
  · cases Option.some.inj (hhead.symm.trans hfirst)
    rw [← hlatency]
    show _ = ((report node usage _ order).linksCongestion.val (originName t)).averageLatency
    rw [hreport]
    rfl

end Necessity

/-- Every origin gets an edge with its own latency in every round on these tasks if and
only if it shares nothing and is new. -/
theorem everyRoundYields_iff (math : Math) (node : NodeConfig) (usage : ℚ) (g : GraphManager)
    (earlier : List (List Probe)) {attempts : ℕ} (hattempts : 1 ≤ attempts)
    (tasks : List ProbeTask) :
    EveryRoundYields math node usage g earlier attempts tasks ↔
      Unshared node g earlier tasks := by
  constructor
  · intro h
    refine ⟨?_, ?_, ?_⟩
    · intro t ht hsource
      exact alone_of_yields hattempts h ht hsource
    · intro t ht hsource
      exact fresh_of_yields hattempts h ht hsource
    · intro t ht hsource u hu hnode hip
      exact nameless_of_yields hattempts h ht hsource hu hnode hip
  · intro h
    exact yields_of_unshared h attempts

section Samples

/-- Two origins at one address. -/
def twoPorts : List SourceTarget :=
  [⟨"gcp", "10.0.0.9", 80, "EU", "web"⟩, ⟨"gcp", "10.0.0.9", 443, "EU", "tls"⟩]

def sampleNode : NodeConfig := ⟨"10.0.0.1", "gcp", "EU"⟩

/-- Two origins with addresses of their own, beside a node. -/
def apartTasks : List ProbeTask :=
  getProbeTasks "10.0.0.1" [⟨"10.0.0.2", "gcp", "EU", 0, GoMap.empty⟩]
    [⟨"gcp", "10.0.0.8", 80, "EU", "web"⟩, ⟨"gcp", "10.0.0.9", 443, "EU", "tls"⟩]

theorem apartTasks_yield :
    apartTasks.length = 3 ∧ EveryRoundYields sampleMath sampleNode 10 newGraphManager [] 5
      apartTasks := by
  refine ⟨rfl, (everyRoundYields_iff sampleMath sampleNode 10 newGraphManager [] (by decide)
    apartTasks).mpr ⟨by decide, fun _ _ _ => rfl, ?_⟩⟩
  intro t ht _ u _ _ hip
  have hother : ∀ t ∈ apartTasks, originName t ≠ sampleNode.publicIP := by decide
  exact ⟨hip ▸ hother t ht, rfl⟩

/-- Both origins answer, the second one last. -/
def bothAnswer : List Probe :=
  (getProbeTasks "10.0.0.1" [] twoPorts).map fun t => ⟨t, answering 1⟩

/-- The graph after this round. -/
def afterBothAnswer : GraphManager :=
  newGraphManager.addNode sampleMath
    (report sampleNode 10 (resultsAfter ([] ++ [bothAnswer])) (GoMap.range _)) (GoMap.range _)

/-- The first origin has no edge. -/
theorem shared_address_without_edge :
    (bothAnswer.map Probe.target).Perm (getProbeTasks "10.0.0.1" [] twoPorts) ∧
      (∀ p ∈ bothAnswer, p.attempts.length = 1) ∧
      afterBothAnswer.edges.val (edgeKey "10.0.0.1" "10.0.0.9:80") = none ∧
      ¬ Yields sampleNode bothAnswer afterBothAnswer := by
  have hnone : afterBothAnswer.edges.val (edgeKey "10.0.0.1" "10.0.0.9:80") = none := by
    decide +kernel
  refine ⟨List.Perm.refl _, by decide, hnone, ?_⟩
  intro h
  obtain ⟨e, he, -⟩ := h ⟨⟨.source, "gcp", "10.0.0.9", 80, "EU", "web"⟩, answering 1⟩
    (by decide) rfl
  exact absurd (hnone.symm.trans he) (by simp)

end Samples

end Arcturus.ProbedOrigins
