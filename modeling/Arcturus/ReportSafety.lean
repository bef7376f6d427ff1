import Arcturus.EdgeSolvers
import Arcturus.LastReports
import Arcturus.Rebuilds

/-!
What the entries of a report may be. The decoder stores nil for an entry that is null, and a
rebuild reads every entry of every report that it has copied. The aggregate itself never
holds nil, and its copies for the solvers neither.
-/

namespace Arcturus.ReportSafety

open GoMaps JsonDecode LastMile LastReports Rebuilds StepRuns

/-- Copy an entry of the aggregate into the map for a solver. -/
def copyEntry (result : EdgeSolvers.EdgeAgg ℚ) (k : String) (v : LastCongestion) :
    EdgeSolvers.EdgeAgg ℚ :=
  ⟨result.entries.set k (some ⟨v.count, v.avgRT⟩),
    GoMap.NoNil.set result.copied k (Option.some_ne_none _)⟩

/-- There is no result if an entry is nil. -/
def getAggMap (g : GlobalStats) (order : g.edgeAgg.Range) : Option (EdgeSolvers.EdgeAgg ℚ) :=
  run (fun result k => (g.edgeAgg.val k).map (copyEntry result k)) .empty order.keys

/-- No goroutine and no request can meet a nil entry. The solvers read only their copy, which
has none by its type. -/
structure Safe (s : Sys) : Prop where
  rebuild : ∀ (i : ℕ) (nodes : List LastTelemetry) (orders : Orders),
    s.rebuilds[i]? = some (.copied nodes) → rebuildAggregate nodes orders ≠ none
  read : ∀ order, getAggMap s.stats order ≠ none

/-- A report whose entries are all there, or that is not kept. -/
def Harmless (report : LastTelemetry) : Prop :=
  report.ip = "" ∨ report.lastsCongestion.NoNil

/-- An event brings no report but harmless ones. -/
def HarmlessAction (floats : Floats) : Action → Prop
  | .event _ val => ∀ report, unmarshal floats val = some report → Harmless report
  | _ => True

/-- Nothing that is kept has a nil entry. -/
structure Sound (s : Sys) : Prop where
  nodes : ∀ ip report, s.stats.nodeLast.val ip = some report → report.lastsCongestion.NoNil
  copies : ∀ (i : ℕ) (nodes : List LastTelemetry), s.rebuilds[i]? = some (.copied nodes) →
    ∀ node ∈ nodes, node.lastsCongestion.NoNil
  agg : s.stats.edgeAgg.NoNil

theorem getAggMap_ne_none {g : GlobalStats} (h : g.edgeAgg.NoNil) (order : g.edgeAgg.Range) :
    getAggMap g order ≠ none := by
  have hkeys : ∀ k ∈ order.keys, g.edgeAgg.val k ≠ none :=
    fun k hk => h k (order.perm.mem_iff.mp hk)
  unfold getAggMap
  generalize order.keys = keys at hkeys
  generalize EdgeSolvers.EdgeAgg.empty = result
  induction keys generalizing result with
  | nil => exact Option.some_ne_none _
  | cons k keys ih =>
    rw [List.forall_mem_cons] at hkeys
    obtain ⟨v, hv⟩ := Option.ne_none_iff_exists'.mp hkeys.1
    rw [run_cons, hv, Option.map_some, Option.bind_some]
    exact ih hkeys.2 _

theorem Sound.safe {s : Sys} (h : Sound s) : Safe s where
  rebuild := by
    intro i nodes orders hi hnone
    obtain ⟨node, hnode, hnil⟩ := rebuildAggregate_eq_none_iff.mp hnone
    exact hnil (h.copies i nodes hi node hnode)
  read := getAggMap_ne_none h.agg

/-- The first rebuild has met no nil entry. -/
theorem sound_of_begins {s : Sys} (h : Begins s) : Sound s := by
  obtain ⟨loaded, order, orders, -, hperm, hagg, hnone⟩ := h
  refine ⟨?_, ?_, rebuildAggregate_noNil hagg⟩
  · intro ip report hval
    by_contra hnil
    have hkey : ip ∈ s.stats.nodeLast.keys := by
      by_contra habsent
      rw [s.stats.nodeLast.absent ip habsent] at hval
      exact absurd hval (by simp)
    have hmem : report ∈ nodeList s.stats.nodeLast order :=
      List.mem_filterMap.mpr ⟨ip, hperm.mem_iff.mpr hkey, hval⟩
    rw [rebuildAggregate_eq_none_iff.mpr ⟨report, hmem, hnil⟩] at hagg
    exact absurd hagg (by simp)
  · intro i nodes hi
    rw [hnone] at hi
    simp at hi

theorem delNode_val {g : GlobalStats} {nodeIP ip : String} {report : LastTelemetry}
    (h : (g.delNode nodeIP).nodeLast.val ip = some report) : g.nodeLast.val ip = some report := by
  by_cases hip : ip = nodeIP
  · rw [hip, GlobalStats.delNode, GoMap.erase_val_same] at h
    exact absurd h (by simp)
  · rwa [GlobalStats.delNode, GoMap.erase_val_of_ne _ hip] at h

theorem addOrUpdateNode_val {g : GlobalStats} {node report : LastTelemetry} {ip : String}
    (h : (g.addOrUpdateNode node).nodeLast.val ip = some report) :
    node.ip ≠ "" ∧ report = node ∨ g.nodeLast.val ip = some report := by
  unfold GlobalStats.addOrUpdateNode at h
  split at h
  · exact Or.inr h
  · rename_i hne
    by_cases hip : ip = node.ip
    · rw [hip, GoMap.set_val_same, Option.some.injEq] at h
      exact Or.inl ⟨hne, h.symm⟩
    · rw [GoMap.set_val_of_ne _ _ hip] at h
      exact Or.inr h

/-- A report that is kept after an event was kept before, or it is the one of the event. -/
theorem handle_val {unmarshal : String → Option LastTelemetry} {g : GlobalStats}
    {eventType : EventType} {val ip : String} {report : LastTelemetry}
    (h : (handleLastWatchEvent unmarshal g eventType val).1.nodeLast.val ip = some report) :
    g.nodeLast.val ip = some report ∨ unmarshal val = some report ∧ report.ip ≠ "" := by
  unfold handleLastWatchEvent at h
  split at h
  · exact Or.inl h
  · rename_i lastStats hstats
    have hadded (hval : (g.addOrUpdateNode lastStats).nodeLast.val ip = some report) :
        g.nodeLast.val ip = some report ∨ unmarshal val = some report ∧ report.ip ≠ "" := by
      rcases addOrUpdateNode_val hval with ⟨hne, rfl⟩ | hold
      · split at hstats
        · -- without a text there is no address
          cases Option.some.inj hstats
          exact absurd rfl hne
        · exact Or.inr ⟨hstats, hne⟩
      · exact Or.inl hold
    cases eventType with
    | create => exact hadded h
    | update => exact hadded h
    | delete => exact Or.inl (delNode_val h)
    | unknown => exact Or.inl h

section Steps
variable {floats : Floats} {s s' s₀ : Sys}

/-- A report that is kept after a step was kept before, or it came with an event. -/
theorem step_val {a : Action} (h : step (unmarshal floats) s a = some s') {ip : String}
    {report : LastTelemetry} (hval : s'.stats.nodeLast.val ip = some report) :
    s.stats.nodeLast.val ip = some report ∨ ∃ eventType val, a = .event eventType val ∧
      unmarshal floats val = some report ∧ report.ip ≠ "" := by
  obtain ⟨eventType, val, rfl, hstats, -⟩ | ⟨i, order, rfl, -, -, hstats, -⟩ |
    ⟨i, orders, nodes, newAgg, rfl, -, -, hstats, -⟩ := step_cases h
  · rw [hstats] at hval
    exact (handle_val hval).imp_right fun hread => ⟨eventType, val, rfl, hread⟩
  · exact Or.inl (hstats ▸ hval)
  · rw [hstats] at hval
    exact Or.inl hval

/-- A copy holds reports that are kept. -/
theorem copied_of_copy {i : ℕ} {order : List String} {nodes : List LastTelemetry}
    (h : step (unmarshal floats) s (.copy i order) = some s')
    (hi : s'.rebuilds[i]? = some (.copied nodes)) : nodes = nodeList s.stats.nodeLast order := by
  obtain ⟨_, _, ha, -⟩ | ⟨j, order', ha, hj, -, -, hrebuilds⟩ | ⟨_, _, _, _, ha, -⟩ := step_cases h
  · cases ha
  · cases ha
    have hlt := (List.getElem?_eq_some_iff.mp hj).1
    rw [hrebuilds, List.getElem?_set_self hlt, Option.some.injEq, Rebuild.copied.injEq] at hi
    exact hi.symm
  · cases ha

theorem step_edgeAgg_noNil {a : Action} (h : step (unmarshal floats) s a = some s')
    (hs : s.stats.edgeAgg.NoNil) : s'.stats.edgeAgg.NoNil := by
  by_cases hwrite : a.IsWrite
  · obtain ⟨_, _, rfl, -⟩ | ⟨_, _, rfl, -⟩ | ⟨i, orders, nodes, newAgg, -, -, hagg, hstats, -⟩ :=
      step_cases h
    · exact absurd hwrite id
    · exact absurd hwrite id
    · rw [hstats]
      exact rebuildAggregate_noNil hagg
  · rw [step_edgeAgg h hwrite]
    exact hs

theorem sound_step {a : Action} (h : step (unmarshal floats) s a = some s')
    (ha : HarmlessAction floats a) (hs : Sound s) : Sound s' where
  nodes := by
    intro ip report hval
    rcases step_val h hval with hold | ⟨eventType, val, rfl, hread, hne⟩
    · exact hs.nodes ip report hold
    · exact (ha report hread).resolve_left hne
  copies := by
    intro i nodes hi node hnode
    rcases copied_cases h hi with ⟨order, rfl⟩ | hold
    · rw [copied_of_copy h hi] at hnode
      obtain ⟨ip, -, hval⟩ := List.mem_filterMap.mp hnode
      exact hs.nodes ip node hval
    · exact hs.copies i nodes hold node hnode
  agg := step_edgeAgg_noNil h hs.agg

theorem sound_run {actions : List Action} (hharmless : ∀ a ∈ actions, HarmlessAction floats a)
    (hs : Sound s) (hrun : run (step (unmarshal floats)) s actions = some s') : Sound s' := by
  refine run_keeps_of_mem ?_ hharmless hs hrun
  intro t a t' ha ht h
  exact sound_step h ha ht

/-- The event of a put keeps the report and starts a rebuild. -/
theorem handle_put {unmarshal : String → Option LastTelemetry} {eventType : EventType}
    {val : String} {report : LastTelemetry} (g : GlobalStats)
    (hput : eventType = .create ∨ eventType = .update) (hval : val ≠ "")
    (hread : unmarshal val = some report) :
    handleLastWatchEvent unmarshal g eventType val = (g.addOrUpdateNode report, true) := by
  unfold handleLastWatchEvent
  rw [if_neg hval, hread]
  rcases hput with rfl | rfl
  · rfl
  · rfl

/-- A report with an address and a nil entry is kept, and the rebuild that its event starts
copies it and panics. -/
theorem rebuild_panics {eventType : EventType} {val : String} {report : LastTelemetry} (s : Sys)
    (hput : eventType = .create ∨ eventType = .update) (hval : val ≠ "")
    (hread : unmarshal floats val = some report) (hharm : ¬ Harmless report) :
    ∃ order s' nodes, run (step (unmarshal floats)) s
        [.event eventType val, .copy s.rebuilds.length order] = some s' ∧
      s'.rebuilds[s.rebuilds.length]? = some (.copied nodes) ∧
      ∀ orders, rebuildAggregate nodes orders = none := by
  obtain ⟨hip, hnil⟩ := not_or.mp hharm
  have hkept : s.stats.addOrUpdateNode report =
      ⟨s.stats.nodeLast.set report.ip (some report), s.stats.edgeAgg⟩ := if_neg hip
  generalize hmap : s.stats.nodeLast.set report.ip (some report) = nodeLast at hkept
  have hevent : step (unmarshal floats) s (.event eventType val) =
      some ⟨⟨nodeLast, s.stats.edgeAgg⟩, s.rebuilds ++ [.started]⟩ := by
    rw [step, handle_put s.stats hput hval hread, hkept]
    rfl
  have hcopy : step (unmarshal floats) ⟨⟨nodeLast, s.stats.edgeAgg⟩, s.rebuilds ++ [.started]⟩
      (.copy s.rebuilds.length nodeLast.keys) = some ⟨⟨nodeLast, s.stats.edgeAgg⟩,
        s.rebuilds ++ [.copied (nodeList nodeLast nodeLast.keys)]⟩ := by
    simp [step]
  have hmem : report ∈ nodeList nodeLast nodeLast.keys := by
    rw [← hmap]
    refine List.mem_filterMap.mpr ⟨report.ip, ?_, GoMap.set_val_same ..⟩
    exact (GoMap.mem_set_keys ..).mpr (Or.inl rfl)
  refine ⟨nodeLast.keys, ⟨⟨nodeLast, s.stats.edgeAgg⟩,
    s.rebuilds ++ [.copied (nodeList nodeLast nodeLast.keys)]⟩, _, ?_, List.getElem?_concat_length,
    fun orders => rebuildAggregate_eq_none_iff.mpr ⟨report, hmem, hnil⟩⟩
  rw [run_cons, hevent, Option.bind_some, run_cons, hcopy]
  rfl

/-- While all other reports are harmless, a report that was accepted and stored can be kept
without a nil entry ever being met if and only if it is harmless itself. -/
theorem safe_iff_harmless {publicIP body key stored : String} {eventType : EventType}
    (hstart : Begins s₀) (hstored : (postLastReceive floats publicIP body).2 = some (key, stored))
    (hput : eventType = .create ∨ eventType = .update) :
    ∃ req report, shouldBindJSON floats body = some req ∧
      decodeLastTelemetry floats req.data = some report ∧
      ((∀ front back s, (∀ a ∈ front ++ back, HarmlessAction floats a) →
        run (step (unmarshal floats)) s₀ (front ++ .event eventType stored :: back) = some s →
          Safe s) ↔ Harmless report) := by
  obtain ⟨req, report, hreq, rfl, hdecode⟩ := exists_report hstored
  have hread := (unmarshal_render floats req.data).trans hdecode
  refine ⟨req, report, hreq, hdecode, ?_, ?_⟩
  · intro hsafe
    by_contra hharm
    obtain ⟨order, s', nodes, hrun, hcopied, hpanic⟩ :=
      rebuild_panics s₀ hput (JsonText.render_ne_empty req.data) hread hharm
    have hcopy : ∀ a ∈ [] ++ [Action.copy s₀.rebuilds.length order], HarmlessAction floats a := by
      intro a ha
      rw [List.nil_append, List.mem_singleton] at ha
      rw [ha]
      exact trivial
    have hend := hsafe [] _ s' hcopy hrun
    exact hend.rebuild _ nodes (fun node => node.lastsCongestion.range) hcopied (hpanic _)
  · intro hharmless front back s hothers hrun
    refine (sound_run ?_ (sound_of_begins hstart) hrun).safe
    intro a ha
    rw [List.mem_append, List.mem_cons] at ha
    rcases ha with ha | rfl | ha
    · exact hothers a (List.mem_append_left back ha)
    · intro read hread'
      cases Option.some.inj (hread.symm.trans hread')
      exact hharmless
    · exact hothers a (List.mem_append_right front ha)

/-- As long as no object among the members of a report has a null, no nil entry is met. -/
theorem safe_of_no_null {actions : List Action} (hstart : Begins s₀)
    (hreports : ∀ eventType val, Action.event eventType val ∈ actions →
      ∃ v, val = JsonText.render v ∧ ∀ ms, v = .obj ms → ∀ m ∈ ms, NoNullMember m.2)
    (hrun : run (step (unmarshal floats)) s₀ actions = some s) : Safe s := by
  refine (sound_run ?_ (sound_of_begins hstart) hrun).safe
  intro a ha
  cases a with
  | event eventType val =>
    obtain ⟨v, rfl, hv⟩ := hreports eventType val ha
    intro report hread
    rw [unmarshal_render] at hread
    exact Or.inr (decodeLastTelemetry_noNil hread hv)
  | copy i order => exact trivial
  | write i orders => exact trivial

end Steps

/-- Numbers that are whole, for the runs below. -/
def wholeFloats : Floats where
  parseFloat n :=
    if n.frac = [] ∧ n.exp = none then some (if n.neg then -n.int else n.int) else none
  formatFloat q := ⟨q < 0, q.num.natAbs, [], none⟩

/-- A report on two cities; its null is not a city's. -/
def twoCitiesReport : JsonText.Json :=
  .obj [("ip", .str "10.0.0.1"), ("lasts_congestion", .obj
    [("paris", .obj [("avg_rt", .num ⟨false, 30, [], none⟩), ("count", .num ⟨false, 2, [], none⟩)]),
      ("rome", .obj [("count", .num ⟨false, 1, [], none⟩)])]), ("time", .null)]

def twoCitiesCopied : List Action :=
  [.event .create (JsonText.render twoCitiesReport), .copy 0 ["10.0.0.1"],
    .event .update (JsonText.render twoCitiesReport)]

/-- The cities in the entries that a rebuild has copied. -/
def copiedCities : Option Rebuild → List (List String)
  | some (.copied nodes) => nodes.map fun node => node.lastsCongestion.keys
  | _ => []

/-- One rebuild has copied the two entries and another one has been started. -/
theorem safe_of_no_null_twoCities : ∃ s nodes,
    run (step (unmarshal wholeFloats)) idle twoCitiesCopied = some s ∧
      s.rebuilds[0]? = some (.copied nodes) ∧ s.rebuilds.length = 2 ∧
      nodes.map (fun node => node.lastsCongestion.keys) = [["paris", "rome"]] ∧ Safe s := by
  have hrun : ((run (step (unmarshal wholeFloats)) idle twoCitiesCopied).map fun s =>
      (s.rebuilds.length, copiedCities s.rebuilds[0]?)) = some (2, [["paris", "rome"]]) := by
    decide +kernel
  obtain ⟨s, hs, hcopied⟩ := Option.map_eq_some_iff.mp hrun
  rw [Prod.mk.injEq] at hcopied
  obtain ⟨hlength, hcopied⟩ := hcopied
  unfold copiedCities at hcopied
  split at hcopied
  case h_2 => cases hcopied
  case h_1 nodes hnodes =>
    refine ⟨s, nodes, hs, hnodes, hlength, hcopied, safe_of_no_null begins_idle ?_ hs⟩
    intro eventType val hmem
    have hval : val = JsonText.render twoCitiesReport := by
      simp only [twoCitiesCopied, List.mem_cons, Action.event.injEq, reduceCtorEq, List.not_mem_nil,
        or_false, false_or] at hmem
      rcases hmem with ⟨-, hval⟩ | ⟨-, hval⟩ <;> exact hval
    refine ⟨_, hval, ?_⟩
    rintro _ ⟨⟩ m hm ms key hobj
    simp only [List.mem_cons, List.not_mem_nil, or_false] at hm
    rcases hm with rfl | rfl | rfl <;> cases hobj
    simp

def parisBody : String :=
  "\x7b\"code\":200,\"data\":\x7b\"ip\":\"10.0.0.1\",\"lasts_congestion\":\x7b" ++
    "\"paris\":\x7b\"count\":2,\"avg_rt\":30\x7d\x7d\x7d\x7d"

def parisStored : String :=
  "\x7b\"ip\":\"10.0.0.1\",\"lasts_congestion\":\x7b" ++
    "\"paris\":\x7b\"avg_rt\":30,\"count\":2\x7d\x7d\x7d"

/-- A request whose data is stored with its members in order. -/
theorem paris_safe_iff : ∃ req report, shouldBindJSON wholeFloats parisBody = some req ∧
      decodeLastTelemetry wholeFloats req.data = some report ∧
      ((∀ front back s, (∀ a ∈ front ++ back, HarmlessAction wholeFloats a) →
        run (step (unmarshal wholeFloats)) idle (front ++ .event .create parisStored :: back) =
          some s → Safe s) ↔ Harmless report) := by
  have hstored : (postLastReceive wholeFloats "10.0.0.9" parisBody).2 =
      some ("/routing-last/10.0.0.9", parisStored) := by decide +kernel
  exact safe_iff_harmless begins_idle hstored (Or.inl rfl)

/-- A report that names a city without statistics. -/
def nullBody : String :=
  "\x7b\"data\":\x7b\"ip\":\"10.0.0.1\",\"lasts_congestion\":\x7b\"paris\":null\x7d\x7d\x7d"

def nullStored : String :=
  "\x7b\"ip\":\"10.0.0.1\",\"lasts_congestion\":\x7b\"paris\":null\x7d\x7d"

/-- It is accepted and stored, and the rebuild that its event starts panics. -/
theorem null_entry_panics :
    postLastReceive wholeFloats "10.0.0.9" nullBody =
      (⟨200, "LastStats reported successfully", some 1⟩,
        some ("/routing-last/10.0.0.9", nullStored)) ∧
    Begins idle ∧ ∃ order s nodes, run (step (unmarshal wholeFloats)) idle
        [.event .create nullStored, .copy 0 order] = some s ∧
      s.rebuilds[0]? = some (.copied nodes) ∧
      ∀ orders, rebuildAggregate nodes orders = none := by
  refine ⟨by decide +kernel, begins_idle, ?_⟩
  have hread : (unmarshal wholeFloats nullStored).map (fun report =>
      (report.ip, report.lastsCongestion.keys, report.lastsCongestion.val "paris")) =
        some ("10.0.0.1", ["paris"], none) := by decide +kernel
  obtain ⟨report, hreport, hfields⟩ := Option.map_eq_some_iff.mp hread
  simp only [Prod.mk.injEq] at hfields
  obtain ⟨hip, hkeys, hnil⟩ := hfields
  refine rebuild_panics idle (Or.inl rfl) (by decide) hreport ?_
  rintro (hempty | hall)
  · rw [hip] at hempty
    exact absurd hempty (by decide)
  · exact hall "paris" (by rw [hkeys]; exact List.mem_cons_self) hnil

end Arcturus.ReportSafety
