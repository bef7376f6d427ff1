import Arcturus.LastMile
import Arcturus.StepRuns

/-!
The rebuilds of the aggregate, one for each event of the last mile, each in a goroutine
of its own. A rebuild copies the reports, and some time later it writes the aggregate of
its copy. Rebuilds are named by the order of their starts. A panic has no step.
-/

namespace Arcturus.Rebuilds

open GoMaps LastMile StepRuns

/-- How far a rebuild has come. -/
inductive Rebuild where
  | started
  | copied (nodes : List LastTelemetry)
  | finished

structure Sys where
  stats : GlobalStats
  rebuilds : List Rebuild

/-- Handle an event; the second result says whether a rebuild is started. The function
that reads a report from its text is a parameter. -/
def handleLastWatchEvent (unmarshal : String → Option LastTelemetry) (globalStats : GlobalStats)
    (eventType : EventType) (val : String) : GlobalStats × Bool :=
  match if val = "" then some default else unmarshal val with
  | none => (globalStats, false)
  | some lastStats =>
    match eventType with
    | .create | .update => (globalStats.addOrUpdateNode lastStats, true)
    | .delete => (globalStats.delNode lastStats.ip, true)
    | .unknown => (globalStats, false)

/-- An event is handled, or a rebuild makes its copy or writes its result. -/
inductive Action where
  | event (eventType : EventType) (val : String)
  | copy (i : ℕ) (order : List String)
  | write (i : ℕ) (orders : Orders)

variable (unmarshal : String → Option LastTelemetry)

def step (s : Sys) : Action → Option Sys
  | .event eventType val =>
    let r := handleLastWatchEvent unmarshal s.stats eventType val
    some ⟨r.1, if r.2 then s.rebuilds ++ [.started] else s.rebuilds⟩
  | .copy i order =>
    match s.rebuilds[i]? with
    | some .started =>
      if order.Perm s.stats.nodeLast.keys then
        some { s with rebuilds := s.rebuilds.set i (.copied (nodeList s.stats.nodeLast order)) }
      else none
    | _ => none
  | .write i orders =>
    match s.rebuilds[i]? with
    | some (.copied nodes) =>
      match rebuildAggregate nodes orders with
      | none => none
      | some newAgg =>
        some ⟨{ s.stats with edgeAgg := newAgg }, s.rebuilds.set i .finished⟩
    | _ => none

/-- The state in which the watch begins: some reports are loaded, and one rebuild has
been made of them. -/
def Begins (s : Sys) : Prop :=
  ∃ (loaded : List LastTelemetry) (order : List String) (orders : Orders),
    s.stats.nodeLast = (loaded.foldl GlobalStats.addOrUpdateNode newGlobalStats).nodeLast ∧
      order.Perm s.stats.nodeLast.keys ∧
      rebuildAggregate (nodeList s.stats.nodeLast order) orders = some s.stats.edgeAgg ∧
      s.rebuilds = []

/-- No goroutine is left. -/
def Sys.Quiet (s : Sys) : Prop :=
  ∀ (i : ℕ) (r : Rebuild), s.rebuilds[i]? = some r → r = .finished

def Action.IsWrite : Action → Prop
  | .write _ _ => True
  | _ => False

/-- The aggregate is that of the reports. -/
def Sys.UpToDate (s : Sys) : Prop := s.stats.edgeAgg.val = aggregate s.stats.nodeLast

/-- Since the rebuild that wrote last made its copy, the aggregate of the reports has not
changed. -/
def FreshCopy (s₀ : Sys) (actions : List Action) (s : Sys) : Prop :=
  ∀ i order orders front mid back mark,
    actions = front ++ .copy i order :: (mid ++ .write i orders :: back) →
      (∀ a ∈ back, ¬ a.IsWrite) → run (step unmarshal) s₀ front = some mark →
        aggregate mark.stats.nodeLast = aggregate s.stats.nodeLast

variable {unmarshal} {s s' s₀ : Sys}

/-- An event that starts no rebuild changes nothing. -/
theorem handle_eq_of_ignored {g : GlobalStats} {eventType : EventType} {val : String}
    (h : (handleLastWatchEvent unmarshal g eventType val).2 = false) :
    (handleLastWatchEvent unmarshal g eventType val).1 = g := by
  unfold handleLastWatchEvent at h ⊢
  split
  · rfl
  · rename_i lastStats hstats
    rw [hstats] at h
    cases eventType with
    | create => simp at h
    | update => simp at h
    | delete => simp at h
    | unknown => rfl

theorem addOrUpdateNode_edgeAgg (g : GlobalStats) (telemetry : LastTelemetry) :
    (g.addOrUpdateNode telemetry).edgeAgg = g.edgeAgg := by
  unfold GlobalStats.addOrUpdateNode
  split
  · rfl
  · rfl

theorem handle_edgeAgg (g : GlobalStats) (eventType : EventType) (val : String) :
    (handleLastWatchEvent unmarshal g eventType val).1.edgeAgg = g.edgeAgg := by
  unfold handleLastWatchEvent
  split
  · rfl
  · cases eventType with
    | create => exact addOrUpdateNode_edgeAgg ..
    | update => exact addOrUpdateNode_edgeAgg ..
    | delete => rfl
    | unknown => rfl

/-- What a step can do. -/
theorem step_cases {a : Action} (h : step unmarshal s a = some s') :
    (∃ eventType val, a = .event eventType val ∧
      s'.stats = (handleLastWatchEvent unmarshal s.stats eventType val).1 ∧
      s'.rebuilds = if (handleLastWatchEvent unmarshal s.stats eventType val).2
        then s.rebuilds ++ [.started] else s.rebuilds) ∨
    (∃ i order, a = .copy i order ∧ s.rebuilds[i]? = some .started ∧
      order.Perm s.stats.nodeLast.keys ∧ s'.stats = s.stats ∧
      s'.rebuilds = s.rebuilds.set i (.copied (nodeList s.stats.nodeLast order))) ∨
    ∃ i orders nodes newAgg, a = .write i orders ∧ s.rebuilds[i]? = some (.copied nodes) ∧
      rebuildAggregate nodes orders = some newAgg ∧
      s'.stats = { s.stats with edgeAgg := newAgg } ∧ s'.rebuilds = s.rebuilds.set i .finished := by
  cases a with
  | event eventType val =>
    cases Option.some.inj h
    exact Or.inl ⟨eventType, val, rfl, rfl, rfl⟩
  | copy i order =>
    simp only [step] at h
    split at h
    · rename_i hi
      split at h
      · rename_i hperm
        cases Option.some.inj h
        exact Or.inr (Or.inl ⟨i, order, rfl, hi, hperm, rfl, rfl⟩)
      · simp at h
    · simp at h
  | write i orders =>
    simp only [step] at h
    split at h
    · rename_i nodes hi
      split at h
      · simp at h
      · rename_i newAgg hagg
        cases Option.some.inj h
        exact Or.inr (Or.inr ⟨i, orders, nodes, newAgg, rfl, hi, hagg, rfl, rfl⟩)
    · simp at h

theorem step_edgeAgg {a : Action} (h : step unmarshal s a = some s') (ha : ¬ a.IsWrite) :
    s'.stats.edgeAgg = s.stats.edgeAgg := by
  obtain ⟨eventType, val, rfl, hstats, -⟩ | ⟨i, order, rfl, -, -, hstats, -⟩ |
    ⟨i, orders, nodes, newAgg, rfl, -⟩ := step_cases h
  · rw [hstats]
    exact handle_edgeAgg ..
  · rw [hstats]
  · exact absurd trivial ha

/-- A copy is kept until it is written, and a rebuild that has written is over. -/
theorem step_kept {a : Action} (h : step unmarshal s a = some s') {i : ℕ}
    {nodes : List LastTelemetry}
    (hi : s.rebuilds[i]? = some (.copied nodes) ∨ s.rebuilds[i]? = some .finished) :
    s'.rebuilds[i]? = some (.copied nodes) ∨ s'.rebuilds[i]? = some .finished := by
  have hlt : i < s.rebuilds.length := by
    rcases hi with hi | hi
    · exact (List.getElem?_eq_some_iff.mp hi).1
    · exact (List.getElem?_eq_some_iff.mp hi).1
  obtain ⟨eventType, val, rfl, -, hrebuilds⟩ | ⟨j, order, rfl, hj, -, -, hrebuilds⟩ |
    ⟨j, orders, nodes', newAgg, rfl, hj, -, -, hrebuilds⟩ := step_cases h
  · rw [hrebuilds]
    split
    · rwa [List.getElem?_append_left hlt]
    · exact hi
  · have hne : j ≠ i := by
      rintro rfl
      rw [hj] at hi
      simp at hi
    rwa [hrebuilds, List.getElem?_set_ne hne]
  · rw [hrebuilds]
    by_cases hji : j = i
    · subst hji
      exact Or.inr (by simp [hlt])
    · rwa [List.getElem?_set_ne hji]

/-- A copy was made by this step or was there before. -/
theorem copied_cases {a : Action} (h : step unmarshal s a = some s') {i : ℕ}
    {nodes : List LastTelemetry} (hi : s'.rebuilds[i]? = some (.copied nodes)) :
    (∃ order, a = .copy i order) ∨ s.rebuilds[i]? = some (.copied nodes) := by
  obtain ⟨eventType, val, rfl, -, hrebuilds⟩ | ⟨j, order, rfl, -, -, -, hrebuilds⟩ |
    ⟨j, orders, nodes', newAgg, rfl, -, -, -, hrebuilds⟩ := step_cases h
  · rw [hrebuilds] at hi
    split at hi
    · rw [List.getElem?_append] at hi
      split at hi
      · exact Or.inr hi
      · have hmem := List.mem_of_getElem? hi
        simp at hmem
    · exact Or.inr hi
  · by_cases hji : j = i
    · subst hji
      exact Or.inl ⟨order, rfl⟩
    · rw [hrebuilds, List.getElem?_set_ne hji] at hi
      exact Or.inr hi
  · by_cases hji : j = i
    · subst hji
      rw [hrebuilds, List.getElem?_set] at hi
      split at hi
      · split at hi <;> simp at hi
      · exact Or.inr hi
    · rw [hrebuilds, List.getElem?_set_ne hji] at hi
      exact Or.inr hi

section Runs
variable {actions : List Action}

theorem run_edgeAgg (hno : ∀ a ∈ actions, ¬ a.IsWrite)
    (hrun : run (step unmarshal) s actions = some s') : s'.stats.edgeAgg = s.stats.edgeAgg := by
  have hkeeps : ∀ t a t', ¬ a.IsWrite → t.stats.edgeAgg = s.stats.edgeAgg →
      step unmarshal t a = some t' → t'.stats.edgeAgg = s.stats.edgeAgg :=
    fun t a t' ha ht hstep => (step_edgeAgg hstep ha).trans ht
  exact run_keeps_of_mem hkeeps hno rfl hrun

theorem run_kept {i : ℕ} {nodes : List LastTelemetry}
    (hi : s.rebuilds[i]? = some (.copied nodes) ∨ s.rebuilds[i]? = some .finished)
    (hrun : run (step unmarshal) s actions = some s') :
    s'.rebuilds[i]? = some (.copied nodes) ∨ s'.rebuilds[i]? = some .finished := by
  have hkeeps : ∀ t a t', (t.rebuilds[i]? = some (.copied nodes) ∨
      t.rebuilds[i]? = some .finished) → step unmarshal t a = some t' →
        (t'.rebuilds[i]? = some (.copied nodes) ∨ t'.rebuilds[i]? = some .finished) :=
    fun t a t' ht hstep => step_kept hstep ht
  exact run_keeps hkeeps hi hrun

/-- The aggregate is that of the reports at the moment of the copy that was written last. -/
theorem edgeAgg_of_last_write {i : ℕ} {order : List String} {orders : Orders}
    {front mid back : List Action} (hback : ∀ a ∈ back, ¬ a.IsWrite)
    (hrun : run (step unmarshal) s₀ (front ++ .copy i order :: (mid ++ .write i orders :: back)) =
      some s) :
    ∃ mark, run (step unmarshal) s₀ front = some mark ∧
      s.stats.edgeAgg.val = aggregate mark.stats.nodeLast := by
  rw [run_append] at hrun
  obtain ⟨mark, hmark, hrun⟩ := Option.bind_eq_some_iff.mp hrun
  refine ⟨mark, hmark, ?_⟩
  rw [run_cons] at hrun
  obtain ⟨made, hmade, hrun⟩ := Option.bind_eq_some_iff.mp hrun
  rw [run_append] at hrun
  obtain ⟨last, hlast, hrun⟩ := Option.bind_eq_some_iff.mp hrun
  rw [run_cons] at hrun
  obtain ⟨done, hdone, hrun⟩ := Option.bind_eq_some_iff.mp hrun
  obtain ⟨_, _, ha, -⟩ | ⟨j, order', ha, hj, hperm, -, hrebuilds⟩ | ⟨_, _, _, _, ha, -⟩ :=
    step_cases hmade
  · simp at ha
  · rw [Action.copy.injEq] at ha
    obtain ⟨rfl, rfl⟩ := ha
    have hlt := (List.getElem?_eq_some_iff.mp hj).1
    have hcopied : made.rebuilds[i]? =
        some (.copied (nodeList mark.stats.nodeLast order)) := by simp [hrebuilds, hlt]
    obtain ⟨_, _, hb, -⟩ | ⟨_, _, hb, -⟩ | ⟨k, orders', nodes, newAgg, hb, hk, hagg, hstats, -⟩ :=
      step_cases hdone
    · simp at hb
    · simp at hb
    · rw [Action.write.injEq] at hb
      obtain ⟨rfl, -⟩ := hb
      have hnodes : nodes = nodeList mark.stats.nodeLast order := by
        rcases run_kept (Or.inl hcopied) hlast with hkept | hover
        · rw [hk] at hkept
          simpa using hkept
        · rw [hk] at hover
          simp at hover
      rw [run_edgeAgg hback hrun, hstats]
      simp only
      rw [rebuildAggregate_val hagg, hnodes, aggregateOf_perm (nodeList_perm hperm)]
      rfl
  · simp at ha

/-- A copy stems from an earlier step of the run. -/
theorem exists_copy (hstart : s₀.rebuilds = []) (hrun : run (step unmarshal) s₀ actions = some s)
    {i : ℕ} {nodes : List LastTelemetry} (hi : s.rebuilds[i]? = some (.copied nodes)) :
    ∃ front order mid, actions = front ++ .copy i order :: mid := by
  revert i nodes
  refine run_induction (motive := fun actions s => ∀ {i : ℕ} {nodes : List LastTelemetry},
    s.rebuilds[i]? = some (.copied nodes) → ∃ front order mid,
      actions = front ++ .copy i order :: mid) ?_ ?_ hrun
  · intro i nodes hi
    rw [hstart] at hi
    simp at hi
  · intro actions s a s' hrun ih hstep i nodes hi
    rcases copied_cases hstep hi with ⟨order, rfl⟩ | hold
    · exact ⟨actions, order, [], rfl⟩
    · obtain ⟨front, order, mid, rfl⟩ := ih hold
      exact ⟨front, order, mid ++ [a], by simp⟩

/-- As long as nothing is written, either a rebuild waits or nothing has happened. -/
theorem run_without_write (hstart : s₀.rebuilds = [])
    (hrun : run (step unmarshal) s₀ actions = some s) (hno : ∀ a ∈ actions, ¬ a.IsWrite) :
    (∀ r ∈ s.rebuilds, r ≠ .finished) ∧ (s.rebuilds = [] → s.stats = s₀.stats) := by
  revert hno
  refine run_induction (motive := fun actions s => (∀ a ∈ actions, ¬ a.IsWrite) →
    (∀ r ∈ s.rebuilds, r ≠ .finished) ∧ (s.rebuilds = [] → s.stats = s₀.stats)) ?_ ?_ hrun
  · intro _
    rw [hstart]
    exact ⟨by simp, fun _ => rfl⟩
  · intro actions s a s' _ ih hstep hno
    rw [List.forall_mem_append] at hno
    obtain ⟨hwaiting, hidle⟩ := ih hno.1
    obtain ⟨eventType, val, rfl, hstats, hrebuilds⟩ | ⟨i, order, rfl, hi, -, -, hrebuilds⟩ |
      ⟨i, orders, nodes, newAgg, rfl, -⟩ := step_cases hstep
    · rw [hrebuilds, hstats]
      split
      · refine ⟨?_, by simp⟩
        intro r hr
        rcases List.mem_append.mp hr with hr | hr
        · exact hwaiting r hr
        · rw [List.mem_singleton.mp hr]
          simp
      · rename_i hignored
        refine ⟨hwaiting, fun hnil => ?_⟩
        rw [handle_eq_of_ignored (by simpa using hignored), hidle hnil]
    · rw [hrebuilds]
      refine ⟨?_, ?_⟩
      · intro r hr
        rcases List.mem_or_eq_of_mem_set hr with hr | rfl
        · exact hwaiting r hr
        · simp
      · intro hnil
        rw [List.set_eq_nil_iff] at hnil
        rw [hnil] at hi
        simp at hi
    · exact absurd trivial (hno.2 _ (List.mem_singleton.mpr rfl))

theorem exists_last_write (hsome : ∃ a ∈ actions, Action.IsWrite a) :
    ∃ front i orders back, actions = front ++ .write i orders :: back ∧
      ∀ a ∈ back, ¬ a.IsWrite := by
  induction actions using List.reverseRecOn with
  | nil => simp at hsome
  | append_singleton actions a ih =>
    by_cases ha : a.IsWrite
    · cases a with
      | event eventType val => exact absurd ha id
      | copy i order => exact absurd ha id
      | write i orders => exact ⟨actions, i, orders, [], rfl, by simp⟩
    · obtain ⟨b, hb, hwrite⟩ := hsome
      rcases List.mem_append.mp hb with hb | hb
      · obtain ⟨front, i, orders, back, rfl, hback⟩ := ih ⟨b, hb, hwrite⟩
        refine ⟨front, i, orders, back ++ [a], by simp, ?_⟩
        exact List.forall_mem_append.mpr ⟨hback, by simpa using ha⟩
      · rw [List.mem_singleton.mp hb] at hwrite
        exact absurd hwrite ha

end Runs

/-- Once all goroutines have finished, the aggregate is up to date if and only if the
copy that was written last is not stale. -/
theorem upToDate_iff {actions : List Action} (hstart : Begins s₀)
    (hrun : run (step unmarshal) s₀ actions = some s) (hquiet : s.Quiet) :
    s.UpToDate ↔ FreshCopy unmarshal s₀ actions s := by
  obtain ⟨loaded, order₀, orders₀, -, hperm, hagg, hnone⟩ := hstart
  constructor
  · rintro h i order orders front mid back mark rfl hback hmark
    obtain ⟨mark', hmark', hval⟩ := edgeAgg_of_last_write hback hrun
    cases Option.some.inj (hmark.symm.trans hmark')
    exact hval.symm.trans h
  · intro hfresh
    by_cases hsome : ∃ a ∈ actions, Action.IsWrite a
    · obtain ⟨pre, i, orders, back, rfl, hback⟩ := exists_last_write hsome
      obtain ⟨last, hlast, hrest⟩ := Option.bind_eq_some_iff.mp ((run_append ..).symm.trans hrun)
      rw [run_cons] at hrest
      obtain ⟨done, hdone, -⟩ := Option.bind_eq_some_iff.mp hrest
      obtain ⟨_, _, hb, -⟩ | ⟨_, _, hb, -⟩ | ⟨k, _, nodes, _, hb, hk, -⟩ := step_cases hdone
      · simp at hb
      · simp at hb
      · rw [Action.write.injEq] at hb
        obtain ⟨rfl, -⟩ := hb
        obtain ⟨front, order, mid, rfl⟩ := exists_copy hnone hlast hk
        rw [List.append_assoc, List.cons_append] at hrun
        obtain ⟨mark, hmark, hval⟩ := edgeAgg_of_last_write hback hrun
        have hsplit : front ++ Action.copy i order :: mid ++ Action.write i orders :: back =
          front ++ .copy i order :: (mid ++ .write i orders :: back) := by simp
        exact hval.trans (hfresh i order orders front mid back mark hsplit hback hmark)
    · have hno : ∀ a ∈ actions, ¬ a.IsWrite := fun a ha hwrite => hsome ⟨a, ha, hwrite⟩
      obtain ⟨hwaiting, hidle⟩ := run_without_write hnone hrun hno
      have hnil : s.rebuilds = [] := by
        cases hcase : s.rebuilds with
        | nil => rfl
        | cons r rest =>
          have hfirst : s.rebuilds[0]? = some r := by rw [hcase]; rfl
          exact absurd (hquiet 0 r hfirst) (hwaiting r (by rw [hcase]; exact List.mem_cons_self))
      unfold Sys.UpToDate
      rw [hidle hnil, rebuildAggregate_val hagg, aggregateOf_perm (nodeList_perm hperm)]
      rfl

/-- The report of a node with one answer to the users of one city. -/
def parisReport (avgRT : ℚ) : LastTelemetry :=
  ⟨GoMap.empty.set "paris" (some ⟨1, avgRT, avgRT, 0⟩), "10.0.0.1"⟩

/-- A reader of reports that knows two texts. -/
def readParis (val : String) : Option LastTelemetry :=
  if val = "fast" then some (parisReport 10)
  else if val = "slow" then some (parisReport 30)
  else none

def idle : Sys := ⟨newGlobalStats, []⟩

theorem begins_idle : Begins idle :=
  ⟨[], [], fun node => node.lastsCongestion.range, rfl, List.Perm.refl _, rfl, rfl⟩

theorem quiet_of_rebuilds {s : Sys} {n : ℕ} (h : s.rebuilds = List.replicate n .finished) :
    s.Quiet := by
  intro i r hi
  rw [h] at hi
  exact List.eq_of_mem_replicate (List.mem_of_getElem? hi)

/-- The second report comes while the rebuild of the first one is under way, and its own
rebuild writes last. -/
def inOrder : List Action :=
  [.event .create "fast", .copy 0 ["10.0.0.1"], .event .update "slow",
    .write 0 fun node => node.lastsCongestion.range, .copy 1 ["10.0.0.1"],
    .write 1 fun node => node.lastsCongestion.range]

theorem inOrder_upToDate : ∃ s : Sys, run (step readParis) idle inOrder = some s ∧ s.Quiet ∧
    s.stats.edgeAgg.val "paris-10.0.0.1" = some ⟨1, 30, 30, 0⟩ ∧
      (s.UpToDate ↔ FreshCopy readParis idle inOrder s) := by
  refine ⟨_, rfl, quiet_of_rebuilds (n := 2) rfl, by decide +kernel, ?_⟩
  exact upToDate_iff begins_idle rfl (quiet_of_rebuilds (n := 2) rfl)

/-- The rebuild of an older report writes after that of a newer one. -/
theorem older_rebuild_writes_last : Begins idle ∧ ∃ s : Sys,
    run (step readParis) idle [.event .create "fast", .copy 0 ["10.0.0.1"],
      .event .update "slow", .copy 1 ["10.0.0.1"], .write 1 fun node => node.lastsCongestion.range,
      .write 0 fun node => node.lastsCongestion.range] = some s ∧ s.Quiet ∧
      s.stats.edgeAgg.val "paris-10.0.0.1" = some ⟨1, 10, 10, 0⟩ ∧
      aggregate s.stats.nodeLast "paris-10.0.0.1" = some ⟨1, 30, 30, 0⟩ := by
  refine ⟨begins_idle, _, rfl, quiet_of_rebuilds (n := 2) rfl, ?_, ?_⟩
  · decide +kernel
  · decide +kernel

end Arcturus.Rebuilds
