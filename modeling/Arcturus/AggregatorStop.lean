import Arcturus.AggregatorV2

/-!
What `Stop` may do to the other goroutines. It closes the channels one after the other and
waits for nothing in between, so that a goroutine can come to a send after the channel was
closed, and a send worker takes the closed channel for one with a task.
-/

namespace Arcturus.AggregatorV2

open TunnelHandler GoChannels StepRuns
open Aggregator (Config)

/-- How many channels `Stop` has closed: first the stop channel, then the input channel,
then the channel of the dispatcher and then those of the workers in their order. -/
def Sys.closings (s : Sys) : ℕ := s.stop.getD 0

/-- No goroutine has sent on a closed channel, and every task that was given to `sendPacket`
had been put into the channel of its worker. -/
def Orderly (s : Sys) : Prop := s.crashed = false ∧ ∀ e ∈ s.executed, e.2 = true

/-- A goroutine that is about to send does so before `Stop` closes the channel, and a worker
that looks for a task does so before `Stop` closes its channel or while there is one. -/
def InTime (s : Sys) : Action → Prop
  | .sendAlone i => ∀ task, (s.shards i).receiver = .sending task → s.closings < 3
  | .checkTimeout i _ => ∀ now item task expired,
      (s.shards i).timer = .sending now item task expired → s.closings < 3
  | .dispatch => ∀ task, s.dispatcher = .holding task → s.closings < s.workerOf task + 4
  | .work j => ∀ w : SendWorker, s.workers[j]? = some w → w.sending = none →
      w.taskCh.queue = [] → s.closings < j + 4
  | _ => True

/-- The closed channels are those that `Stop` has closed. -/
structure Closings (s : Sys) : Prop where
  input : s.inputChan.closed = true ↔ 2 ≤ s.closings
  tasks : s.sendTaskCh.closed = true ↔ 3 ≤ s.closings
  workers : ∀ (j : ℕ) (w : SendWorker), s.workers[j]? = some w →
    (w.taskCh.closed = true ↔ j + 4 ≤ s.closings)

section Closings
variable {cfg : Config} {s s' : Sys} {a : Action}

/-- The step closes nothing. -/
structure SameClosings (s s' : Sys) : Prop where
  stop : s'.stop = s.stop
  input : s'.inputChan.closed = s.inputChan.closed
  tasks : s'.sendTaskCh.closed = s.sendTaskCh.closed
  workers : ∀ (j : ℕ) (w' : SendWorker), s'.workers[j]? = some w' →
    ∃ w, s.workers[j]? = some w ∧ w'.taskCh.closed = w.taskCh.closed

theorem Closings.same (hs : Closings s) (h : SameClosings s s') : Closings s' := by
  have hclosings : s'.closings = s.closings := by rw [Sys.closings, h.stop, Sys.closings]
  constructor
  case input => rw [h.input, hclosings, hs.input]
  case tasks => rw [h.tasks, hclosings, hs.tasks]
  case workers =>
    intro j w' hw'
    obtain ⟨w, hw, hclosed⟩ := h.workers j w' hw'
    rw [hclosed, hclosings, hs.workers j w hw]

theorem workers_set_same {workers : List SendWorker} {i : ℕ} {w v : SendWorker}
    (hw : workers[i]? = some w) (hv : v.taskCh.closed = w.taskCh.closed) (j : ℕ)
    (w' : SendWorker) (hw' : (workers.set i v)[j]? = some w') :
    ∃ u, workers[j]? = some u ∧ w'.taskCh.closed = u.taskCh.closed := by
  rcases getElem?_set_eq_some.mp hw' with ⟨rfl, -, rfl⟩ | ⟨-, hold⟩
  · exact ⟨w, hw, hv⟩
  · exact ⟨w', hold, rfl⟩

theorem workers_same (workers : List SendWorker) (j : ℕ) (w' : SendWorker)
    (hw' : workers[j]? = some w') : ∃ w, workers[j]? = some w ∧
      w'.taskCh.closed = w.taskCh.closed := ⟨w', hw', rfl⟩

theorem Internal.sameClosings (h : Internal s s') : SameClosings s s' := by
  obtain ⟨now, shards, eviction, pool, -, -, rfl⟩ := h
  exact ⟨rfl, rfl, rfl, workers_same s.workers⟩

theorem HandsOver.sameClosings {task : SendTask} (h : HandsOver s task s') :
    SameClosings s s' := by
  rcases h with ⟨-, ⟨-, rfl⟩ | ⟨ch, shards, hsent, -, rfl⟩⟩
  · exact ⟨rfl, rfl, rfl, workers_same s.workers⟩
  · exact ⟨rfl, rfl, Chan.closed_of_send hsent, workers_same s.workers⟩

theorem sameClosings_dispatch (h : s.dispatch = some s') : SameClosings s s' := by
  rcases dispatch_cases h with ⟨dispatcher, ch, -, hch, -, rfl⟩ |
    ⟨task, w, -, hw, ⟨-, rfl⟩ | ⟨ch, hsent, rfl⟩⟩
  · exact ⟨rfl, rfl, hch, workers_same s.workers⟩
  · exact ⟨rfl, rfl, rfl, workers_same s.workers⟩
  · exact ⟨rfl, rfl, rfl, workers_set_same hw (Chan.closed_of_send hsent)⟩

theorem sameClosings_work {j : ℕ} (h : s.work j = some s') : SameClosings s s' := by
  obtain ⟨w, hw, ⟨task, -, rfl⟩ | ⟨-, task, ch, hreceive, rfl⟩⟩ := work_cases h
  · exact ⟨rfl, rfl, rfl, workers_set_same hw rfl⟩
  · exact ⟨rfl, rfl, rfl, workers_set_same hw (Chan.closed_of_receive hreceive)⟩

theorem sameClosings_addToBatch {msg : AggregatorMsg} (h : s.addToBatch msg = some s') :
    SameClosings s s' := by
  obtain ⟨-, ⟨-, rfl⟩ | ⟨ch, hsent, rfl⟩⟩ := addToBatch_cases h
  · exact ⟨rfl, rfl, rfl, workers_same s.workers⟩
  · exact ⟨rfl, Chan.closed_of_send hsent, rfl, workers_same s.workers⟩

theorem sameClosings_receive {i : Fin shardCount} (h : s.receive cfg i = some s') :
    SameClosings s s' := by
  rcases receive_cases h with ⟨-, hinternal⟩ | ⟨msg, ch, shards, pool, hreceive, -, -, rfl⟩
  · exact hinternal.sameClosings
  · exact ⟨rfl, Chan.closed_of_receive hreceive, rfl, workers_same s.workers⟩

/-- `Stop` closes one channel at a time. -/
theorem closings_stopNext (hs : Closings s) (h : s.stopNext = some s') : Closings s' := by
  obtain ⟨hinput, htasks, hworkers⟩ := hs
  rcases stopNext_cases h with ⟨hstop, rfl⟩ | ⟨hstop, rfl⟩ | ⟨hstop, rfl⟩ | ⟨hstop, rfl⟩ |
    ⟨k, hstop, rfl⟩
  case inr.inr.inr.inr =>
    simp only [Sys.closings, hstop, Option.getD_some] at hinput htasks hworkers
    refine ⟨?_, ?_, ?_⟩
    · rw [hinput, Sys.closings, Option.getD_some]
      omega
    · rw [htasks, Sys.closings, Option.getD_some]
      omega
    · intro j w' hw'
      obtain ⟨w, hw, rfl⟩ := getElem?_modify_eq_some.mp hw'
      have hold := hworkers j w hw
      rw [Sys.closings, Option.getD_some]
      by_cases hjk : k = j
      · simp [hjk, Chan.close]
      · rw [if_neg hjk, hold]
        omega
  all_goals
    simp only [Sys.closings, hstop, Option.getD_none, Option.getD_some] at hinput htasks hworkers
    simp only [Nat.reduceLeDiff, iff_false, iff_true] at hinput htasks
    refine ⟨by simp [Sys.closings, Chan.close, hinput], ?_, ?_⟩
    · simp [Sys.closings, Chan.close, htasks]
    · intro j w hw
      have hold := hworkers j w hw
      rw [hold]
      simp [Sys.closings]

theorem closings_step (hs : Closings s) (h : step cfg s a = some s') : Closings s' := by
  have hrunning : ¬ s.crashed = true := by simp [not_crashed_of_step h]
  unfold step at h
  rw [if_neg hrunning] at h
  cases a with
  | addToBatch msg => exact hs.same (sameClosings_addToBatch h)
  | receive i => exact hs.same (sameClosings_receive h)
  | handle i t => exact hs.same (handle_internal h).sameClosings
  | sendAlone i =>
    obtain ⟨task, -, hover⟩ := sendAlone_handsOver h
    exact hs.same hover.sameClosings
  | checkTimeout i t =>
    rcases checkTimeout_cases h with ⟨hinternal, -⟩ | ⟨_, _, task, _, -, hover⟩
    · exact hs.same hinternal.sameClosings
    · exact hs.same hover.sameClosings
  | returnTimer i => exact hs.same (returnTimer_internal h).sameClosings
  | evictStaleBatches t k => exact hs.same (evictStaleBatches_internal h).sameClosings
  | returnEviction => exact hs.same (returnEviction_internal h).sameClosings
  | dispatch => exact hs.same (sameClosings_dispatch h)
  | work j => exact hs.same (sameClosings_work h)
  | recycle pool => exact hs.same (recycle_internal h).sameClosings
  | stop => exact closings_stopNext hs h

theorem closings_new (aggWorkerCount : ℤ) : Closings (newAggregatorV2 aggWorkerCount) := by
  refine ⟨by simp [newAggregatorV2, Chan.make, Sys.closings],
    by simp [newAggregatorV2, Chan.make, Sys.closings], ?_⟩
  intro j w hw
  have hmem : w ∈ List.replicate _ _ := List.mem_of_getElem? hw
  rw [List.eq_of_mem_replicate hmem]
  simp [newAggregatorV2, Chan.make, Sys.closings]

end Closings

section Steps
variable {cfg : Config} {s s' : Sys} {a : Action}

theorem not_orderly_crashed : ¬ Orderly { s with crashed := true } := fun h => by cases h.1

theorem Internal.orderly (h : Internal s s') (hs : Orderly s) : Orderly s' := by
  obtain ⟨now, shards, eviction, pool, -, -, rfl⟩ := h
  exact hs

/-- A task gets to the dispatcher if `Stop` has not closed its channel. -/
theorem HandsOver.orderly_iff {task : SendTask} (h : HandsOver s task s') (hs : Orderly s)
    (hc : Closings s) : Orderly s' ↔ s.closings < 3 := by
  rcases h with ⟨-, ⟨hclosed, rfl⟩ | ⟨ch, shards, hsent, -, rfl⟩⟩
  · have hlate : 3 ≤ s.closings := hc.tasks.mp hclosed
    exact iff_of_false not_orderly_crashed (by omega)
  · have hopen : ¬ s.sendTaskCh.closed = true := by
      intro hclosed
      rw [Chan.send_eq_panics_iff.mpr hclosed] at hsent
      cases hsent
    rw [hc.tasks] at hopen
    exact iff_of_true hs (by omega)

theorem orderly_addToBatch {msg : AggregatorMsg} (hs : Orderly s) (hc : Closings s)
    (h : s.addToBatch msg = some s') : Orderly s' := by
  obtain ⟨hstop, ⟨hclosed, -⟩ | ⟨ch, -, rfl⟩⟩ := addToBatch_cases h
  · have hlate := hc.input.mp hclosed
    simp [Sys.closings, hstop] at hlate
  · exact hs

theorem orderly_dispatch_iff (hs : Orderly s) (hc : Closings s) (h : s.dispatch = some s') :
    Orderly s' ↔ InTime s .dispatch := by
  rcases dispatch_cases h with ⟨dispatcher, ch, hnone, -, -, rfl⟩ | ⟨task, w, htask, hw, hsend⟩
  · exact iff_of_true hs fun task htask => absurd htask (hnone task)
  · have hintime : InTime s .dispatch ↔ s.closings < s.workerOf task + 4 := by
      simp [InTime, htask]
    have hclosed := hc.workers _ w hw
    rw [hintime]
    rcases hsend with ⟨hpanics, rfl⟩ | ⟨ch, hsent, rfl⟩
    · have hlate := hclosed.mp hpanics
      exact iff_of_false not_orderly_crashed (by omega)
    · have hopen : ¬ w.taskCh.closed = true := by
        intro hpanics
        rw [Chan.send_eq_panics_iff.mpr hpanics] at hsent
        cases hsent
      rw [hclosed] at hopen
      exact iff_of_true hs (by omega)

theorem orderly_executed_iff (hs : Orderly s) {workers : List SendWorker} {task : SendTask}
    {ok : Bool} : Orderly { s with workers := workers, executed := s.executed ++ [(task, ok)] } ↔
      ok = true := by
  unfold Orderly
  constructor
  · exact fun h => h.2 (task, ok) (by simp)
  · intro hok
    refine ⟨hs.1, ?_⟩
    intro e he
    rcases List.mem_append.mp he with hold | hnew
    · exact hs.2 e hold
    · rw [List.mem_singleton.mp hnew]
      exact hok

theorem orderly_work_iff {j : ℕ} (hs : Orderly s) (hc : Closings s) (h : s.work j = some s') :
    Orderly s' ↔ InTime s (.work j) := by
  obtain ⟨w, hw, ⟨task, hbusy, rfl⟩ | ⟨hfree, task, ch, hreceive, rfl⟩⟩ := work_cases h
  · refine iff_of_true hs ?_
    intro w' hw' hfree
    cases Option.some.inj (hw.symm.trans hw')
    rw [hbusy] at hfree
    cases hfree
  · have hintime : InTime s (.work j) ↔ (w.taskCh.queue = [] → s.closings < j + 4) := by
      simp [InTime, hw, hfree]
    rw [orderly_executed_iff hs, hintime]
    cases task with
    | some task =>
      have hqueue := Chan.queue_of_receive_some hreceive
      simp [hqueue]
    | none =>
      obtain ⟨hempty, hclosed, -⟩ := Chan.receive_eq_none_iff.mp hreceive
      have hlate := (hc.workers j w hw).mp hclosed
      refine iff_of_false (by simp) ?_
      intro hintime
      exact absurd (hintime hempty) (by omega)

theorem orderly_step_iff (hs : Orderly s) (hc : Closings s) (h : step cfg s a = some s') :
    Orderly s' ↔ InTime s a := by
  have hrunning : ¬ s.crashed = true := by simp [not_crashed_of_step h]
  unfold step at h
  rw [if_neg hrunning] at h
  cases a with
  | addToBatch msg => exact iff_of_true (orderly_addToBatch hs hc h) trivial
  | receive i =>
    refine iff_of_true ?_ trivial
    rcases receive_cases h with ⟨-, hinternal⟩ | ⟨msg, ch, shards, pool, -, -, -, rfl⟩
    · exact hinternal.orderly hs
    · exact hs
  | handle i t => exact iff_of_true ((handle_internal h).orderly hs) trivial
  | sendAlone i =>
    obtain ⟨task, htask, hover⟩ := sendAlone_handsOver h
    rw [hover.orderly_iff hs hc]
    simp [InTime, htask]
  | checkTimeout i t =>
    rcases checkTimeout_cases h with ⟨hinternal, hnone⟩ | ⟨now, item, task, expired, htimer, hover⟩
    · refine iff_of_true (hinternal.orderly hs) ?_
      intro now item task expired htimer
      exact absurd htimer (hnone now item task expired)
    · rw [hover.orderly_iff hs hc]
      constructor
      · exact fun hearly _ _ _ _ _ => hearly
      · exact fun hintime => hintime now item task expired htimer
  | returnTimer i => exact iff_of_true ((returnTimer_internal h).orderly hs) trivial
  | evictStaleBatches t k => exact iff_of_true ((evictStaleBatches_internal h).orderly hs) trivial
  | returnEviction => exact iff_of_true ((returnEviction_internal h).orderly hs) trivial
  | dispatch => exact orderly_dispatch_iff hs hc h
  | work j => exact orderly_work_iff hs hc h
  | recycle pool => exact iff_of_true ((recycle_internal h).orderly hs) trivial
  | stop =>
    refine iff_of_true ?_ trivial
    rcases stopNext_cases h with ⟨-, rfl⟩ | ⟨-, rfl⟩ | ⟨-, rfl⟩ | ⟨-, rfl⟩ | ⟨k, -, rfl⟩
    all_goals exact hs

end Steps

/-- In every run, no goroutine sends on a closed channel and no worker sends a packet for a
task that nobody put into its channel, if and only if all sends come before `Stop` closes
the channel and no worker looks for a task in a channel that is closed and empty. -/
theorem stop_orderly_iff (cfg : Config) (aggWorkerCount : ℤ) (actions : List Action) :
    AllSteps (step cfg) (fun s a => ∀ s', step cfg s a = some s' → Orderly s')
        (newAggregatorV2 aggWorkerCount) actions ↔
      AllSteps (step cfg) (fun s a => ∀ s', step cfg s a = some s' → InTime s a)
        (newAggregatorV2 aggWorkerCount) actions := by
  have hnew : Orderly (newAggregatorV2 aggWorkerCount) := ⟨rfl, by simp [newAggregatorV2]⟩
  refine allSteps_congr_of_kept (fun s a s' (hs : Orderly s ∧ Closings s) hintime h => ?_) ?_
    ⟨hnew, closings_new aggWorkerCount⟩
  · exact ⟨(orderly_step_iff hs.1 hs.2 h).mpr (hintime s' h), closings_step hs.2 h⟩
  · intro s a hs
    exact forall_congr' fun s' => imp_congr_right fun h => orderly_step_iff hs.1 hs.2 h

section Samples

def shortTimeout : Config := ⟨1500, 50, fun _ => none⟩

def urgentMessage : AggregatorMsg :=
  ⟨true, "", "tcp", 8081, ["10.0.0.1", "10.0.0.2"], some 167772162, 7, [1, 2, 3]⟩

/-- A message is taken before `Stop` is called and sent on after the channel is closed. -/
def lateSend : List Action :=
  [.addToBatch urgentMessage, .receive ⟨5, by decide⟩, .stop, .stop, .stop, .stop,
    .sendAlone ⟨5, by decide⟩]

/-- `Stop` is called without any messages, and the first worker goes on. -/
def lateWork : List Action := [.stop, .stop, .stop, .stop, .stop, .work 0]

/-- The goroutine of the shard panics; the worker sends the zero task. -/
theorem stop_not_orderly :
    (∃ s, run (step shortTimeout) (newAggregatorV2 8) lateSend = some s ∧
      s.accepted = [urgentMessage] ∧ s.crashed = true ∧ ¬ Orderly s) ∧
    ∃ s, run (step shortTimeout) (newAggregatorV2 8) lateWork = some s ∧
      s.executed = [(default, false)] ∧ ¬ Orderly s := by
  have hsend : (run (step shortTimeout) (newAggregatorV2 8) lateSend).map
      (fun s => (s.accepted, s.crashed)) = some ([urgentMessage], true) := by decide +kernel
  have hwork : (run (step shortTimeout) (newAggregatorV2 8) lateWork).map
      (fun s => s.executed) = some [(default, false)] := by decide +kernel
  obtain ⟨s, hs, heq⟩ := Option.map_eq_some_iff.mp hsend
  obtain ⟨s', hs', hexecuted⟩ := Option.map_eq_some_iff.mp hwork
  obtain ⟨haccepted, hcrashed⟩ := Prod.mk.inj heq
  refine ⟨⟨s, hs, haccepted, hcrashed, ?_⟩, s', hs', hexecuted, ?_⟩
  · intro horderly
    rw [horderly.1] at hcrashed
    cases hcrashed
  · intro horderly
    have hfalse := horderly.2 (default, false) (by rw [hexecuted]; exact List.mem_singleton_self _)
    cases hfalse

end Samples

end Arcturus.AggregatorV2
