import Arcturus.AggregatorV2

/-!
How the messages get from the input channel to their shards. All sixteen goroutines take
from the one channel, and each drops what is not for its shard.
-/

namespace Arcturus.AggregatorV2

open TunnelHandler GoChannels StepRuns
open Aggregator (Config)

/-- Every message that was added and is no longer in the channel has been passed to
`handleMsg` once, by the shard of its routing key, and nothing else has. -/
def Delivered (s : Sys) : Prop :=
  ∃ taken, s.accepted = taken ++ s.inputChan.queue ∧
    s.handled.Perm (taken.map fun msg => (hashRoutingKey msg.routingKey, msg))

/-- The message that is taken is for the shard that takes it. -/
def OwnShard (s : Sys) : Action → Prop
  | .receive i => ∀ msg ∈ s.inputChan.queue.head?, hashRoutingKey msg.routingKey = i
  | _ => True

section Steps
variable {cfg : Config} {s s' : Sys} {a : Action}

/-- A step that leaves the messages where they are. -/
theorem delivered_congr (haccepted : s'.accepted = s.accepted)
    (hqueue : s'.inputChan.queue = s.inputChan.queue) (hhandled : s'.handled = s.handled) :
    Delivered s' ↔ Delivered s := by
  unfold Delivered
  rw [haccepted, hqueue, hhandled]

theorem Internal.delivered (h : Internal s s') : Delivered s' ↔ Delivered s := by
  obtain ⟨now, shards, eviction, pool, -, -, rfl⟩ := h
  exact delivered_congr rfl rfl rfl

theorem HandsOver.delivered {task : SendTask} (h : HandsOver s task s') :
    Delivered s' ↔ Delivered s := by
  rcases h with ⟨-, ⟨-, rfl⟩ | ⟨ch, shards, -, -, rfl⟩⟩
  · exact delivered_congr rfl rfl rfl
  · exact delivered_congr rfl rfl rfl

theorem delivered_dispatch (h : s.dispatch = some s') : Delivered s' ↔ Delivered s := by
  rcases dispatch_cases h with
    ⟨dispatcher, ch, -, -, -, rfl⟩ | ⟨task, w, -, -, ⟨-, rfl⟩ | ⟨ch, -, rfl⟩⟩
  · exact delivered_congr rfl rfl rfl
  · exact delivered_congr rfl rfl rfl
  · exact delivered_congr rfl rfl rfl

theorem delivered_work {j : ℕ} (h : s.work j = some s') : Delivered s' ↔ Delivered s := by
  obtain ⟨w, -, ⟨task, -, rfl⟩ | ⟨-, task, ch, -, rfl⟩⟩ := work_cases h
  · exact delivered_congr rfl rfl rfl
  · exact delivered_congr rfl rfl rfl

/-- Closing a channel leaves its messages in it. -/
theorem delivered_stopNext (h : s.stopNext = some s') : Delivered s' ↔ Delivered s := by
  rcases stopNext_cases h with ⟨-, rfl⟩ | ⟨-, rfl⟩ | ⟨-, rfl⟩ | ⟨-, rfl⟩ | ⟨k, -, rfl⟩
  all_goals exact delivered_congr rfl rfl rfl

theorem delivered_addToBatch {msg : AggregatorMsg} (hs : Delivered s)
    (h : s.addToBatch msg = some s') : Delivered s' := by
  obtain ⟨-, ⟨-, rfl⟩ | ⟨ch, hsent, rfl⟩⟩ := addToBatch_cases h
  · exact hs
  · obtain ⟨taken, haccepted, hhandled⟩ := hs
    refine ⟨taken, ?_, hhandled⟩
    show s.accepted ++ [msg] = taken ++ ch.queue
    rw [Chan.queue_of_send hsent, haccepted, List.append_assoc]

/-- A message that is taken is delivered exactly if it is for the shard that takes it. -/
theorem delivered_taken_iff {i : Fin shardCount} {msg : AggregatorMsg} {ch : Chan AggregatorMsg}
    {shards : Fin shardCount → Shard} {pool : List ℕ} (hs : Delivered s)
    (hreceive : s.inputChan.receive = some (some msg, ch)) :
    Delivered { s with
        inputChan := ch
        shards := shards
        pool := pool
        handled := if hashRoutingKey msg.routingKey = i then s.handled ++ [(i, msg)]
          else s.handled } ↔ hashRoutingKey msg.routingKey = i := by
  obtain ⟨taken, haccepted, hhandled⟩ := hs
  have hqueue : s.inputChan.queue = msg :: ch.queue := Chan.queue_of_receive_some hreceive
  have hsplit : s.accepted = (taken ++ [msg]) ++ ch.queue := by
    rw [haccepted, hqueue, List.append_assoc, List.singleton_append]
  constructor
  · rintro ⟨taken', haccepted', hhandled'⟩
    have htaken : taken' = taken ++ [msg] :=
      List.append_cancel_right (haccepted'.symm.trans hsplit)
    by_contra hother
    -- the call is missing, so that the lengths differ
    have hlength := hhandled'.length_eq
    have hlength' := hhandled.length_eq
    rw [if_neg hother, htaken] at hlength
    simp only [List.map_append, List.length_append, List.length_map, List.length_singleton]
      at hlength hlength'
    omega
  · intro hown
    refine ⟨taken ++ [msg], hsplit, ?_⟩
    rw [if_pos hown, List.map_append, List.map_singleton, hown]
    exact hhandled.append_right _

theorem delivered_step_iff (hs : Delivered s) (h : step cfg s a = some s') :
    Delivered s' ↔ OwnShard s a := by
  have hrunning : ¬ s.crashed = true := by simp [not_crashed_of_step h]
  unfold step at h
  rw [if_neg hrunning] at h
  cases a with
  | addToBatch msg => exact iff_of_true (delivered_addToBatch hs h) trivial
  | receive i =>
    rcases receive_cases h with
      ⟨hempty, hinternal⟩ | ⟨msg, ch, shards, pool, hreceive, -, -, rfl⟩
    · refine iff_of_true (hinternal.delivered.mpr hs) ?_
      simp [OwnShard, hempty]
    · rw [delivered_taken_iff hs hreceive]
      simp [OwnShard, Chan.queue_of_receive_some hreceive]
  | handle i t => exact iff_of_true ((handle_internal h).delivered.mpr hs) trivial
  | sendAlone i =>
    obtain ⟨task, -, hover⟩ := sendAlone_handsOver h
    exact iff_of_true (hover.delivered.mpr hs) trivial
  | checkTimeout i t =>
    rcases checkTimeout_cases h with ⟨hinternal, -⟩ | ⟨_, _, task, _, -, hover⟩
    · exact iff_of_true (hinternal.delivered.mpr hs) trivial
    · exact iff_of_true (hover.delivered.mpr hs) trivial
  | returnTimer i => exact iff_of_true ((returnTimer_internal h).delivered.mpr hs) trivial
  | evictStaleBatches t k =>
    exact iff_of_true ((evictStaleBatches_internal h).delivered.mpr hs) trivial
  | returnEviction => exact iff_of_true ((returnEviction_internal h).delivered.mpr hs) trivial
  | dispatch => exact iff_of_true ((delivered_dispatch h).mpr hs) trivial
  | work j => exact iff_of_true ((delivered_work h).mpr hs) trivial
  | recycle pool => exact iff_of_true ((recycle_internal h).delivered.mpr hs) trivial
  | stop => exact iff_of_true ((delivered_stopNext h).mpr hs) trivial

end Steps

theorem delivered_new (aggWorkerCount : ℤ) : Delivered (newAggregatorV2 aggWorkerCount) :=
  ⟨[], rfl, List.Perm.refl _⟩

/-- In every run, each message is passed to `handleMsg` exactly once, by the shard of its
routing key, if and only if every message is taken by the goroutine of that shard. -/
theorem dispatched_once_iff (cfg : Config) (aggWorkerCount : ℤ) (actions : List Action) :
    AllSteps (step cfg) (fun s a => ∀ s', step cfg s a = some s' → Delivered s')
        (newAggregatorV2 aggWorkerCount) actions ↔
      AllSteps (step cfg) (fun s a => ∀ s', step cfg s a = some s' → OwnShard s a)
        (newAggregatorV2 aggWorkerCount) actions := by
  refine allSteps_congr_of_kept ?_ ?_ (delivered_new aggWorkerCount)
  · intro s a s' hs hown h
    exact (delivered_step_iff hs h).mpr (hown s' h)
  · intro s a hs
    exact forall_congr' fun s' => imp_congr_right fun h => delivered_step_iff hs h

section Samples

/-- A message whose routing key belongs to another shard than the first one. -/
def strayMessage : AggregatorMsg :=
  ⟨true, "10.0.0.1", "tcp", 8081, ["10.0.0.1", "10.0.0.2"], some 167772162, 7, [1, 2, 3]⟩

theorem strayMessage_shard : hashRoutingKey strayMessage.routingKey ≠ ⟨0, by decide⟩ := by
  decide +kernel

def sampleConfig : Config := ⟨1500, 50, fun _ => none⟩

/-- The first shard takes the message and drops it. -/
theorem taken_by_other_shard : ∃ s s' : Sys,
    run (step sampleConfig) (newAggregatorV2 8) [.addToBatch strayMessage] = some s ∧
      step sampleConfig s (.receive ⟨0, by decide⟩) = some s' ∧ s'.accepted = [strayMessage] ∧
      s'.inputChan.queue = [] ∧ s'.handled = [] ∧ ¬ Delivered s' := by
  refine ⟨{ newAggregatorV2 8 with
      inputChan := ⟨inputChanSize, [strayMessage], false⟩, accepted := [strayMessage] },
    { newAggregatorV2 8 with accepted := [strayMessage] }, rfl, ?_, rfl, rfl, rfl, ?_⟩
  · simp [step, Sys.receive, newAggregatorV2, Shard.start, Aggregator.Worker.start, Chan.receive,
      strayMessage_shard, Chan.make]
  · rintro ⟨taken, haccepted, hhandled⟩
    have htaken : taken = [strayMessage] := by
      simpa [newAggregatorV2, Chan.make] using haccepted.symm
    have hlength := hhandled.length_eq
    rw [htaken] at hlength
    cases hlength

end Samples

end Arcturus.AggregatorV2
