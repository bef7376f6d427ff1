import Arcturus.EwmaRouter
import Arcturus.MovingAverages
import Arcturus.OrderStatistics
import Arcturus.Upserts

/-!
The averages that the smoothing router stores, after any sequence of updates. The two measures
and all nodes are kept apart, so that what is stored for a node comes from its own observations
in their order.
-/

namespace Arcturus.EwmaHistory

open GoMaps EdgeSolvers EwmaRouter Upserts MovingAverages OrderStatistics

inductive Update (K : Type*) where
  | cpu (nodeIP : String) (cpuUsage : K)
  | latency (nodeIP : String) (latency : K)

variable {K : Type*}

def cpuUpdates (updates : List (Update K)) : List (String × K) :=
  updates.filterMap fun u => match u with
    | .cpu nodeIP cpuUsage => some (nodeIP, cpuUsage)
    | .latency _ _ => none

def latencyUpdates (updates : List (Update K)) : List (String × K) :=
  updates.filterMap fun u => match u with
    | .cpu _ _ => none
    | .latency nodeIP latency => some (nodeIP, latency)

/-- The values that were observed for a node. -/
def valuesAt (observed : List (String × K)) (ip : String) : List K :=
  (observed.filter fun o => o.1 = ip).map Prod.snd

variable [Field K]

def apply (r : EWMARouter K) : Update K → EWMARouter K
  | .cpu nodeIP cpuUsage => r.updateEWMACPU nodeIP cpuUsage
  | .latency nodeIP latency => r.updateEWMALatency nodeIP latency

def run (r : EWMARouter K) (updates : List (Update K)) : EWMARouter K := updates.foldl apply r

def updateAll (alpha : K) (ewma : GoMap String (Option K)) (observed : List (String × K)) :
    GoMap String (Option K) :=
  observed.foldl (fun ewma o => updateEWMA alpha ewma o.1 o.2) ewma

/-- Every update goes to the map of its measure. -/
theorem run_eq (updates : List (Update K)) (r : EWMARouter K) :
    run r updates = { r with
      cpuEWMA := updateAll r.cpuAlpha r.cpuEWMA (cpuUpdates updates)
      latEWMA := updateAll r.latAlpha r.latEWMA (latencyUpdates updates) } := by
  induction updates generalizing r with
  | nil => rfl
  | cons u updates ih =>
    change run (apply r u) updates = _
    rw [ih]
    cases u with
    | cpu nodeIP cpuUsage => rfl
    | latency nodeIP latency => rfl

/-- A node has what its own observations make of the value before. -/
theorem updateAll_val (alpha : K) (ewma : GoMap String (Option K)) (observed : List (String × K))
    (ip : String) : (updateAll alpha ewma observed).val ip =
      combined (smoothed alpha) (valuesAt observed ip) (ewma.val ip) := by
  change (observed.foldl (upsert Prod.fst fun current o => smoothed alpha current o.2) ewma).val ip
    = _
  rw [foldl_upsert_val]
  unfold combined valuesAt
  rw [List.foldl_map]

/-- The recursion of the source computes the weighted sum. -/
theorem combined_smoothed (alpha : K) {xs : List K} (hne : xs ≠ []) :
    combined (smoothed alpha) xs none = some (expanded alpha xs) := by
  induction xs using List.reverseRecOn with
  | nil => exact absurd rfl hne
  | append_singleton xs x ih =>
    unfold combined at ih ⊢
    rw [List.foldl_append]
    by_cases hxs : xs = []
    · subst hxs
      rw [List.nil_append, expanded_singleton]
      rfl
    · rw [ih hxs, expanded_concat alpha hxs]
      rfl

variable [LinearOrder K]

/-- What is stored for these observations: nothing if there is none, or else their weighted
sum, which lies between the least and the largest of them. -/
def Averages (alpha : K) (xs : List K) (stored : Option K) : Prop :=
  if xs = [] then stored = none
  else stored = some (expanded alpha xs) ∧ ∃ lo ∈ xs, ∃ hi ∈ xs, (∀ x ∈ xs, lo ≤ x ∧ x ≤ hi) ∧
    lo ≤ expanded alpha xs ∧ expanded alpha xs ≤ hi

theorem averages_combined [IsStrictOrderedRing K] {alpha : K} (h0 : 0 ≤ alpha) (h1 : alpha ≤ 1)
    (xs : List K) : Averages alpha xs (combined (smoothed alpha) xs none) := by
  unfold Averages
  split
  · rename_i hnil
    rw [hnil]
    rfl
  · rename_i hne
    obtain ⟨lo, hlo, hi, hhi, hall⟩ := exists_bounds hne
    exact ⟨combined_smoothed alpha hne, lo, hlo, hi, hhi, hall, expanded_between h0 h1 hne hall⟩

/-- After any updates of a router with some smoothing factor, the stored values of a node are
the averages of its own observations, and other updates make no difference to them. -/
theorem stored_averages [IsStrictOrderedRing K] (snap : Snapshot K) (alpha lambda : K)
    (h0 : 0 ≤ alpha) (h1 : alpha ≤ 1) (updates : List (Update K)) (ip : String) :
    Averages alpha (valuesAt (cpuUpdates updates) ip)
        ((run ((newEWMARouter snap).setAlpha alpha lambda) updates).cpuEWMA.val ip) ∧
      Averages alpha (valuesAt (latencyUpdates updates) ip)
        ((run ((newEWMARouter snap).setAlpha alpha lambda) updates).latEWMA.val ip) ∧
      (∀ updates', valuesAt (cpuUpdates updates') ip = valuesAt (cpuUpdates updates) ip →
        (run ((newEWMARouter snap).setAlpha alpha lambda) updates').cpuEWMA.val ip =
          (run ((newEWMARouter snap).setAlpha alpha lambda) updates).cpuEWMA.val ip) ∧
      ∀ updates', valuesAt (latencyUpdates updates') ip = valuesAt (latencyUpdates updates) ip →
        (run ((newEWMARouter snap).setAlpha alpha lambda) updates').latEWMA.val ip =
          (run ((newEWMARouter snap).setAlpha alpha lambda) updates).latEWMA.val ip := by
  have hcpu : ∀ us : List (Update K),
      (run ((newEWMARouter snap).setAlpha alpha lambda) us).cpuEWMA.val ip =
        combined (smoothed alpha) (valuesAt (cpuUpdates us) ip) none := by
    intro us
    rw [run_eq]
    exact updateAll_val ..
  have hlat : ∀ us : List (Update K),
      (run ((newEWMARouter snap).setAlpha alpha lambda) us).latEWMA.val ip =
        combined (smoothed alpha) (valuesAt (latencyUpdates us) ip) none := by
    intro us
    rw [run_eq]
    exact updateAll_val ..
  refine ⟨?_, ?_, ?_, ?_⟩
  · rw [hcpu]
    exact averages_combined h0 h1 _
  · rw [hlat]
    exact averages_combined h0 h1 _
  · intro updates' heq
    rw [hcpu, hcpu, heq]
  · intro updates' heq
    rw [hlat, hlat, heq]

def sampleRouter : EWMARouter ℚ :=
  (newEWMARouter ⟨Nodes.empty, EdgeAgg.empty, ""⟩).setAlpha (3 / 10) (7 / 10)

def sampleUpdates : List (Update ℚ) :=
  [.cpu "node1" 50, .latency "node1" 20, .cpu "node2" 5, .cpu "node1" 100]

theorem sampleUpdates_averages : (0 : ℚ) ≤ 3 / 10 ∧ (3 / 10 : ℚ) ≤ 1 ∧
    Averages (3 / 10) [50, 100] ((run sampleRouter sampleUpdates).cpuEWMA.val "node1") ∧
    (run sampleRouter sampleUpdates).getCPUEWMA "node1" = 65 := by
  have h0 : (0 : ℚ) ≤ 3 / 10 := by norm_num
  have h1 : (3 / 10 : ℚ) ≤ 1 := by norm_num
  refine ⟨h0, h1, ?_, by decide +kernel⟩
  exact (stored_averages ⟨Nodes.empty, EdgeAgg.empty, ""⟩ (3 / 10) (7 / 10) h0 h1 sampleUpdates
    "node1").1

end Arcturus.EwmaHistory
