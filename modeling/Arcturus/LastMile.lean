import Arcturus.Upserts
import Mathlib.Algebra.Order.Ring.Rat
import Mathlib.Algebra.BigOperators.Group.List.Basic

/-!
The statistics of the last mile: what each node has reported, and the aggregate that is
made of all reports. An aggregate is made in any order of the reports and of their
entries; what it holds for a key does not depend on the order. A nil entry panics. Sums
are exact.
-/

namespace Arcturus.LastMile

open GoMaps Upserts

/-- The kind of a watch event; a put is neither a creation nor a change of a key only if
the store breaks its promise. -/
inductive EventType where
  | create
  | update
  | delete
  | unknown
  deriving DecidableEq, Repr

structure LastCongestion where
  count : ℤ
  sumRT : ℚ
  avgRT : ℚ
  p95RT : ℤ
  deriving DecidableEq, Repr

instance : Inhabited LastCongestion := ⟨0, 0, 0, 0⟩

structure LastTelemetry where
  lastsCongestion : GoMap String (Option LastCongestion)
  ip : String

instance : Inhabited LastTelemetry := ⟨GoMap.empty, ""⟩

abbrev NodeLast := GoMap String (Option LastTelemetry)

abbrev EdgeAgg := GoMap String (Option LastCongestion)

structure GlobalStats where
  nodeLast : NodeLast
  edgeAgg : EdgeAgg

def newGlobalStats : GlobalStats := ⟨GoMap.empty, GoMap.empty⟩

/-- A report without an address is ignored. -/
def GlobalStats.addOrUpdateNode (g : GlobalStats) (node : LastTelemetry) : GlobalStats :=
  if node.ip = "" then g else { g with nodeLast := g.nodeLast.set node.ip (some node) }

def GlobalStats.delNode (g : GlobalStats) (nodeIP : String) : GlobalStats :=
  { g with nodeLast := g.nodeLast.erase nodeIP }

/-- The first half of the rebuild: copy the reports under the read lock. -/
def nodeList (nodeLast : NodeLast) (order : List String) : List LastTelemetry :=
  order.filterMap nodeLast.val

/-- The order in which the entries of each report are taken. -/
abbrev Orders := (n : LastTelemetry) → n.lastsCongestion.Range

/-- The entries of the reports with the keys of the aggregate; none for a nil entry. -/
def keyedEntries (nodes : List LastTelemetry) (orders : Orders) :
    Option (List (String × LastCongestion)) :=
  (nodes.flatMap fun node => (orders node).keys.map fun userKey =>
    (userKey ++ "-" ++ node.ip, node.lastsCongestion.val userKey)).mapM fun entry =>
      entry.2.map fun val => (entry.1, val)

/-- Add an entry to the sums of its key. -/
def accumulate (o : Option LastCongestion) (entry : String × LastCongestion) : LastCongestion :=
  let s := o.getD default
  { s with count := s.count + entry.2.count, sumRT := s.sumRT + entry.2.avgRT * entry.2.count }

def average (s : LastCongestion) : LastCongestion :=
  if s.count > 0 then { s with avgRT := s.sumRT / s.count } else s

/-- The loop that turns the sums into averages. -/
def averageAll (newAgg : EdgeAgg) : EdgeAgg :=
  newAgg.keys.foldl (fun m key => m.set key ((newAgg.val key).map average)) newAgg

/-- The second half of the rebuild, up to the write lock. -/
def rebuildAggregate (nodes : List LastTelemetry) (orders : Orders) : Option EdgeAgg := do
  let entries ← keyedEntries nodes orders
  return averageAll (entries.foldl (upsert Prod.fst accumulate) GoMap.empty)

/-- The reports that are stored. -/
def reports (nodeLast : NodeLast) : List LastTelemetry := nodeLast.keys.filterMap nodeLast.val

/-- The entries of a report with the keys of the aggregate. -/
def entriesOf (node : LastTelemetry) : List (String × LastCongestion) :=
  node.lastsCongestion.keys.filterMap fun userKey =>
    (node.lastsCongestion.val userKey).map fun val => (userKey ++ "-" ++ node.ip, val)

/-- The statistics over several entries, none over no entry. -/
def summary (vals : List LastCongestion) : Option LastCongestion :=
  if vals = [] then none
  else
    let count := (vals.map (·.count)).sum
    let sumRT := (vals.map fun v => v.avgRT * (v.count : ℚ)).sum
    some { count, sumRT, avgRT := if count > 0 then sumRT / count else 0, p95RT := 0 }

/-- What the aggregate of these reports should hold for a key. -/
def aggregateOf (nodes : List LastTelemetry) (key : String) : Option LastCongestion :=
  summary (((nodes.flatMap entriesOf).filter fun entry => entry.1 = key).map Prod.snd)

/-- The aggregate of all reports. -/
def aggregate (nodeLast : NodeLast) : String → Option LastCongestion :=
  aggregateOf (reports nodeLast)

theorem summary_perm {vals vals' : List LastCongestion} (h : vals.Perm vals') :
    summary vals = summary vals' := by
  unfold summary
  rw [(h.map _).sum_eq, (h.map fun v => v.avgRT * (v.count : ℚ)).sum_eq]
  have hnil : vals = [] ↔ vals' = [] := by
    rw [← List.length_eq_zero_iff, h.length_eq, List.length_eq_zero_iff]
  simp only [hnil]

theorem aggregateOf_perm {nodes nodes' : List LastTelemetry} (h : nodes.Perm nodes') :
    aggregateOf nodes = aggregateOf nodes' := by
  funext key
  exact summary_perm (((h.flatMap_right _).filter _).map _)

/-- The sums of a key run over its entries. -/
theorem combined_accumulate (entries : List (String × LastCongestion)) (s : LastCongestion) :
    combined accumulate entries (some s) = some { s with
      count := s.count + (entries.map fun e => e.2.count).sum
      sumRT := s.sumRT + (entries.map fun e => e.2.avgRT * (e.2.count : ℚ)).sum } := by
  induction entries generalizing s with
  | nil => simp [combined]
  | cons e entries ih =>
    have hcons : combined accumulate (e :: entries) (some s) =
      combined accumulate entries (some (accumulate (some s) e)) := rfl
    rw [hcons, ih]
    simp [accumulate, add_assoc]

theorem combined_accumulate_average (entries : List (String × LastCongestion)) :
    (combined accumulate entries none).map average = summary (entries.map Prod.snd) := by
  cases entries with
  | nil => rfl
  | cons e entries =>
    have hcons : combined accumulate (e :: entries) none =
      combined accumulate entries (some (accumulate none e)) := rfl
    rw [hcons, combined_accumulate]
    simp only [Option.map_some, summary, average, accumulate, List.map_cons, List.sum_cons,
      List.map_map, Function.comp_def, Option.getD_none, reduceCtorEq, if_false, Option.some.injEq]
    simp only [default, zero_add]
    split <;> rfl

theorem averageAll_val (newAgg : EdgeAgg) (key : String) :
    (averageAll newAgg).val key = (newAgg.val key).map average := by
  unfold averageAll
  rcases GoMap.foldl_set_val (fun k => k) (fun k => (newAgg.val k).map average) newAgg.keys newAgg
    key with ⟨k, -, rfl, hval⟩ | ⟨hnone, hval⟩
  · exact hval
  · rw [hval]
    have habsent : key ∉ newAgg.keys := fun hmem => hnone key hmem rfl
    rw [newAgg.absent key habsent]
    rfl

/-- A loop that meets no error collects what the entries give. -/
theorem filterMap_of_mapM {α β : Type} {f : α → Option β} {l : List α} {r : List β}
    (h : l.mapM f = some r) : l.filterMap f = r := by
  induction l generalizing r with
  | nil => simpa using h
  | cons a l ih =>
    rw [List.mapM_cons] at h
    obtain ⟨b, hb, hrest⟩ := Option.bind_eq_some_iff.mp h
    obtain ⟨rest, hl, hr⟩ := Option.bind_eq_some_iff.mp hrest
    rw [Option.pure_def, Option.some.injEq] at hr
    rw [List.filterMap_cons_some hb, ih hl, hr]

/-- Without a nil entry the entries are those of the reports, in some order. -/
theorem keyedEntries_perm {nodes : List LastTelemetry} {orders : Orders}
    {entries : List (String × LastCongestion)} (h : keyedEntries nodes orders = some entries) :
    entries.Perm (nodes.flatMap entriesOf) := by
  rw [← filterMap_of_mapM h, List.filterMap_flatMap]
  apply List.Perm.flatMap_left
  intro node _
  rw [List.filterMap_map]
  exact (orders node).perm.filterMap _

/-- Whatever the orders, a rebuild that does not panic gives the aggregate. -/
theorem rebuildAggregate_val {nodes : List LastTelemetry} {orders : Orders} {newAgg : EdgeAgg}
    (h : rebuildAggregate nodes orders = some newAgg) : newAgg.val = aggregateOf nodes := by
  unfold rebuildAggregate at h
  obtain ⟨entries, hentries, hagg⟩ := Option.bind_eq_some_iff.mp h
  rw [Option.pure_def, Option.some.injEq] at hagg
  subst hagg
  funext key
  rw [averageAll_val, foldl_upsert_val]
  refine (combined_accumulate_average _).trans ?_
  exact summary_perm (((keyedEntries_perm hentries).filter _).map _)

/-- A copy of the reports is all of them, in some order. -/
theorem nodeList_perm {nodeLast : NodeLast} {order : List String}
    (h : order.Perm nodeLast.keys) : (nodeList nodeLast order).Perm (reports nodeLast) :=
  h.filterMap _

/-- A loop meets an error iff one of the entries has one. -/
theorem mapM_eq_none_iff {α β : Type} {f : α → Option β} {l : List α} :
    l.mapM f = none ↔ ∃ a ∈ l, f a = none := by
  induction l with
  | nil => simp
  | cons a l ih =>
    rw [List.mapM_cons, List.exists_mem_cons_iff, ← ih]
    cases f a with
    | none => simp
    | some b =>
      cases l.mapM f with
      | none => simp
      | some rest => simp

/-- Whatever the orders, a rebuild panics iff one of its reports has a nil entry. -/
theorem rebuildAggregate_eq_none_iff {nodes : List LastTelemetry} {orders : Orders} :
    rebuildAggregate nodes orders = none ↔ ∃ node ∈ nodes, ¬ node.lastsCongestion.NoNil := by
  have hentries : rebuildAggregate nodes orders = none ↔ keyedEntries nodes orders = none := by
    unfold rebuildAggregate
    cases keyedEntries nodes orders with
    | none => simp
    | some entries => simp
  rw [hentries, keyedEntries, mapM_eq_none_iff]
  simp only [List.mem_flatMap, List.mem_map, GoMap.NoNil, not_forall, not_not, exists_prop]
  constructor
  · rintro ⟨_, ⟨node, hnode, userKey, hkey, rfl⟩, hnil⟩
    exact ⟨node, hnode, userKey, (orders node).perm.mem_iff.mp hkey, by simpa using hnil⟩
  · rintro ⟨node, hnode, userKey, hkey, hnil⟩
    exact ⟨_, ⟨node, hnode, userKey, (orders node).perm.mem_iff.mpr hkey, rfl⟩, by simp [hnil]⟩

/-- A rebuild writes no nil entry. -/
theorem rebuildAggregate_noNil {nodes : List LastTelemetry} {orders : Orders} {newAgg : EdgeAgg}
    (h : rebuildAggregate nodes orders = some newAgg) : newAgg.NoNil := by
  obtain ⟨entries, -, hagg⟩ := Option.bind_eq_some_iff.mp h
  rw [Option.pure_def, Option.some.injEq] at hagg
  subst hagg
  have hsums : (entries.foldl (upsert Prod.fst accumulate) GoMap.empty).NoNil :=
    List.foldlRecOn entries _ GoMap.noNil_empty fun m hm entry _ =>
      hm.set entry.1 (Option.some_ne_none _)
  refine List.foldlRecOn _ _ hsums fun m hm key hkey => ?_
  refine hm.set key ?_
  rw [Ne, Option.map_eq_none_iff]
  exact hsums key hkey

end Arcturus.LastMile
