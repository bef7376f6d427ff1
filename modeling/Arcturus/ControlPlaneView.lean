import Arcturus.Rebuilds
import Arcturus.ReportedEdges
import Arcturus.StoreWatchRuns

/-!
The control plane and the store. The nodes of the graph follow one prefix and the reports
of the last mile another one, which is read after the watch of the first was started. The
functions that read the values from their texts are parameters. The rebuilds of the
aggregate do not touch what is followed and are left out here.
-/

namespace Arcturus.ControlPlaneView

open GoMaps KeyedLogs LastMile NodeGraph StepRuns StoreWatch
open ReportedEdges (sampleMath)

/-- The order in which the links of each report are taken. -/
abbrev LinkOrders := (node : NodeTelemetry) → node.linksCongestion.Range

section Handlers
variable (math : Math) (unmarshal : String → Option NodeTelemetry)

/-- Handle an event of a node; its key is only logged. -/
def handleRoutingWatchEvent (r : GraphManager) (eventType : EventType) (val : String)
    (orders : LinkOrders) : GraphManager :=
  match if val = "" then some default else unmarshal val with
  | none => r
  | some tel =>
    match eventType with
    | .create | .update => r.addNode math tel (orders tel)
    | .delete => r.removeNode tel.publicIP
    | .unknown => r

def middleClient : Client GraphManager LinkOrders where
  enter r nodeJson orders :=
    match unmarshal nodeJson with
    | none => r
    | some tel => r.addNode math tel (orders tel)
  callback r eventType _ val orders := handleRoutingWatchEvent math unmarshal r eventType val orders

end Handlers

def lastClient (unmarshal : String → Option LastTelemetry) : Client GlobalStats Unit where
  enter globalStats lastJson _ :=
    match unmarshal lastJson with
    | none => globalStats
    | some lastStats => globalStats.addOrUpdateNode lastStats
  callback globalStats eventType _ val _ :=
    (Rebuilds.handleLastWatchEvent unmarshal globalStats eventType val).1

structure Sys where
  middle : Prefix GraphManager
  last : Prefix GlobalStats

/-- A step under one of the two prefixes. -/
inductive Action where
  | middle (a : StoreWatch.Action LinkOrders)
  | last (a : StoreWatch.Action Unit)

def isLoad {O : Type} : StoreWatch.Action O → Bool
  | .load _ _ _ => true
  | _ => false

section System
variable (math : Math) (readNode : String → Option NodeTelemetry)
  (readLast : String → Option LastTelemetry)

abbrev middleStep := StoreWatch.step (middleClient math readNode) readNode NodeTelemetry.publicIP

abbrev lastStep := StoreWatch.step (lastClient readLast) readLast LastTelemetry.ip

/-- The second prefix is read when the watch of the first one has been started. -/
def step (s : Sys) : Action → Option Sys
  | .middle a => (middleStep math readNode s.middle a).map fun middle => { s with middle }
  | .last a =>
    if isLoad a ∧ s.middle.phase ≠ .spawned ∧ s.middle.phase ≠ .watching then none
    else (lastStep readLast s.last a).map fun last => { s with last }

def main : Sys := ⟨start newGraphManager, start newGlobalStats⟩

def middleActions (actions : List Action) : List (StoreWatch.Action LinkOrders) :=
  actions.filterMap fun
    | .middle a => some a
    | .last _ => none

def lastActions (actions : List Action) : List (StoreWatch.Action Unit) :=
  actions.filterMap fun
    | .middle _ => none
    | .last a => some a

def Sys.Settled (s : Sys) : Prop := s.middle.Settled ∧ s.last.Settled

/-- The nodes and the reports are those of the keys in the store, each with what is
stored under its key. -/
def Sys.Follows (s : Sys) : Prop :=
  s.middle.view.nodes.val = s.middle.stored readNode ∧
    s.last.view.nodeLast.val = s.last.stored readLast

end System

variable {math : Math} {readNode : String → Option NodeTelemetry}
  {readLast : String → Option LastTelemetry}

theorem middleClient_enters : Enters (middleClient math readNode) readNode NodeTelemetry.publicIP
    fun r => r.nodes.val where
  enter := by
    intro r val orders tel htel _
    simp only [middleClient, htel, addNode_nodes]
    rfl
  put := by
    intro r eventType key val orders tel htype hval htel _
    rcases htype with rfl | rfl
    · simp only [middleClient, handleRoutingWatchEvent, if_neg hval, htel, addNode_nodes]
      rfl
    · simp only [middleClient, handleRoutingWatchEvent, if_neg hval, htel, addNode_nodes]
      rfl
  delete := by
    intro r key orders hnone
    exact Function.update_eq_self_iff.mpr hnone.symm

theorem lastClient_enters : Enters (lastClient readLast) readLast LastTelemetry.ip
    fun globalStats => globalStats.nodeLast.val where
  enter := by
    intro globalStats val _ lastStats hstats hip
    simp only [lastClient, hstats, GlobalStats.addOrUpdateNode, if_neg hip]
    rfl
  put := by
    intro globalStats eventType key val _ lastStats htype hval hstats hip
    rcases htype with rfl | rfl
    · simp only [lastClient, Rebuilds.handleLastWatchEvent, if_neg hval, hstats,
        GlobalStats.addOrUpdateNode, if_neg hip]
      rfl
    · simp only [lastClient, Rebuilds.handleLastWatchEvent, if_neg hval, hstats,
        GlobalStats.addOrUpdateNode, if_neg hip]
      rfl
  delete := by
    intro globalStats key _ hnone
    exact Function.update_eq_self_iff.mpr hnone.symm

/-- A run of the system is a run under each prefix. -/
theorem run_prefixes {actions : List Action} {s s' : Sys}
    (hrun : run (step math readNode readLast) s actions = some s') :
    run (middleStep math readNode) s.middle (middleActions actions) = some s'.middle ∧
      run (lastStep readLast) s.last (lastActions actions) = some s'.last := by
  induction actions generalizing s with
  | nil =>
    cases Option.some.inj hrun
    exact ⟨rfl, rfl⟩
  | cons a actions ih =>
    rw [run_cons] at hrun
    obtain ⟨mid, hmid, hrest⟩ := Option.bind_eq_some_iff.mp hrun
    obtain ⟨hmiddle, hlast⟩ := ih hrest
    cases a with
    | middle a =>
      obtain ⟨p, hp, rfl⟩ := Option.map_eq_some_iff.mp hmid
      have hcons : middleActions (.middle a :: actions) = a :: middleActions actions := rfl
      rw [hcons, run_cons, hp]
      exact ⟨hmiddle, hlast⟩
    | last a =>
      obtain ⟨-, hstep⟩ := Option.ite_none_left_eq_some.mp hmid
      obtain ⟨p, hp, rfl⟩ := Option.map_eq_some_iff.mp hstep
      have hcons : lastActions (.last a :: actions) = a :: lastActions actions := rfl
      rw [hcons, run_cons, hp]
      exact ⟨hmiddle, hlast⟩

/-- Once all events have been handled, the control plane knows the nodes of the store if
and only if it has missed nothing under either prefix. -/
theorem follows_iff {actions : List Action} {s : Sys}
    (hrun : run (step math readNode readLast) main actions = some s) (hsettled : s.Settled) :
    s.Follows readNode readLast ↔
      NothingMissed (middleClient math readNode) readNode NodeTelemetry.publicIP
          (start newGraphManager) (middleActions actions) ∧
        NothingMissed (lastClient readLast) readLast LastTelemetry.ip
          (start newGlobalStats) (lastActions actions) := by
  obtain ⟨hmiddle, hlast⟩ := run_prefixes hrun
  exact and_congr (shown_eq_stored_iff middleClient_enters (fun _ => rfl) hmiddle hsettled.1)
    (shown_eq_stored_iff lastClient_enters (fun _ => rfl) hlast hsettled.2)

section Samples

/-- A reader that knows one report of a node. -/
def readOne (val : String) : Option NodeTelemetry :=
  if val = "report" then some ⟨"10.0.0.1", "gcp", "EU", 20, GoMap.empty⟩ else none

def readNothing (_ : String) : Option LastTelemetry := none

def orders : LinkOrders := fun node => node.linksCongestion.range

/-- A node is stored and read, and both watches are opened. -/
def startUp : List Action :=
  [.middle (.put "10.0.0.1" "report"), .middle (.load true ["10.0.0.1"] orders), .middle .spawn,
    .last (.load true [] ()), .last .spawn, .middle .watch, .last .watch]

/-- The node reports again. -/
theorem reported_again_follows : ∃ s : Sys,
    run (step sampleMath readOne readNothing) main
      (startUp ++ [.middle (.put "10.0.0.1" "report"), .middle (.handle orders)]) = some s ∧
    s.Settled ∧ (s.Follows readOne readNothing ↔
      NothingMissed (middleClient sampleMath readOne) readOne NodeTelemetry.publicIP
          (start newGraphManager)
          (middleActions (startUp ++
            [.middle (.put "10.0.0.1" "report"), .middle (.handle orders)])) ∧
        NothingMissed (lastClient readNothing) readNothing LastTelemetry.ip
          (start newGlobalStats)
          (lastActions (startUp ++
            [.middle (.put "10.0.0.1" "report"), .middle (.handle orders)]))) := by
  refine ⟨_, rfl, ⟨⟨rfl, rfl⟩, rfl, rfl⟩, ?_⟩
  exact follows_iff rfl ⟨⟨rfl, rfl⟩, rfl, rfl⟩

/-- The node is deleted, and the event of the deletion is handled. -/
theorem deleted_node_stays : ∃ s : Sys,
    run (step sampleMath readOne readNothing) main
      (startUp ++ [.middle (.delete "10.0.0.1"), .middle (.handle orders)]) = some s ∧
    s.Settled ∧ s.middle.store.val "10.0.0.1" = none ∧ s.middle.view.HasNode "10.0.0.1" :=
  ⟨_, rfl, ⟨⟨rfl, rfl⟩, rfl, rfl⟩, rfl, rfl⟩

end Samples

end Arcturus.ControlPlaneView
