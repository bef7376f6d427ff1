import Arcturus.KShortest
import Arcturus.SimplePaths

/-!
What the solvers for many destinations read and return: a list of edges with loads, and
paths as lists of hops. Routes along the edges of such a list, and their latency.
-/

namespace Arcturus.EdgeLists

open SimplePaths

/-- An edge of the graph with the load of the node behind it. -/
structure Edge extends KShortest.Edge where
  load : ℚ
  deriving DecidableEq, Repr

structure PathInfo where
  hops : List String
  rtt : ℚ
  rawRTT : ℚ
  deriving DecidableEq, Repr

/-- The limit on the hops of a path. -/
def maxHops : ℕ := 30

def edgeKey (source dest : String) : String := source ++ "->" ++ dest

/-- An edge with a latency and the load of the node behind it. -/
def link (source dest : String) (latency load : ℚ) : Edge where
  sourceIp := source
  destinationIp := dest
  edgeWeight := 0
  latency := latency
  load := load

variable (edges : List Edge)

/-- There is an edge from `u` to `v`. -/
def Arc (u v : String) : Prop := ∃ e ∈ edges, e.sourceIp = u ∧ e.destinationIp = v

/-- There is an edge between `u` and `v` in one direction or the other. -/
def Beside (u v : String) : Prop := Arc edges u v ∨ Arc edges v u

/-- The latency of the edge between two nodes. -/
def hopLatency (u v : String) : ℚ :=
  match edges.find? fun e => e.sourceIp = u ∧ e.destinationIp = v with
  | some e => e.latency
  | none => 0

def routeLatency (hops : List String) : ℚ := pathSum (hopLatency edges) hops

variable {edges}

/-- The latency of an edge is found if all edges between its nodes have it. -/
theorem hopLatency_eq {e : Edge} (he : e ∈ edges) (hsame : ∀ f ∈ edges,
    f.sourceIp = e.sourceIp → f.destinationIp = e.destinationIp → f.latency = e.latency) :
    hopLatency edges e.sourceIp e.destinationIp = e.latency := by
  unfold hopLatency
  split
  · rename_i f hf
    have hkey := List.find?_some hf
    simp only [decide_eq_true_eq] at hkey
    exact hsame f (List.mem_of_find?_eq_some hf) hkey.1 hkey.2
  · rename_i hnone
    exact absurd (List.find?_eq_none.mp hnone e he) (by simp)

end Arcturus.EdgeLists
