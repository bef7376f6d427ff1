import Arcturus.GoMaps
import Arcturus.Routes
import Arcturus.StepRuns

/-!
The routes that the servers keep for each port. A connection takes the route of its port
and, if there is none or it has expired, has the control plane asked for one. The answer
is stored when it arrives, some time after the connection has looked; queries of any
number of connections may be under way. Log records are left out.
-/

namespace Arcturus.RouteCache

open GoMaps GoStrings Routes StepRuns

structure RoutingInfo where
  routing : List PathInfo
  deriving DecidableEq, Repr

/-- What the configuration says about test routes. -/
structure Config where
  publicIP : String
  testPathMap : GoMap ℤ String

/-- What comes of the request to the control plane. -/
inductive Reply where
  | marshalError
  | transportError
  | readError
  | malformed
  | response (code : ℤ) (data : RoutingInfo)
  deriving DecidableEq, Repr

/-- The test route of a port, if it has one that begins at this node. -/
def testRouting (config : Config) (port : ℤ) : Option RoutingInfo :=
  if config.testPathMap.keys.length > 0 ∧ port ∈ config.testPathMap.keys then
    let hops := split (config.testPathMap.val port) ","
    if hops.length ≥ 2 ∧ hops.head? = some config.publicIP then some ⟨[⟨hops⟩]⟩ else none
  else none

/-- A pointer, which may be nil. -/
def getRoutingFromControlPlane (config : Config) (port : ℤ) (reply : Reply) :
    Option RoutingInfo :=
  match testRouting config port with
  | some routeInfo => some routeInfo
  | none =>
    match reply with
    | .marshalError => some ⟨[]⟩
    | .transportError => some ⟨[]⟩
    | .readError => some ⟨[]⟩
    | .malformed => some ⟨[]⟩
    | .response code data => if code ≠ 200 then some ⟨[]⟩ else some data

structure CachedRoute where
  info : Option RoutingInfo
  deadline : ℤ
  deriving DecidableEq, Repr

abbrev RoutingMap := GoMap ℤ (Option CachedRoute)

/-- In nanoseconds. -/
def routeTimeout : ℤ := 1000000000

/-- The three handlers that ask for routes. -/
inductive Server where
  | tcp
  | tcpKeepAlive
  | udp
  deriving DecidableEq, Repr

/-- A query under way: the connection waits for it, or it is a refresh in the background. -/
structure Query where
  server : Server
  port : ℤ
  background : Bool
  deriving DecidableEq, Repr

/-- Only the UDP server stores the answer to a connection that waits without looking at
the pointer. -/
def store (routingMap : RoutingMap) (q : Query) (routeInfo : Option RoutingInfo) (now : ℤ) :
    RoutingMap :=
  match q.server, q.background with
  | .udp, false => routingMap.set q.port (some ⟨routeInfo, now + routeTimeout⟩)
  | _, _ =>
    if routeInfo ≠ none then routingMap.set q.port (some ⟨routeInfo, now + routeTimeout⟩)
    else routingMap

structure Sys where
  routingMap : RoutingMap
  queries : List Query

def initial : Sys := ⟨GoMap.empty, []⟩

/-- A connection looks for the route of its port, or a query comes to its end. -/
inductive Action where
  | connect (server : Server) (port : ℤ) (now : ℤ)
  | finish (i : ℕ) (reply : Reply) (now : ℤ)

def step (config : Config) (s : Sys) : Action → Option Sys
  | .connect server port now =>
    match s.routingMap.val port with
    | none => some { s with queries := s.queries ++ [⟨server, port, false⟩] }
    | some ri =>
      if now > ri.deadline then some { s with queries := s.queries ++ [⟨server, port, true⟩] }
      else some s
  | .finish i reply now =>
    match s.queries[i]? with
    | none => none
    | some q =>
      some ⟨store s.routingMap q (getRoutingFromControlPlane config q.port reply) now,
        s.queries.eraseIdx i⟩

/-- The paths that are kept for a port. -/
def Sys.route (s : Sys) (port : ℤ) : List PathInfo :=
  (((s.routingMap.val port).bind CachedRoute.info).map RoutingInfo.routing).getD []

/-- The query gives no route. -/
def Failed (config : Config) (port : ℤ) (reply : Reply) : Prop :=
  testRouting config port = none ∧ ∀ data : RoutingInfo, reply = .response 200 data →
    data.routing = []

section Property
variable (config : Config)

/-- The query for a port that comes to its end with this step. -/
def Finishes (s : Sys) (a : Action) (port : ℤ) (reply : Reply) : Prop :=
  ∃ i now q, a = .finish i reply now ∧ s.queries[i]? = some q ∧ q.port = port

/-- A route that is there stays unless a query for its port succeeds. -/
def KeepsRoutes (s : Sys) (a : Action) (s' : Sys) : Prop :=
  ∀ port, s.route port ≠ [] → s'.route port = s.route port ∨
    ∃ reply, Finishes s a port reply ∧ ¬ Failed config port reply

/-- A query fails for a port that has a route. -/
def FailsOnRoute (s : Sys) (a : Action) : Prop :=
  ∃ port reply, Finishes s a port reply ∧ Failed config port reply ∧ s.route port ≠ []

end Property

section Steps
variable {config : Config} {s s' : Sys} {a : Action}

/-- The pointer is never nil. -/
theorem getRouting_isSome (config : Config) (port : ℤ) (reply : Reply) :
    (getRoutingFromControlPlane config port reply).isSome := by
  unfold getRoutingFromControlPlane
  split
  · rfl
  · cases reply with
    | marshalError => rfl
    | transportError => rfl
    | readError => rfl
    | malformed => rfl
    | response code data =>
      simp only
      split
      · rfl
      · rfl

/-- So every answer is stored. -/
theorem store_eq (m : RoutingMap) (q : Query) {routeInfo : Option RoutingInfo}
    (h : routeInfo.isSome) (now : ℤ) :
    store m q routeInfo now = m.set q.port (some ⟨routeInfo, now + routeTimeout⟩) := by
  unfold store
  split
  · rfl
  · rw [if_pos (Option.isSome_iff_ne_none.mp h)]

theorem failed_routing {port : ℤ} {reply : Reply} (h : Failed config port reply) :
    getRoutingFromControlPlane config port reply = some ⟨[]⟩ := by
  unfold getRoutingFromControlPlane
  rw [h.1]
  cases reply with
  | marshalError => rfl
  | transportError => rfl
  | readError => rfl
  | malformed => rfl
  | response code data =>
    by_cases hcode : code = 200
    · subst hcode
      have hempty := h.2 data rfl
      cases data
      simp only at hempty
      simp [hempty]
    · simp [hcode]

/-- A connection leaves the routes as they are. -/
theorem step_connect {server : Server} {port now : ℤ}
    (h : step config s (.connect server port now) = some s') : s'.routingMap = s.routingMap := by
  simp only [step] at h
  split at h
  · cases Option.some.inj h
    rfl
  · split at h
    · cases Option.some.inj h
      rfl
    · cases Option.some.inj h
      rfl

/-- The end of a query replaces the route of its port. -/
theorem step_finish {i : ℕ} {reply : Reply} {now : ℤ}
    (h : step config s (.finish i reply now) = some s') :
    ∃ q, s.queries[i]? = some q ∧ s'.routingMap = s.routingMap.set q.port
      (some ⟨getRoutingFromControlPlane config q.port reply, now + routeTimeout⟩) := by
  simp only [step] at h
  split at h
  · simp at h
  · rename_i q hq
    cases Option.some.inj h
    exact ⟨q, hq, store_eq _ _ (getRouting_isSome ..) now⟩

/-- A step keeps the routes if and only if no query fails for a port that has one. -/
theorem step_keepsRoutes_iff (config : Config) (s : Sys) (a : Action) :
    (∀ s', step config s a = some s' → KeepsRoutes config s a s') ↔ ¬ FailsOnRoute config s a := by
  constructor
  · rintro hkeeps ⟨port, reply, ⟨i, now, q, rfl, hq, rfl⟩, hfailed, hroute⟩
    have hstep : step config s (.finish i reply now) =
        some ⟨store s.routingMap q (getRoutingFromControlPlane config q.port reply) now,
          s.queries.eraseIdx i⟩ := by
      simp only [step, hq]
    rcases hkeeps _ hstep q.port hroute with hsame | ⟨reply', ⟨i', now', q', ha, -, -⟩, hok⟩
    · -- the empty answer is there now
      rw [← hsame] at hroute
      refine hroute ?_
      unfold Sys.route
      simp only
      rw [store_eq _ _ (getRouting_isSome ..), GoMap.set_val_same, failed_routing hfailed]
      rfl
    · rw [Action.finish.injEq] at ha
      obtain ⟨-, rfl, -⟩ := ha
      exact hok hfailed
  · intro hno s' hstep port hroute
    cases a with
    | connect server port' now =>
      refine Or.inl ?_
      unfold Sys.route
      rw [step_connect hstep]
    | finish i reply now =>
      obtain ⟨q, hq, hmap⟩ := step_finish hstep
      by_cases hport : q.port = port
      · refine Or.inr ⟨reply, ⟨i, now, q, rfl, hq, hport⟩, ?_⟩
        intro hfailed
        exact hno ⟨port, reply, ⟨i, now, q, rfl, hq, hport⟩, hfailed, hroute⟩
      · refine Or.inl ?_
        unfold Sys.route
        rw [hmap, GoMap.set_val_of_ne _ _ (Ne.symm hport)]

end Steps

/-- Over a whole run the routes are kept if and only if no query fails for a port that
has a route. -/
theorem routes_kept_iff (config : Config) (s : Sys) (actions : List Action) :
    AllSteps (step config) (fun s a => ∀ s', step config s a = some s' → KeepsRoutes config s a s')
        s actions ↔
      AllSteps (step config) (fun s a => ¬ FailsOnRoute config s a) s actions := by
  have hsame : (fun s a => ∀ s', step config s a = some s' → KeepsRoutes config s a s') =
      fun s a => ¬ FailsOnRoute config s a := by
    funext s a
    exact propext (step_keepsRoutes_iff config s a)
  rw [hsame]

section Samples

def noTestRoutes : Config := ⟨"10.0.0.1", GoMap.empty⟩

def viaOneNode : RoutingInfo := ⟨[⟨["10.0.0.1", "10.0.0.2", "10.0.0.9:80"]⟩]⟩

/-- The first connection gets a route, and one after its deadline starts a refresh. -/
def untilRefresh : List Action :=
  [.connect .tcp 8080 0, .finish 0 (.response 200 viaOneNode) 1000000,
    .connect .tcp 8080 2000000000]

/-- The control plane cannot be reached, and the route is gone. -/
theorem failed_refresh_loses_route : ∃ s s' : Sys,
    run (step noTestRoutes) initial untilRefresh = some s ∧
      s.route 8080 = viaOneNode.routing ∧
      step noTestRoutes s (.finish 0 .transportError 2001000000) = some s' ∧
      s'.route 8080 = [] ∧
      ¬ KeepsRoutes noTestRoutes s (.finish 0 .transportError 2001000000) s' := by
  have hfailed : Failed noTestRoutes 8080 .transportError := ⟨rfl, by simp⟩
  refine ⟨_, _, rfl, rfl, rfl, rfl, ?_⟩
  intro hkeeps
  rcases hkeeps 8080 (by decide) with hsame | ⟨reply, ⟨i, now, q, ha, -, -⟩, hok⟩
  · exact absurd hsame (by decide)
  · rw [Action.finish.injEq] at ha
    obtain ⟨-, rfl, -⟩ := ha
    exact hok hfailed

end Samples

end Arcturus.RouteCache
