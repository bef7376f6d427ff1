import Arcturus.LiveStyle
import Arcturus.ReportedEdges

/-!
The answer of the control plane to a request for a route. The port of the request names an
origin, and the solver that the request asks for looks for routes to it in the graph of this
moment. Whatever reports the graph was made of and in whatever order its edges are listed,
the paths that are answered lead from the source of the request to the origin of its port
along edges of the graph. Log records are left out, and so is the encoding of the messages.
-/

namespace Arcturus.MiddleRoutes

open GoMaps GoStrings KShortest KShortestSolver SimplePaths RouteGraph YenRounds KShortestRoutes
open LiveStyle NodeGraph GraphIntegrity

structure EndPoint where
  ip : String
  port : ℤ
  deriving DecidableEq, Repr

structure EndPoints where
  source : EndPoint
  dest : EndPoint
  deriving DecidableEq, Repr

structure SourceTarget where
  serverPort : ℤ
  ip : String
  port : ℤ
  deriving DecidableEq, Repr

instance : Inhabited SourceTarget := ⟨0, "", 0⟩

abbrev SourceTargetMap := GoMap ℤ SourceTarget

/-- The loop that fills the map; of two targets with the same port the later one counts. -/
def loadSourceTargets (targets : List SourceTarget) : SourceTargetMap :=
  targets.foldl (fun m v => m.set v.serverPort v) GoMap.empty

/-- The name of the origin in the graph. -/
def SourceTarget.address (source : SourceTarget) : String :=
  source.ip ++ ":" ++ toString source.port

def kShortest : String := "k_shortest"

def liveStyle : String := "live_style"

/-- A solver, from the start and the end of the routes. -/
abbrev Computing := String → String → Option (Except String (List PathInfo))

/-- There is no solver for another name. -/
def initMiddleInterface (edges : List Edge) (algorithm : String) : Option Computing :=
  if algorithm = kShortest then
    some (newKShortestSolver edges 3).computing
  else if algorithm = liveStyle then
    some (newLiveStyleSolver edges 2).computing
  else none

inductive Panic where
  | nilPointer
  deriving DecidableEq, Repr

/-- A call without a solver panics, and an error of the solver becomes an empty answer. -/
def middleRouting (edges : List Edge) (endPoints : EndPoints) (algorithm : String) :
    Option (Except Panic (List PathInfo)) :=
  match initMiddleInterface edges algorithm with
  | none => some (.error .nilPointer)
  | some computing =>
    match computing endPoints.source.ip endPoints.dest.ip with
    | none => none
    | some (.error _) => some (.ok [])
    | some (.ok paths) => some (.ok paths)

structure ApiResponse where
  code : ℤ
  msg : String
  data : Option (List PathInfo)
  deriving DecidableEq

/-- The name of the solver that a request gets. -/
def chosen (algorithm : String) : String := if algorithm = "" then kShortest else algorithm

/-- The answer to a request, or to a body in which the binding finds none. -/
def getMiddleRoute (targets : SourceTargetMap) (edges : List Edge) (algorithm : String) :
    Option EndPoints → Option (Except Panic ApiResponse)
  | none => some (.ok ⟨400, "Request body parsing failed: ", none⟩)
  | some req =>
    if req.dest.port ∉ targets.keys then
      some (.ok ⟨400, "Request body parsing failed: No corresponding port found", none⟩)
    else
      let source := targets.val req.dest.port
      let req := { req with dest := { req.dest with ip := source.address } }
      (middleRouting edges req (chosen algorithm)).map fun res =>
        res.map fun paths => ⟨200, "Successfully obtained path", some paths⟩

/-- At most three different routes. -/
structure RoutesOf (N : Network) (start end_ : String) (paths : List PathInfo) : Prop where
  count : paths.length ≤ 3
  distinct : (paths.map PathInfo.hops).Nodup
  route : ∀ path ∈ paths, N.IsRoute start end_ path.hops

section Solvers
variable {N : Network} {start end_ : String}

theorem routesOf_nil : RoutesOf N start end_ [] where
  count := by simp
  distinct := List.nodup_nil
  route := by simp

/-- The routes that the k-shortest solver returns. -/
theorem routesOf_kShortest {paths : List PathInfo}
    (h : (N.solver 3).computing start end_ = some (.ok paths)) :
    RoutesOf N start end_ paths ∧ paths ≠ [] := by
  obtain ⟨A, st, hA, hlen, -, rfl⟩ := exists_run_of_ok (by decide) h
  obtain ⟨hs, hname⟩ := (occurs_of_ok h).1.name_ok
  have hinv : YenInv N start end_ hs A st := hA.inv hname
  have hroute : ∀ path ∈ pathInfos A, N.IsRoute start end_ path.hops := by
    intro path hpath
    obtain ⟨found, hmem, hhops, -⟩ := mem_pathInfos.mp hpath
    exact hhops ▸ hinv.route _ (List.mem_map_of_mem hmem)
  refine ⟨⟨?_, ?_, hroute⟩, ?_⟩
  · rw [length_pathInfos]
    exact hlen
  · exact (hops_pathInfos A).nodup_iff.mpr hinv.best.found.nodup
  · intro hnil
    have hne := hinv.best.found.ne_nil
    rw [ne_eq, List.map_eq_nil_iff] at hne
    exact hne (List.length_eq_zero_iff.mp (by rw [← length_pathInfos, hnil]; rfl))

/-- The paths that Yen's algorithm returns are all different. -/
theorem nodup_returned (hs : start ≠ "") (hname : ¬ Contains start "->") {A : List Path}
    {st : YenState} (h : Run N start end_ A st) : ((returned A).map Path.hops).Nodup := by
  have hinv : YenInv N start end_ hs A st := h.inv hname
  have hinfos := pathInfos_returned fun p hp => (hinv.route p hp).nodup
  have hsame : (returned A).map Path.hops = (pathInfos A).map PathInfo.hops := by
    rw [← hinfos, List.map_map]
    rfl
  rw [hsame]
  exact (hops_pathInfos A).nodup_iff.mpr hinv.best.found.nodup

/-- The routes that the live-style solver returns. -/
theorem routesOf_liveStyle (hs : start ≠ "") (hname : ¬ Contains start "->") {A : List Path}
    {st : YenState} (h : Run N start end_ A st) :
    RoutesOf N start end_ ((selectTopPaths (returned A) 2).map toPathInfo) := by
  obtain ⟨⟨chosen, rest, hchosen, hperm, -⟩, hcount, -, hroute, -⟩ :=
    selects_selectTopPaths (k := 2) (by decide) (measured_returned hs hname h)
  refine ⟨by omega, ?_, hroute⟩
  · rw [hchosen, List.map_map]
    have hall : ((chosen ++ rest).map Path.hops).Nodup :=
      (hperm.map _).nodup_iff.mpr
        ((nodup_returned hs hname h).sublist (List.filter_sublist.map _))
    rw [List.map_append] at hall
    exact hall.of_append_left

/-- A route between different nodes has them both among the ends of the edges. -/
theorem occurs_of_reach (hne : start ≠ end_) (h : Relation.ReflTransGen N.Link start end_) :
    Occurs N start ∧ Occurs N end_ := by
  rcases Relation.ReflTransGen.cases_head h with heq | ⟨b, ⟨e, he, hsource, -⟩, -⟩
  · exact absurd heq hne
  rcases Relation.ReflTransGen.cases_tail h with heq | ⟨c, -, ⟨f, hf, -, hdest⟩⟩
  · exact absurd heq.symm hne
  exact ⟨⟨e, he, Or.inl hsource.symm⟩, ⟨f, hf, Or.inr hdest.symm⟩⟩

theorem middleRouting_kShortest (hlatency : N.useLatency = false) (endPoints : EndPoints) :
    ∃ paths, middleRouting N.edges endPoints kShortest = some (.ok paths) ∧
      RoutesOf N endPoints.source.ip endPoints.dest.ip paths ∧
      (endPoints.source.ip ≠ endPoints.dest.ip →
        (paths = [] ↔ ¬ Relation.ReflTransGen N.Link endPoints.source.ip endPoints.dest.ip)) := by
  generalize hstart : endPoints.source.ip = start
  generalize hend : endPoints.dest.ip = end_
  have hsolver : newKShortestSolver N.edges 3 = N.solver 3 := by
    rw [Network.solver, hlatency, newKShortestSolver]
  simp only [middleRouting, initMiddleInterface, if_true, hstart, hend, hsolver]
  by_cases hocc : Occurs N start ∧ Occurs N end_
  · rcases computing_cases hocc.1 hocc.2 (k := 3) (by decide) with
      ⟨A, st, hA, -, -, hrun⟩ | ⟨⟨err, hrun⟩, hno⟩
    · obtain ⟨hroutes, hne⟩ := routesOf_kShortest hrun
      obtain ⟨hs, hname⟩ := hocc.1.name_ok
      rw [hrun]
      refine ⟨_, rfl, hroutes, fun _ => iff_of_false hne ?_⟩
      exact not_not.mpr (reflTransGen_of_run hs hname hA)
    · rw [hrun]
      exact ⟨[], rfl, routesOf_nil, fun _ => iff_of_true rfl hno⟩
  · have herror : ∃ err, (N.solver 3).computing start end_ = some (.error err) := by
      unfold computing
      split
      · exact ⟨_, rfl⟩
      split
      · exact ⟨_, rfl⟩
      · rename_i hs he
        exact absurd ⟨(mem_nodes_iff 3).mp (not_not.mp hs), (mem_nodes_iff 3).mp (not_not.mp he)⟩
          hocc
    obtain ⟨err, hrun⟩ := herror
    rw [hrun]
    exact ⟨[], rfl, routesOf_nil, fun hne => iff_of_true rfl fun hreach =>
      hocc (occurs_of_reach hne hreach)⟩

theorem middleRouting_liveStyle (hlatency : N.useLatency = false) (endPoints : EndPoints) :
    ∃ paths, middleRouting N.edges endPoints liveStyle = some (.ok paths) ∧
      RoutesOf N endPoints.source.ip endPoints.dest.ip paths := by
  generalize hstart : endPoints.source.ip = start
  generalize hend : endPoints.dest.ip = end_
  have hname : liveStyle ≠ kShortest := by decide
  simp only [middleRouting, initMiddleInterface, if_neg hname, if_true, hstart, hend,
    LiveStyleSolver.computing]
  by_cases hs : start ∈ (newLiveStyleSolver N.edges 2).nodes
  swap
  · rw [if_pos hs]
    exact ⟨[], rfl, routesOf_nil⟩
  by_cases he : end_ ∈ (newLiveStyleSolver N.edges 2).nodes
  swap
  · rw [if_neg (not_not.mpr hs), if_pos he]
    exact ⟨[], rfl, routesOf_nil⟩
  rw [if_neg (not_not.mpr hs), if_neg (not_not.mpr he)]
  obtain ⟨hne, harrow⟩ := Occurs.name_ok ((mem_nodes_iff (N := N) 5).mp hs)
  have hksp : (newLiveStyleSolver N.edges 2).kspPaths start end_ =
      (N.solver 5).yensAlgorithm start end_ N.graph := by
    unfold LiveStyleSolver.kspPaths
    rw [Network.solver, hlatency]
    rfl
  rw [hksp]
  rcases @yensAlgorithm_cases N start end_ hne harrow 5 (by decide) with
    ⟨A, st, hA, hyen⟩ | ⟨err, hyen⟩
  · rw [hyen]
    exact ⟨_, rfl, routesOf_liveStyle hne harrow hA⟩
  · rw [hyen]
    exact ⟨[], rfl, routesOf_nil⟩

end Solvers

/-- A name that the solvers can tell from a separator. -/
def UsableName (name : String) : Prop := name ≠ "" ∧ ¬ Contains name "->"

instance (name : String) : Decidable (UsableName name) := inferInstanceAs (Decidable (_ ∧ _))

/-- The nodes that report and the origins that they have probed have usable names. -/
def Named (calls : List Call) : Prop :=
  ∀ node order, Call.addNode node order ∈ calls → UsableName node.publicIP ∧
    ∀ v ∈ node.links, v.target.targetType = .source → UsableName (originName v.target)

def PowNonneg (math : Math) : Prop := ∀ x y, 0 ≤ x → 0 ≤ math.pow x y

/-- There is an edge from `a` to `b` in the graph. -/
def Linked (g : GraphManager) (a b : String) : Prop :=
  ∃ e, g.HasEdge e ∧ e.sourceIp = a ∧ e.destinationIp = b

/-- The edges of the graph as the solvers get them. -/
def edgeList (g : GraphManager) (order : g.edges.Range) : List Edge :=
  (g.getEdges order).map EdgeLists.Edge.toEdge

section Graphs
variable {math : Math} {calls : List Call}

theorem edgeRisk_nonneg (hpow : PowNonneg math) (cpuPressure loss latency : ℚ) :
    0 ≤ edgeRisk math cpuPressure loss latency := by
  unfold edgeRisk
  have hcpu : 0 ≤ if cpuPressure < 50 then 0 else math.pow (cpuPressure / 60) 2 := by
    split
    · exact le_rfl
    · exact hpow _ _ (by linarith)
  have hlat : 0 ≤ math.pow (if latency / 150 < 0 then 0 else latency / 150) (3 / 2) := by
    refine hpow _ _ ?_
    split
    · exact le_rfl
    · exact not_lt.mp (by assumption)
  simp only [zero_mul, add_zero]
  linarith

/-- The weight of an edge is that of the last report of it. -/
theorem combined_renew_weight {l : List EdgeLists.Edge} {start : Option EdgeLists.Edge}
    {e : EdgeLists.Edge} (h : Upserts.combined renew l start = some e) :
    start = some e ∨ ∃ f ∈ l, e.edgeWeight = f.edgeWeight := by
  rcases List.eq_nil_or_concat l with rfl | ⟨l, f, rfl⟩
  · exact Or.inl h
  · rw [Upserts.combined, List.concat_eq_append, List.foldl_append] at h
    obtain rfl := Option.some.inj h
    refine Or.inr ⟨f, by simp, ?_⟩
    cases l.foldl (fun o i => some (renew o i)) start <;> rfl

theorem weight_nonneg (hpow : PowNonneg math) (calls : List Call) {k : String}
    {e : EdgeLists.Edge} (he : (run math calls).edges.val k = some e) : 0 ≤ e.edgeWeight := by
  induction calls using List.reverseRecOn generalizing k e with
  | nil => exact absurd he (by simp [run, newGraphManager, GoMap.empty, Option.default_eq_none])
  | append_singleton calls c ih =>
    rw [run_concat] at he
    cases c with
    | addNode node order =>
      simp only [NodeGraph.apply, addNode_edges, Upserts.foldl_upsert_val] at he
      rcases combined_renew_weight he with hold | ⟨f, hf, heq⟩
      · exact ih hold
      · obtain ⟨v, -, rfl⟩ := List.mem_map.mp (List.mem_of_mem_filter hf)
        rw [heq]
        exact edgeRisk_nonneg hpow _ _ _
    | removeNode id => exact ih (removeNode_edges_val.mp he).1

/-- A node of the graph has sent a report. -/
theorem Named.hasNode (hnamed : Named calls) {id : String} (h : (run math calls).HasNode id) :
    UsableName id := by
  induction calls using List.reverseRecOn with
  | nil => exact absurd h (by simp [run, newGraphManager, GraphManager.HasNode, GoMap.empty,
      Option.default_eq_none])
  | append_singleton calls c ih =>
    have hbefore : Named calls := fun node order hmem =>
      hnamed node order (List.mem_append_left _ hmem)
    rw [run_concat] at h
    cases c with
    | addNode node order =>
      rcases addNode_hasNode.mp h with rfl | hnode
      · exact (hnamed node order (by simp)).1
      · exact ih hbefore hnode
    | removeNode removed => exact ih hbefore (removeNode_hasNode.mp h).2

theorem Named.edge (hnamed : Named calls) {e : EdgeLists.Edge} (h : (run math calls).HasEdge e) :
    UsableName e.sourceIp ∧ UsableName e.destinationIp := by
  obtain ⟨k, he⟩ := h
  have hsound := sound_run math calls
  refine ⟨hnamed.hasNode (hsound.source he), ?_⟩
  rcases hsound.dest he with hnode | ⟨node, order, hmem, -, v, hv, htype, horigin⟩
  · exact hnamed.hasNode hnode
  · exact horigin ▸ (hnamed node order hmem).2 v hv htype

theorem mem_edgeList {order : (run math calls).edges.Range} {e : Edge}
    (h : e ∈ edgeList (run math calls) order) : ∃ f, (run math calls).HasEdge f ∧ f.toEdge = e := by
  obtain ⟨f, hf, rfl⟩ := List.mem_map.mp h
  exact ⟨f, ⟨_, (ReportedEdges.mem_getEdges (sound_run math calls)).mp hf⟩, rfl⟩

/-- The edges of a graph are a table for the solvers. -/
def network (hpow : PowNonneg math) (hnamed : Named calls) (order : (run math calls).edges.Range) :
    Network where
  edges := edgeList (run math calls) order
  useLatency := false
  nonneg := by
    intro e he
    obtain ⟨f, ⟨k, hf⟩, rfl⟩ := mem_edgeList he
    exact weight_nonneg hpow calls hf
  unique := by
    rw [edgeList, List.map_map]
    exact (sound_run math calls).nodup_pairs order
  names := by
    intro e he name hname
    obtain ⟨f, hf, rfl⟩ := mem_edgeList he
    simp only [List.mem_cons, List.not_mem_nil, or_false] at hname
    rcases hname with rfl | rfl
    · exact (hnamed.edge hf).1
    · exact (hnamed.edge hf).2

variable {hpow : PowNonneg math} {hnamed : Named calls} {order : (run math calls).edges.Range}

theorem link_iff {a b : String} :
    (network hpow hnamed order).Link a b ↔ Linked (run math calls) a b := by
  constructor
  · rintro ⟨e, he, rfl, rfl⟩
    obtain ⟨f, hf, rfl⟩ := mem_edgeList he
    exact ⟨f, hf, rfl, rfl⟩
  · rintro ⟨f, ⟨k, hf⟩, rfl, rfl⟩
    have hsound := sound_run math calls
    refine ⟨f.toEdge, List.mem_map_of_mem ((ReportedEdges.mem_getEdges hsound).mpr ?_), rfl, rfl⟩
    rw [hsound.stored hf]
    exact hf

theorem link_eq : (network hpow hnamed order).Link = Linked (run math calls) := by
  funext a b
  exact propext link_iff

/-- All hops of a route but its last one are nodes of the graph. -/
theorem hasNode_of_chain {hops : List String} (h : hops.IsChain (Linked (run math calls))) :
    ∀ hop ∈ hops.dropLast, (run math calls).HasNode hop := by
  induction hops with
  | nil => simp
  | cons a rest ih =>
    cases rest with
    | nil => simp
    | cons b rest =>
      rw [List.isChain_cons_cons] at h
      rw [List.dropLast_cons_of_ne_nil (by simp), List.forall_mem_cons]
      refine ⟨?_, ih h.2⟩
      obtain ⟨e, ⟨k, he⟩, rfl, -⟩ := h.1
      exact (sound_run math calls).source he

end Graphs

/-- At most three different routes from `start` to `end_` along edges of the graph. All hops
but the last one are nodes of the graph. The k-shortest solver finds one if there is any. -/
structure Leading (g : GraphManager) (algorithm start end_ : String)
    (paths : List (List String)) : Prop where
  count : paths.length ≤ 3
  distinct : paths.Nodup
  route : ∀ hops ∈ paths, IsSimplePath (Linked g) start end_ hops
  nodes : ∀ hops ∈ paths, ∀ hop ∈ hops.dropLast, g.HasNode hop
  found : algorithm = kShortest → start ≠ end_ →
    (paths = [] ↔ ¬ Relation.ReflTransGen (Linked g) start end_)

section Answers
variable {math : Math} {calls : List Call}

theorem RoutesOf.leading {hpow : PowNonneg math} {hnamed : Named calls}
    {order : (run math calls).edges.Range} {algorithm start end_ : String}
    {paths : List PathInfo} (h : RoutesOf (network hpow hnamed order) start end_ paths)
    (hfound : algorithm = kShortest → start ≠ end_ → (paths = [] ↔
      ¬ Relation.ReflTransGen (network hpow hnamed order).Link start end_)) :
    Leading (run math calls) algorithm start end_ (paths.map PathInfo.hops) := by
  have hroute : ∀ hops ∈ paths.map PathInfo.hops,
      IsSimplePath (Linked (run math calls)) start end_ hops := by
    intro hops hhops
    obtain ⟨path, hpath, rfl⟩ := List.mem_map.mp hhops
    have hsimple := h.route path hpath
    unfold Network.IsRoute at hsimple
    rwa [link_eq] at hsimple
  rw [link_eq, ← List.map_eq_nil_iff (f := PathInfo.hops)] at hfound
  exact ⟨by rw [List.length_map]; exact h.count, h.distinct, hroute,
    fun hops hhops => hasNode_of_chain (hroute hops hhops).chain, hfound⟩

/-- What the two solvers answer. -/
theorem middleRouting_leading (hpow : PowNonneg math) (hnamed : Named calls)
    (order : (run math calls).edges.Range) (endPoints : EndPoints) {algorithm : String}
    (halgorithm : algorithm = kShortest ∨ algorithm = liveStyle) :
    ∃ paths, middleRouting (edgeList (run math calls) order) endPoints algorithm =
        some (.ok paths) ∧
      Leading (run math calls) algorithm endPoints.source.ip endPoints.dest.ip
        (paths.map PathInfo.hops) := by
  rcases halgorithm with rfl | rfl
  · obtain ⟨paths, hpaths, hroutes, hempty⟩ :=
      @middleRouting_kShortest (network hpow hnamed order) rfl endPoints
    exact ⟨paths, hpaths, hroutes.leading fun _ => hempty⟩
  · obtain ⟨paths, hpaths, hroutes⟩ :=
      @middleRouting_liveStyle (network hpow hnamed order) rfl endPoints
    exact ⟨paths, hpaths, hroutes.leading fun hname => absurd hname (by decide)⟩

/-- The request names a port that has an origin. -/
def Asks (targets : SourceTargetMap) (body : Option EndPoints) (req : EndPoints) : Prop :=
  body = some req ∧ req.dest.port ∈ targets.keys

theorem getMiddleRoute_asks {targets : SourceTargetMap} {body : Option EndPoints} {req : EndPoints}
    (h : Asks targets body req) (edges : List Edge) (algorithm : String) :
    getMiddleRoute targets edges algorithm body =
      (middleRouting edges { req with dest := { req.dest with
          ip := (targets.val req.dest.port).address } } (chosen algorithm)).map fun res =>
        res.map fun paths => ⟨200, "Successfully obtained path", some paths⟩ := by
  rw [h.1]
  exact if_neg (not_not.mpr h.2)

theorem getMiddleRoute_refuses {targets : SourceTargetMap} {body : Option EndPoints}
    (h : ∀ req, ¬ Asks targets body req) (edges : List Edge) (algorithm : String) :
    ∃ msg, getMiddleRoute targets edges algorithm body = some (.ok ⟨400, msg, none⟩) := by
  cases body with
  | none => exact ⟨_, rfl⟩
  | some req => exact ⟨_, if_pos fun hmem => h req ⟨rfl, hmem⟩⟩

/-- In every graph that reports have made, every request gets an answer, unless it asks for
a solver that there is not, which makes the handler panic. The answer to a request for a port
that has an origin is a list of routes from the source of the request to this origin, which
the k-shortest solver leaves empty only if the origin cannot be reached; another request is
refused. -/
theorem getMiddleRoute_outcome (hpow : PowNonneg math) (hnamed : Named calls)
    (order : (run math calls).edges.Range) (targets : SourceTargetMap) (algorithm : String)
    (body : Option EndPoints) :
    ∃ res, getMiddleRoute targets (edgeList (run math calls) order) algorithm body = some res ∧
      ((∃ panic, res = .error panic) ↔ (∃ req, Asks targets body req) ∧
        chosen algorithm ∉ [kShortest, liveStyle]) ∧
      ∀ resp, res = .ok resp → (∃ req paths, Asks targets body req ∧ resp.code = 200 ∧
          resp.data = some paths ∧ Leading (run math calls) (chosen algorithm) req.source.ip
            (targets.val req.dest.port).address (paths.map PathInfo.hops)) ∨
        (∀ req, ¬ Asks targets body req) ∧ resp.code = 400 ∧ resp.data = none := by
  by_cases hasks : ∃ req, Asks targets body req
  · obtain ⟨req, hreq⟩ := hasks
    rw [getMiddleRoute_asks hreq]
    by_cases hname : chosen algorithm ∈ [kShortest, liveStyle]
    · have hsolver : chosen algorithm = kShortest ∨ chosen algorithm = liveStyle := by
        simpa using hname
      obtain ⟨paths, hpaths, hleading⟩ := middleRouting_leading hpow hnamed order
        { req with dest := { req.dest with ip := (targets.val req.dest.port).address } } hsolver
      rw [hpaths]
      refine ⟨_, rfl, iff_of_false ?_ fun hno => hno.2 hname, ?_⟩
      · rintro ⟨panic, hpanic⟩
        cases hpanic
      · intro resp hresp
        cases hresp
        exact Or.inl ⟨req, paths, hreq, rfl, rfl, hleading⟩
    · have hnone : initMiddleInterface (edgeList (run math calls) order) (chosen algorithm) =
          none := by
        simp only [List.mem_cons, List.not_mem_nil, or_false, not_or] at hname
        rw [initMiddleInterface, if_neg hname.1, if_neg hname.2]
      rw [middleRouting, hnone]
      refine ⟨_, rfl, iff_of_true ⟨.nilPointer, rfl⟩ ⟨⟨req, hreq⟩, hname⟩, ?_⟩
      intro resp hresp
      cases hresp
  · have hnone : ∀ req, ¬ Asks targets body req := fun req hreq => hasks ⟨req, hreq⟩
    obtain ⟨msg, hmsg⟩ := getMiddleRoute_refuses hnone (edgeList (run math calls) order) algorithm
    rw [hmsg]
    refine ⟨_, rfl, iff_of_false ?_ fun hno => hasks hno.1, ?_⟩
    · rintro ⟨panic, hpanic⟩
      cases hpanic
    · intro resp hresp
      cases hresp
      exact Or.inr ⟨hnone, rfl, rfl⟩

end Answers

section Sample

/-- Powers of numbers that are not negative are not negative. -/
def linearMath : Math := ⟨fun x _ => x, fun x => x⟩

theorem linearMath_pow : PowNonneg linearMath := fun _ _ h => h

/-- A node reports an origin, and another node reports the first one. -/
def twoReports : List Call :=
  [.addNode (ReportedEdges.oneLink "10.0.0.2" (ReportedEdges.task .source "10.0.0.9" 80) 150)
      (GoMap.range _),
   .addNode (ReportedEdges.oneLink "10.0.0.1" (ReportedEdges.task .node "10.0.0.2" 7083) 150)
      (GoMap.range _)]

def oneTarget : SourceTargetMap := loadSourceTargets [⟨8000, "10.0.0.9", 80⟩]

theorem twoReports_named : Named twoReports := by
  intro node order hmem
  simp only [twoReports, List.mem_cons, List.not_mem_nil, or_false] at hmem
  rcases hmem with hmem | hmem
  · cases hmem
    decide
  · cases hmem
    decide

/-- A proxy asks for a route from itself to the origin of a port. -/
def sampleRequest : EndPoints := ⟨⟨"10.0.0.1", 0⟩, ⟨"", 8000⟩⟩

theorem getMiddleRoute_outcome_sample : ∃ paths msg,
    getMiddleRoute oneTarget (edgeList (run linearMath twoReports) (GoMap.range _)) ""
      (some sampleRequest) = some (.ok ⟨200, msg, some paths⟩) ∧
      Leading (run linearMath twoReports) kShortest "10.0.0.1" "10.0.0.9:80"
        (paths.map PathInfo.hops) := by
  have hasks : Asks oneTarget (some sampleRequest) sampleRequest := ⟨rfl, by decide⟩
  obtain ⟨res, hres, hpanic, hok⟩ := getMiddleRoute_outcome linearMath_pow twoReports_named
    (GoMap.range _) oneTarget "" (some sampleRequest)
  cases res with
  | error panic => exact absurd (hpanic.mp ⟨panic, rfl⟩).2 (by decide)
  | ok resp =>
    rcases hok resp rfl with ⟨req, paths, ⟨heq, -⟩, hcode, hdata, hleading⟩ | ⟨hnone, -⟩
    · cases heq
      obtain ⟨code, msg, data⟩ := resp
      cases hcode
      cases hdata
      exact ⟨paths, msg, hres, hleading⟩
    · exact absurd hasks (hnone _)

end Sample

end Arcturus.MiddleRoutes
