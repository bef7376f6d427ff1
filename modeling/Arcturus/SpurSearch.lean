import Arcturus.RouteGraph
import Arcturus.Deviation

/-!
The spur searches of Yen's algorithm. A root is written `r ++ [s]` with spur
node `s`; the search runs on the adjacency map with some edges of `s` removed
and the nodes of `r` forbidden. Read as an enumeration by deviation, it only
returns routes that leave the root as asked, it fails only when there is none,
and it is cheapest up to the last edge, which leaves the first neighbour of the end that
the queue hands out.
-/

namespace Arcturus.SpurSearch

open GoMaps KShortest KShortestSolver SimplePaths SearchInvariant ShortestSearch RouteGraph
open Deviation

/-- Steps a spur search at `r ++ [s]` may take. -/
def OpenArc (N : Network) (r : List String) (s : String) (X : Finset String) (u v : String) :
    Prop :=
  N.Link u v ∧ v ∉ r ∧ (u = s → v ≠ s ∧ v ∉ X)

/-- The adjacency map without the edges from the spur node into the root or `X`. -/
def spurGraph (N : Network) (r : List String) (s : String) (X : Finset String) : Graph :=
  N.graph.set s ((N.graph.val s).filter fun e => e.destinationIp ∉ r ++ [s] ∧ e.destinationIp ∉ X)

def spurSearch (N : Network) (end_ : String) (r : List String) (s : String) (X : Finset String) :
    Option (Except String Path) :=
  (N.solver 1).findShortestPath s end_ (spurGraph N r s X) (some r) none

/-- The first neighbour of the end that the queue hands out in the search at `root`; the first
search of all has the empty root. -/
def rootGateway (N : Network) (start end_ : String) (root : List String) (X : Finset String) :
    Option String :=
  match root.getLast? with
  | none => searchGateway (N.solver 1) start end_ N.graph none none
  | some s =>
    searchGateway (N.solver 1) s end_ (spurGraph N root.dropLast s X) (some root.dropLast) none

/-- The hops of a successful search. -/
def foundHops : Option (Except String Path) → Option (List String)
  | some (.ok path) => some path.hops
  | _ => none

variable {N : Network} {start end_ s : String} {r : List String} {X : Finset String}

theorem mem_spurGraph {u : String} {e : Edge} : e ∈ (spurGraph N r s X).val u ↔
    (e ∈ N.edges ∧ e.sourceIp = u) ∧
      (u = s → e.destinationIp ∉ r ++ [s] ∧ e.destinationIp ∉ X) := by
  by_cases hu : u = s
  · subst hu
    unfold spurGraph
    rw [GoMap.set_val_same, List.mem_filter, Network.mem_graph_val]
    simp
  · unfold spurGraph
    rw [GoMap.set_val_of_ne _ _ hu, Network.mem_graph_val]
    simp [hu]

theorem within_spurGraph : N.Within (spurGraph N r s X) := fun _ _ he => (mem_spurGraph.mp he).1

theorem arc_iff {u v : String} :
    Arc (spurGraph N r s X) (some r) none u v ↔ OpenArc N r s X u v := by
  have hok : ∀ e : Edge, (!forbidden (some r) none u e) = true ↔ e.destinationIp ∉ r := by
    intro e
    simp [forbidden]
  constructor
  · intro harc
    obtain ⟨e, he, rfl⟩ := harc
    unfold arcs at he
    rw [List.mem_filter, hok, mem_spurGraph] at he
    obtain ⟨⟨⟨hmem, hsrc⟩, hcut⟩, hr⟩ := he
    refine ⟨⟨e, hmem, hsrc, rfl⟩, hr, ?_⟩
    intro hu
    obtain ⟨hroot, hX⟩ := hcut hu
    exact ⟨fun heq => hroot (by simp [heq]), hX⟩
  · intro hopen
    obtain ⟨⟨e, hmem, hsrc, rfl⟩, hr, hcut⟩ := hopen
    refine ⟨e, ?_, rfl⟩
    unfold arcs
    rw [List.mem_filter, hok, mem_spurGraph]
    refine ⟨⟨⟨hmem, hsrc⟩, ?_⟩, hr⟩
    intro hu
    obtain ⟨hne, hX⟩ := hcut hu
    simp [hr, hne, hX]

/-- The part of a route after `r` is a way that the search may take. -/
theorem exists_tail_of_leaves {q : List String}
    (h : Leaves (N.IsRoute start end_) (r ++ [s]) X q) :
    ∃ x m, q = r ++ s :: x :: m ∧ (s :: x :: m).IsChain (OpenArc N r s X) ∧
      (s :: x :: m).getLast? = some end_ := by
  obtain ⟨hq, x, hx, m, rfl⟩ := h
  have hform : r ++ [s] ++ [x] ++ m = r ++ s :: x :: m := by simp
  rw [hform] at hq
  have hchain := hq.chain.right_of_append
  have hlast := hq.last
  have hnodup := hq.nodup
  rw [List.getLast?_append_of_ne_nil _ (List.cons_ne_nil s _)] at hlast
  rw [List.nodup_append, List.nodup_cons] at hnodup
  obtain ⟨-, ⟨hs, -⟩, hdisj⟩ := hnodup
  have hr : ∀ v ∈ x :: m, v ∉ r := fun v hv hmem =>
    hdisj v hmem v (List.mem_cons_of_mem _ hv) rfl
  rw [List.isChain_cons_cons] at hchain
  refine ⟨x, m, hform, List.isChain_cons_cons.mpr ⟨?_, ?_⟩, hlast⟩
  · refine ⟨hchain.1, hr x (List.mem_cons_self ..), fun _ => ⟨?_, hx⟩⟩
    intro heq
    subst heq
    exact hs (List.mem_cons_self ..)
  · apply hchain.2.imp_of_mem_imp
    intro u v hu hv hlink
    exact ⟨hlink, hr v hv, fun he => absurd (he ▸ hu) hs⟩

theorem routeWeight_splice (l : List String) :
    N.routeWeight (r ++ s :: l) = N.routeWeight (r ++ [s]) + N.routeWeight (s :: l) :=
  pathSum_append N.hopWeight r s l

theorem routeWeight_splice_dropLast {l : List String} (hl : l ≠ []) :
    N.routeWeight (r ++ s :: l).dropLast =
      N.routeWeight (r ++ [s]) + N.routeWeight (s :: l).dropLast := by
  obtain ⟨x, m, rfl⟩ := List.exists_cons_of_ne_nil hl
  rw [List.dropLast_append_of_ne_nil (List.cons_ne_nil s _), List.dropLast_cons_cons,
    routeWeight_splice]

/-- A route goes on from the last node of its roots. -/
theorem exists_link_of_rootOf {p : List String} (hp : N.IsRoute start end_ p)
    (hroot : RootOf (r ++ [s]) p) : ∃ y, N.Link s y := by
  obtain ⟨⟨m, hm⟩, hne, -⟩ := hroot
  cases m with
  | nil => exact absurd (by simpa using hm) hne
  | cons y m =>
    have hchain := hp.chain
    rw [← hm, List.append_assoc, List.singleton_append] at hchain
    exact ⟨y, (List.isChain_cons_cons.mp hchain.right_of_append).1⟩

/-- What a successful spur search returns. -/
structure SpurResult (N : Network) (start end_ : String) (r : List String) (s : String)
    (X : Finset String) (path : Path) : Prop where
  leaves : Leaves (N.IsRoute start end_) (r ++ [s]) X (r ++ path.hops)
  head : path.hops.head? = some s
  nodup : path.hops.Nodup
  cost : path.cost = N.routeWeight path.hops
  nearest : ∀ q, Leaves (N.IsRoute start end_) (r ++ [s]) X q →
    N.routeWeight (r ++ path.hops).dropLast ≤ N.routeWeight q.dropLast
  last : (r ++ path.hops).dropLast.getLast? = rootGateway N start end_ (r ++ [s]) X

theorem rootGateway_snoc : rootGateway N start end_ (r ++ [s]) X =
    searchGateway (N.solver 1) s end_ (spurGraph N r s X) (some r) none := by
  simp [rootGateway]

/-- The last edge of a returned path leaves the gateway. -/
theorem Returned.getLast?_dropLast {g : Graph} {fN fE : Option (List String)}
    {gate : Option String} {path : Path} {es : List Edge} (hse : end_ ≠ s)
    (h : Returned (N.solver 1) s end_ g fN fE gate path es) :
    path.hops.dropLast.getLast? = gate := by
  obtain ⟨u, hgate, ht⟩ := h.last.resolve_left hse
  have hes : es ≠ [] := by
    intro heq
    have hnil := trail_getLast h.trail
    rw [heq, trailHops, List.map_nil, List.getLast?_singleton, Option.some.injEq] at hnil
    exact hse hnil.symm
  have hdrop : path.hops.dropLast = trailHops s es.dropLast := by
    rw [h.hops, trailHops, List.dropLast_cons_of_ne_nil (by simpa using hes), ← List.map_dropLast]
    rfl
  rw [hdrop, trail_getLast ht, hgate]

theorem trail_of_leaves {q : List String} (h : Leaves (N.IsRoute start end_) (r ++ [s]) X q) :
    ∃ fs, fs ≠ [] ∧ Trail (spurGraph N r s X) (some r) none s fs end_ ∧
      q = r ++ trailHops s fs := by
  obtain ⟨x, m, rfl, hchain, hlast⟩ := exists_tail_of_leaves h
  obtain ⟨fs, hfs, ht⟩ := exists_trail_of_chain (hchain.imp fun _ _ => arc_iff.mpr)
  have hend : (s :: x :: m).getLast (by simp) = end_ := by
    rw [List.getLast?_eq_some_getLast (by simp)] at hlast
    exact Option.some.inj hlast
  rw [hend] at ht
  refine ⟨fs, ?_, ht, by rw [hfs]⟩
  intro heq
  subst heq
  simp [trailHops] at hfs

theorem spurResult_of_returned {p : List String} {path : Path} {es : List Edge}
    (hp : N.IsRoute start end_ p) (hroot : RootOf (r ++ [s]) p)
    (h : Returned (N.solver 1) s end_ (spurGraph N r s X) (some r) none
      (searchGateway (N.solver 1) s end_ (spurGraph N r s X) (some r) none) path es) :
    SpurResult N start end_ r s X path := by
  have hse : end_ ≠ s := by
    intro heq
    subst heq
    exact hp.end_notMem_of_prefix hroot.1 hroot.2.1 (by simp)
  have hes : es ≠ [] := by
    intro heq
    subst heq
    have hnil := trail_getLast h.trail
    unfold trailHops at hnil
    rw [List.map_nil, List.getLast?_singleton, Option.some.injEq] at hnil
    exact hse hnil.symm
  obtain ⟨e, rest, rfl⟩ := List.exists_cons_of_ne_nil hes
  have hhops : path.hops = s :: e.destinationIp :: rest.map Edge.destinationIp := h.hops
  have hchain := (trail_chain h.trail).imp fun _ _ => arc_iff.mp
  rw [← h.hops, hhops] at hchain
  have hlink : (s :: e.destinationIp :: rest.map Edge.destinationIp).IsChain N.Link :=
    hchain.imp fun _ _ ha => ha.1
  have hfresh : ∀ x ∈ e.destinationIp :: rest.map Edge.destinationIp, x ∉ r :=
    hchain.cons_induction (· ∉ r) _ (fun _ _ ha _ => ha.2.1) (by
      have hnodup := hp.nodup.sublist hroot.1.sublist
      rw [List.nodup_append] at hnodup
      exact fun hs => hnodup.2.2 s hs s (List.mem_singleton_self s) rfl)
  have hlast := trail_getLast h.trail
  rw [← h.hops, hhops] at hlast
  have hnodup := h.nodup
  rw [hhops] at hnodup
  refine ⟨⟨?_, e.destinationIp, ?_, ?_⟩, ?_, h.nodup, ?_, ?_, ?_⟩
  · rw [hhops]
    exact hp.splice hroot.1 hlink hlast hnodup hfresh
  · exact ((List.isChain_cons_cons.mp hchain).1.2.2 rfl).2
  · exact ⟨rest.map Edge.destinationIp, by simp [hhops]⟩
  · rw [hhops, List.head?_cons]
  · rw [h.cost, trail_sum within_spurGraph 1 h.trail, h.hops]
  · intro q hq
    obtain ⟨fs, hne, ht, rfl⟩ := trail_of_leaves hq
    have hle := h.nearest fs hne ht
    rw [trail_sum_dropLast within_spurGraph 1 h.trail hes,
      trail_sum_dropLast within_spurGraph 1 ht hne, ← h.hops, hhops] at hle
    rw [hhops, trailHops, routeWeight_splice_dropLast (List.cons_ne_nil _ _),
      routeWeight_splice_dropLast (by simpa using hne)]
    exact add_le_add le_rfl hle
  · rw [rootGateway_snoc, ← Returned.getLast?_dropLast hse h, hhops,
      List.dropLast_append_of_ne_nil (List.cons_ne_nil _ _), List.dropLast_cons_cons,
      List.getLast?_append_of_ne_nil _ (List.cons_ne_nil _ _)]

/-- A spur search ends with a result or with proof that nothing is left. -/
theorem spurSearch_cases {p : List String} (hp : N.IsRoute start end_ p)
    (hroot : RootOf (r ++ [s]) p) (X : Finset String) :
    (∃ path, spurSearch N end_ r s X = some (.ok path) ∧ SpurResult N start end_ r s X path) ∨
      (∃ err, spurSearch N end_ r s X = some (.error err)) ∧
        ∀ q, ¬ Leaves (N.IsRoute start end_) (r ++ [s]) X q := by
  obtain ⟨y, hy⟩ := exists_link_of_rootOf hp hroot
  have ha := (@within_spurGraph N s r X).admissible 1 (N.name_ok_of_link hy).1.1
  rcases findShortestPath_outcome ha end_ (some r) none with ⟨path, es, hrun, hret⟩ | ⟨hrun, hno⟩
  · exact Or.inl ⟨path, hrun, spurResult_of_returned hp hroot hret⟩
  · refine Or.inr ⟨⟨_, hrun⟩, fun q hq => hno ?_⟩
    obtain ⟨fs, -, ht, -⟩ := trail_of_leaves hq
    exact trail_reflTransGen ht

theorem arc_graph_iff {u v : String} : Arc N.graph none none u v ↔ N.Link u v := by
  constructor
  · exact N.within_graph.link
  · intro harc
    obtain ⟨e, he, rfl, rfl⟩ := harc
    refine ⟨e, ?_, rfl⟩
    unfold arcs
    rw [List.mem_filter, Network.mem_graph_val]
    exact ⟨⟨he, rfl⟩, by simp [forbidden]⟩

/-- What the first search returns. -/
structure FirstResult (N : Network) (start end_ : String) (path : Path) : Prop where
  route : N.IsRoute start end_ path.hops
  cost : path.cost = N.routeWeight path.hops
  nearest : ∀ q, N.IsRoute start end_ q →
    N.routeWeight path.hops.dropLast ≤ N.routeWeight q.dropLast
  last : path.hops.dropLast.getLast? = rootGateway N start end_ [] ∅

theorem trail_of_route {q : List String} (hq : N.IsRoute start end_ q) :
    ∃ fs, Trail N.graph none none start fs end_ ∧ q = trailHops start fs := by
  obtain ⟨l, rfl⟩ := hq.eq_cons
  obtain ⟨fs, hfs, ht⟩ := exists_trail_of_chain (hq.chain.imp fun _ _ => arc_graph_iff.mpr)
  have hend : (start :: l).getLast (by simp) = end_ := by
    have hlast := hq.last
    rw [List.getLast?_eq_some_getLast (by simp)] at hlast
    exact Option.some.inj hlast
  rw [hend] at ht
  exact ⟨fs, ht, hfs.symm⟩

/-- A search for its own start sees no neighbour of it. -/
theorem searchGateway_self (ks : KShortestSolver) (start : String) (g : Graph)
    (fN fE : Option (List String)) : searchGateway ks start start g fN fE = none := by
  simp only [searchGateway, gateway]
  split
  · rfl
  · rename_i u rest hpop
    have hstart : u.val = ⟨start, 0, 0⟩ := by
      have hperm := ((IndexedHeap.MinHeap.empty PQNode.cost).toList_push ⟨start, 0, 0⟩).symm.trans
        (IndexedHeap.MinHeap.pop_spec _ hpop).1
      have hmem : u.val ∈ [(⟨start, 0, 0⟩ : PQNode)] := hperm.symm.subset (List.mem_cons_self ..)
      exact List.mem_singleton.mp hmem
    rw [hstart]
    simp [initialState]

theorem firstResult_of_returned {path : Path} {es : List Edge}
    (h : Returned (N.solver 1) start end_ N.graph none none
      (searchGateway (N.solver 1) start end_ N.graph none none) path es) :
    FirstResult N start end_ path := by
  have hroute : N.IsRoute start end_ path.hops := by
    refine ⟨?_, by simp [h.hops, trailHops], ?_, h.nodup⟩
    · rw [h.hops]
      exact (trail_chain h.trail).imp fun _ _ => arc_graph_iff.mp
    · rw [h.hops]
      exact trail_getLast h.trail
  refine ⟨hroute, ?_, ?_, ?_⟩
  · rw [h.cost, trail_sum N.within_graph 1 h.trail, h.hops]
  · intro q hq
    by_cases hse : start = end_
    · subst hse
      rw [isSimplePath_self_iff.mp hq, isSimplePath_self_iff.mp hroute]
    · have hne : ∀ fs, Trail N.graph none none start fs end_ → fs ≠ [] := by
        intro fs ht heq
        subst heq
        have hnil := trail_getLast ht
        unfold trailHops at hnil
        rw [List.map_nil, List.getLast?_singleton, Option.some.injEq] at hnil
        exact hse hnil
      obtain ⟨fs, ht, rfl⟩ := trail_of_route hq
      have hle := h.nearest fs (hne fs ht) ht
      rw [trail_sum_dropLast N.within_graph 1 h.trail (hne es h.trail),
        trail_sum_dropLast N.within_graph 1 ht (hne fs ht), ← h.hops] at hle
      exact hle
  · change _ = searchGateway (N.solver 1) start end_ N.graph none none
    by_cases hse : end_ = start
    · subst hse
      rw [isSimplePath_self_iff.mp hroute, searchGateway_self]
      rfl
    · exact Returned.getLast?_dropLast hse h

theorem firstSearch_cases (hs : start ≠ "") :
    (∃ path, (N.solver 1).findShortestPath start end_ N.graph none none = some (.ok path) ∧
      FirstResult N start end_ path) ∨
    (∃ err, (N.solver 1).findShortestPath start end_ N.graph none none = some (.error err)) ∧
      ¬ Relation.ReflTransGen N.Link start end_ := by
  rcases findShortestPath_outcome (N.within_graph.admissible 1 hs) end_ none none with
    ⟨path, es, hrun, hret⟩ | ⟨hrun, hno⟩
  · exact Or.inl ⟨path, hrun, firstResult_of_returned hret⟩
  · refine Or.inr ⟨⟨_, hrun⟩, fun hpath => hno ?_⟩
    exact Relation.ReflTransGen.mono (fun _ _ h => arc_graph_iff.mpr h) _ _ hpath

/-- The route that the search at `root` finds. -/
def spurRoute (N : Network) (end_ : String) (root : List String) (X : Finset String) :
    Option (List String) :=
  match root.getLast? with
  | none => none
  | some s => (foundHops (spurSearch N end_ root.dropLast s X)).map (root.dropLast ++ ·)

theorem spurRoute_snoc : spurRoute N end_ (r ++ [s]) X =
    (foundHops (spurSearch N end_ r s X)).map (r ++ ·) := by
  simp [spurRoute]

theorem exists_snoc_of_rootOf {root p : List String} (h : RootOf root p) :
    ∃ r s, root = r ++ [s] :=
  ⟨_, _, (List.dropLast_append_getLast h.2.2).symm⟩

theorem spurRoute_cases {root p : List String} (hp : N.IsRoute start end_ p)
    (hroot : RootOf root p) (X : Finset String) :
    (∃ q, spurRoute N end_ root X = some q ∧ Leaves (N.IsRoute start end_) root X q ∧
      (∀ q', Leaves (N.IsRoute start end_) root X q' →
        N.routeWeight q.dropLast ≤ N.routeWeight q'.dropLast) ∧
      q.dropLast.getLast? = rootGateway N start end_ root X) ∨
    (spurRoute N end_ root X = none ∧ ∀ q, ¬ Leaves (N.IsRoute start end_) root X q) := by
  obtain ⟨r, s, rfl⟩ := exists_snoc_of_rootOf hroot
  rw [spurRoute_snoc]
  rcases spurSearch_cases hp hroot X with ⟨path, hrun, hres⟩ | ⟨⟨err, hrun⟩, hno⟩
  · exact Or.inl ⟨r ++ path.hops, by simp [hrun, foundHops], hres.leaves, hres.nearest,
      hres.last⟩
  · exact Or.inr ⟨by simp [hrun, foundHops], hno⟩

def firstRoute (N : Network) (start end_ : String) : Option (List String) :=
  foundHops ((N.solver 1).findShortestPath start end_ N.graph none none)

theorem firstRoute_cases (hs : start ≠ "") :
    (∃ q, firstRoute N start end_ = some q ∧ N.IsRoute start end_ q ∧
      (∀ q', N.IsRoute start end_ q' → N.routeWeight q.dropLast ≤ N.routeWeight q'.dropLast) ∧
      q.dropLast.getLast? = rootGateway N start end_ [] ∅) ∨
    (firstRoute N start end_ = none ∧ ∀ q, ¬ N.IsRoute start end_ q) := by
  rcases @firstSearch_cases N start end_ hs with ⟨path, hrun, hres⟩ | ⟨⟨err, hrun⟩, hno⟩
  · exact Or.inl ⟨path.hops, by simp [firstRoute, hrun, foundHops], hres.route,
      hres.nearest, hres.last⟩
  · exact Or.inr ⟨by simp [firstRoute, hrun, foundHops], fun q hq => hno hq.reflTransGen⟩

/-- The routes between two nodes, enumerated by the searches of the solver. -/
def scheme (N : Network) (start end_ : String) (hs : start ≠ "") : Scheme String where
  Member := N.IsRoute start end_
  origin := start
  first := firstRoute N start end_
  spur := spurRoute N end_
  prefix_free := fun _ _ hp hq => hp.prefix_free hq
  head := by
    intro p hp
    obtain ⟨l, rfl⟩ := hp.eq_cons
    exact ⟨l, rfl⟩
  first_member := by
    intro q hq
    rcases @firstRoute_cases N start end_ hs with ⟨q', hq', hroute, -⟩ | ⟨hnone, -⟩
    · rw [hq, Option.some.injEq] at hq'
      exact hq' ▸ hroute
    · simp [hq] at hnone
  first_none := by
    intro hnone
    rcases @firstRoute_cases N start end_ hs with ⟨q', hq', -, -⟩ | ⟨-, hno⟩
    · simp [hnone] at hq'
    · exact hno
  spur_sound := by
    intro p root X q hp hroot hq
    rcases spurRoute_cases hp hroot X with ⟨q', hq', hleaves, -⟩ | ⟨hnone, -⟩
    · rw [hq, Option.some.injEq] at hq'
      exact hq' ▸ hleaves
    · simp [hq] at hnone
  spur_none := by
    intro p root X hp hroot hnone q hq x hx hpre
    rcases spurRoute_cases hp hroot X with ⟨q', hq', -, -⟩ | ⟨-, hno⟩
    · simp [hnone] at hq'
    · exact hno q ⟨hq, x, hx, hpre⟩

/-- Of two routes with the same last edge the one that is cheaper before it is cheaper. -/
theorem routeWeight_le_of_last {p q : List String} (hp : N.IsRoute start end_ p)
    (hq : N.IsRoute start end_ q) (hnear : N.routeWeight q.dropLast ≤ N.routeWeight p.dropLast)
    (hlast : q.dropLast.getLast? = p.dropLast.getLast?) : N.routeWeight q ≤ N.routeWeight p := by
  obtain ⟨l, rfl⟩ := List.getLast?_eq_some_iff.mp hp.last
  obtain ⟨m, rfl⟩ := List.getLast?_eq_some_iff.mp hq.last
  rw [List.dropLast_concat, List.dropLast_concat] at hnear hlast
  cases hu : l.getLast? with
  | none =>
    rw [hu] at hlast
    rw [List.getLast?_eq_none_iff.mp hu, List.getLast?_eq_none_iff.mp hlast]
  | some u =>
    obtain ⟨l, rfl⟩ := List.getLast?_eq_some_iff.mp hu
    obtain ⟨m, rfl⟩ := List.getLast?_eq_some_iff.mp (hlast.trans hu)
    have hsplit : ∀ l : List String, N.routeWeight (l ++ [u] ++ [end_]) =
        N.routeWeight (l ++ [u]) + N.routeWeight [u, end_] := by
      intro l
      rw [List.append_assoc]
      exact routeWeight_splice [end_]
    rw [hsplit, hsplit]
    exact add_le_add hnear le_rfl

end Arcturus.SpurSearch
