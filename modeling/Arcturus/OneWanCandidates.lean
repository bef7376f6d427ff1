import Arcturus.OneWanSearch

/-!
The candidate paths of the ONE-WAN solver. The attempts for a destination gather
different simple paths with their latencies, and they gather none only if there is no
path of at most fifteen edges.
-/

namespace Arcturus.OneWan

open GoMaps GoStrings RandomChoices SimplePaths EdgeLists

section Candidates

variable {edges : List Edge} {graph_ : Graph} {start end_ : String}

/-- There is a simple path of at most fifteen edges. -/
def Reachable (edges : List Edge) (start end_ : String) : Prop :=
  ∃ p, IsSimplePath (Arc edges) start end_ p ∧ p.length ≤ dfsMaxHops + 1

/-- A path of this kind with its latency as cost and as raw value. -/
structure Measured (edges : List Edge) (start end_ : String) (hops : List String)
    (cost rawRTT : ℚ) : Prop where
  simple : IsSimplePath (Arc edges) start end_ hops
  short : hops.length ≤ dfsMaxHops + 1
  cost_eq : cost = routeLatency edges hops
  rawRTT_eq : rawRTT = routeLatency edges hops

theorem dfsRandomPath_measured (hgraph : Lists graph_ edges) (hone : OneEdge edges) {r : Draws}
    {path : Path} (h : (dfsRandomPath start end_ graph_ dfsMaxHops r).1 = some path) :
    Measured edges start end_ path.hops path.cost path.rawRTT := by
  obtain ⟨found, hfound, rfl⟩ := Option.map_eq_some_iff.mp h
  obtain ⟨p, hp, hsimple, -, hlength, hlatency⟩ :=
    dfs_sound hgraph hone (List.not_mem_nil (a := start)) hfound
  rw [List.nil_append] at hp
  subst hp
  exact ⟨hsimple, hlength, hlatency, hlatency⟩

theorem dfsRandomPath_isSome (hgraph : Lists graph_ edges) (h : Reachable edges start end_)
    (r : Draws) : (dfsRandomPath start end_ graph_ dfsMaxHops r).1.isSome := by
  obtain ⟨p, hp, hlength⟩ := h
  have hsome : (dfs graph_ end_ (dfsMaxHops + 1) [] start r).1.isSome :=
    dfs_isSome hgraph hp (fun _ _ => List.not_mem_nil) hlength r
  simpa [dfsRandomPath] using hsome

/-- The paths so far: measured, with different texts, which are those in use. -/
structure Gathered (edges : List Edge) (start end_ : String) (paths : List Path)
    (usedPaths : GoMap String Bool) : Prop where
  measured : ∀ path ∈ paths, Measured edges start end_ path.hops path.cost path.rawRTT
  distinct : (paths.map fun path => join path.hops "->").Nodup
  used : ∀ path ∈ paths, usedPaths.val (join path.hops "->") = true

theorem Gathered.concat {paths : List Path} {usedPaths : GoMap String Bool} {path : Path}
    (h : Gathered edges start end_ paths usedPaths)
    (hpath : Measured edges start end_ path.hops path.cost path.rawRTT)
    (hfresh : usedPaths.val (join path.hops "->") = false) :
    Gathered edges start end_ (paths ++ [path]) (usedPaths.set (join path.hops "->") true) := by
  refine ⟨List.forall_mem_append.mpr ⟨h.measured, List.forall_mem_singleton.mpr hpath⟩, ?_, ?_⟩
  · rw [List.map_append, List.map_singleton, ← List.concat_eq_append, List.nodup_concat]
    refine ⟨?_, h.distinct⟩
    intro hmem
    obtain ⟨q, hq, heq⟩ := List.mem_map.mp hmem
    have hused := h.used q hq
    rw [heq, hfresh] at hused
    exact absurd hused (by simp)
  · refine List.forall_mem_append.mpr ⟨?_, List.forall_mem_singleton.mpr (by simp)⟩
    intro q hq
    by_cases heq : join q.hops "->" = join path.hops "->"
    · rw [heq, GoMap.set_val_same]
    · rw [GoMap.set_val_of_ne _ _ heq]
      exact h.used q hq

theorem attempts_gathered (hgraph : Lists graph_ edges) (hone : OneEdge edges) {maxPaths : ℤ}
    {left : ℕ} {paths : List Path} {usedPaths : GoMap String Bool} {r : Draws}
    (h : Gathered edges start end_ paths usedPaths) :
    ∃ usedPaths', Gathered edges start end_
        (attempts start end_ graph_ maxPaths left paths usedPaths r).1 usedPaths' ∧
      paths <+: (attempts start end_ graph_ maxPaths left paths usedPaths r).1 := by
  induction left generalizing paths usedPaths r with
  | zero => exact ⟨usedPaths, h, List.prefix_refl _⟩
  | succ left ih =>
    unfold attempts
    split
    · exact ⟨usedPaths, h, List.prefix_refl _⟩
    · split
      · exact ih h
      · rename_i path r' heq
        have hpath := dfsRandomPath_measured hgraph hone (congrArg Prod.fst heq)
        simp only
        split
        · exact ih h
        · rename_i hfresh
          obtain ⟨used', hgathered, hprefix⟩ := ih (h.concat hpath (by simpa using hfresh))
          exact ⟨used', hgathered, (List.prefix_append _ _).trans hprefix⟩

/-- The first attempt finds a path if there is one. -/
theorem attempts_ne_nil (hgraph : Lists graph_ edges) (hone : OneEdge edges)
    (h : Reachable edges start end_) {maxPaths : ℤ} (hmax : 1 ≤ maxPaths) (left : ℕ) (r : Draws) :
    (attempts start end_ graph_ maxPaths (left + 1) [] GoMap.empty r).1 ≠ [] := by
  have hsome := dfsRandomPath_isSome hgraph h r
  have hroom : ¬ maxPaths ≤ ([] : List Path).length := by
    rw [List.length_nil, Nat.cast_zero]
    omega
  unfold attempts
  rw [if_neg hroom]
  split
  · rename_i r' heq
    rw [heq] at hsome
    exact absurd hsome (by simp)
  · rename_i path r' heq
    have hpath := dfsRandomPath_measured hgraph hone (congrArg Prod.fst heq)
    have hempty : Gathered edges start end_ [] GoMap.empty := ⟨by simp, by simp, by simp⟩
    have hfresh : (GoMap.empty : GoMap String Bool).val (join path.hops "->") = false := rfl
    simp only
    rw [if_neg (by simp [hfresh])]
    obtain ⟨_, -, hprefix⟩ := attempts_gathered hgraph hone (hempty.concat hpath hfresh)
    exact fun hnil => absurd (hnil ▸ hprefix) (by simp)

theorem deduplicateHops_of_nodup {hops : List String} (h : hops.Nodup) :
    deduplicateHops hops = hops := by
  cases hops with
  | nil => rfl
  | cons a l =>
    have hall : ∀ e ∈ steps (a :: l), decide (e.2 ≠ e.1) = true := by
      have hchain : (a :: l).IsChain (fun x y => y ≠ x) :=
        List.Pairwise.isChain (h.imp fun hne => Ne.symm hne)
      intro e he
      exact decide_eq_true (forall_mem_steps.mpr hchain e he)
    unfold deduplicateHops
    rw [List.filter_eq_self.mpr hall, steps, List.tail_cons, List.map_snd_zip (by simp)]
    rfl

/-- Short paths without repetitions are handed on as they are. -/
theorem pathInfos_eq {paths : List Path}
    (h : ∀ path ∈ paths, Measured edges start end_ path.hops path.cost path.rawRTT) :
    pathInfos paths = paths.map fun path => ⟨path.hops, path.cost, path.rawRTT⟩ := by
  have hshort : ∀ path ∈ paths, path.hops.length - 1 ≤ maxHops := by
    intro path hpath
    have hlength := (h path hpath).short
    unfold dfsMaxHops at hlength
    unfold maxHops
    omega
  have hinfos : (paths.filterMap fun path =>
      if (deduplicateHops path.hops).length - 1 > maxHops then none
      else some (⟨deduplicateHops path.hops, path.cost, path.rawRTT⟩ : PathInfo)) =
      paths.map fun path => ⟨path.hops, path.cost, path.rawRTT⟩ := by
    rw [← List.filterMap_eq_map]
    apply List.filterMap_congr
    intro path hpath
    rw [deduplicateHops_of_nodup (h path hpath).simple.nodup,
      if_neg (not_lt.mpr (hshort path hpath))]
    rfl
  unfold pathInfos
  simp only
  rw [hinfos]
  apply List.filter_eq_self.mpr
  intro info hinfo
  obtain ⟨path, hpath, rfl⟩ := List.mem_map.mp hinfo
  exact decide_eq_true (hshort path hpath)

/-- Candidates for a destination: at least one, all different, each a measured path. -/
structure Offers (edges : List Edge) (start : String) (dc : DestCandidates) : Prop where
  nonempty : dc.paths ≠ []
  distinct : (dc.paths.map PathInfo.hops).Nodup
  measured : ∀ p ∈ dc.paths, Measured edges start dc.end_ p.hops p.rtt p.rawRTT

end Candidates

section Generation

variable {os : ONEWANSolver} {start end_ : String}

theorem lists_graph (os : ONEWANSolver) : Lists os.graph os.edges := by
  intro u e
  have hval : os.graph.val u = os.edges.filter fun e => e.sourceIp == u :=
    GoMap.foldl_group_val _ os.edges GoMap.empty u
  rw [hval, List.mem_filter, beq_iff_eq]

theorem reachable_mem_nodes (hstart : start ∈ os.nodes) (h : Reachable os.edges start end_) :
    end_ ∈ os.nodes := by
  obtain ⟨p, hp, -⟩ := h
  rcases hp.reflTransGen.cases_tail with heq | ⟨c, -, e, he, -, hdest⟩
  · rw [heq]
    exact hstart
  · exact List.mem_flatMap.mpr ⟨e, he, by simp [hdest]⟩

/-- The paths to one destination: measured, different, and none only if there is none. -/
theorem randomDFSPaths_spec (hone : OneEdge os.edges) (hmax : 1 ≤ os.maxPaths)
    (start end_ : String) (r : Draws) :
    (∀ path ∈ (randomDFSPaths start end_ os.graph os.maxPaths r).1,
      Measured os.edges start end_ path.hops path.cost path.rawRTT) ∧
    ((randomDFSPaths start end_ os.graph os.maxPaths r).1.map Path.hops).Nodup ∧
    ((randomDFSPaths start end_ os.graph os.maxPaths r).1 = [] ↔
      ¬ Reachable os.edges start end_) := by
  have hgraph := lists_graph os
  have hempty : Gathered os.edges start end_ [] GoMap.empty := ⟨by simp, by simp, by simp⟩
  obtain ⟨used, hgathered, -⟩ : ∃ used, Gathered os.edges start end_
      (attempts start end_ os.graph os.maxPaths 100 [] GoMap.empty r).1 used ∧ _ :=
    attempts_gathered hgraph hone hempty
  have hperm : (randomDFSPaths start end_ os.graph os.maxPaths r).1.Perm
      (attempts start end_ os.graph os.maxPaths 100 [] GoMap.empty r).1 :=
    ExchangeSort.sort_perm _ _
  have hmeasured : ∀ path ∈ (randomDFSPaths start end_ os.graph os.maxPaths r).1,
      Measured os.edges start end_ path.hops path.cost path.rawRTT :=
    fun path hpath => hgathered.measured path (hperm.mem_iff.mp hpath)
  refine ⟨hmeasured, ?_, ?_⟩
  · have hdistinct := hgathered.distinct
    rw [← Function.comp_def (join · "->") Path.hops, ← List.map_map] at hdistinct
    exact (hperm.map Path.hops).nodup_iff.mpr (hdistinct.of_map _)
  · constructor
    · intro hnil hreach
      rw [hnil] at hperm
      exact attempts_ne_nil hgraph hone hreach hmax 99 r (List.nil_perm.mp hperm)
    · intro hnot
      by_contra hne
      obtain ⟨path, hpath⟩ := List.exists_mem_of_ne_nil _ hne
      exact hnot ⟨path.hops, (hmeasured path hpath).simple, (hmeasured path hpath).short⟩

theorem offers_take {paths : List Path} {edges : List Edge}
    (hmeasured : ∀ path ∈ paths, Measured edges start end_ path.hops path.cost path.rawRTT)
    (hdistinct : (paths.map Path.hops).Nodup) (hne : paths ≠ []) {n : ℕ} (hn : 0 < n) :
    Offers edges start ⟨end_, (pathInfos paths).take n, []⟩ := by
  rw [pathInfos_eq hmeasured]
  refine ⟨?_, ?_, ?_⟩
  · simp only [ne_eq, List.take_eq_nil_iff, List.map_eq_nil_iff, not_or]
    exact ⟨by omega, hne⟩
  · apply List.Nodup.sublist ((List.take_sublist n _).map PathInfo.hops)
    rw [List.map_map]
    exact hdistinct
  · intro p hp
    obtain ⟨path, hpath, rfl⟩ := List.mem_map.mp (List.mem_of_mem_take hp)
    exact hmeasured path hpath

open Classical in
/-- The destinations with candidates are those that are reachable, in the order of the
list. -/
theorem candidatePaths_spec (hone : OneEdge os.edges) (hmax : 1 ≤ os.maxPaths)
    (hstart : start ∈ os.nodes) (ends : List String) (r : Draws) :
    (os.candidatePaths start ends r).map DestCandidates.end_ =
        ends.filter (fun end_ => Reachable os.edges start end_) ∧
      ∀ dc ∈ os.candidatePaths start ends r, Offers os.edges start dc := by
  induction ends generalizing r with
  | nil => exact ⟨rfl, fun dc hdc => absurd hdc List.not_mem_nil⟩
  | cons end_ ends ih =>
    obtain ⟨hmeasured, hdistinct, hnil⟩ := randomDFSPaths_spec hone hmax start end_ r
    unfold ONEWANSolver.candidatePaths
    split
    · rename_i hnode
      have hnot : ¬ Reachable os.edges start end_ :=
        fun hreach => hnode (reachable_mem_nodes hstart hreach)
      rw [List.filter_cons_of_neg (by simpa using hnot)]
      exact ih r
    · simp only
      have hinfos : pathInfos (randomDFSPaths start end_ os.graph os.maxPaths r).1 = [] ↔
          ¬ Reachable os.edges start end_ := by
        rw [pathInfos_eq hmeasured, List.map_eq_nil_iff]
        exact hnil
      split
      · rename_i hempty
        rw [List.filter_cons_of_neg (by simpa using hinfos.mp hempty)]
        exact ih _
      · rename_i hsome
        have hreach : Reachable os.edges start end_ := not_not.mp (mt hinfos.mpr hsome)
        obtain ⟨hends, hoffers⟩ := ih (randomDFSPaths start end_ os.graph os.maxPaths r).2
        rw [List.filter_cons_of_pos (by simpa using hreach), List.map_cons, hends]
        refine ⟨rfl, List.forall_mem_cons.mpr ⟨?_, hoffers⟩⟩
        have hne := mt hnil.mp (not_not.mpr hreach)
        have htake : ∀ infos : List PathInfo,
            (if infos.length > os.maxPaths then infos.take os.maxPaths.toNat else infos) =
              infos.take os.maxPaths.toNat := by
          intro infos
          split
          · rfl
          · rw [List.take_of_length_le (by omega)]
        rw [htake]
        exact offers_take hmeasured hdistinct hne (by omega)

end Generation

end Arcturus.OneWan
