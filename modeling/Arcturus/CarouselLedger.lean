import Arcturus.CarouselFlows
import Mathlib.Logic.Relation

/-!
The ledger of the carousel-greedy solver: which changes it goes through, and what holds
of every ledger that such changes reach. The flow of an edge is the number of current
paths that pass it, and the counts and the used set mirror the list of paths.
-/

namespace Arcturus.Carousel

open GoMaps SimplePaths EdgeLists

section Moves

/-- The edge as it is without a ban. -/
def EdgeFlow.unbanned (ef : EdgeFlow) : EdgeFlow := { ef with banned := false }

/-- The graphs differ in bans only. -/
def SameFlows (g g' : ResidualGraph) : Prop :=
  g.keys = g'.keys ∧ ∀ e, (g.val e).unbanned = (g'.val e).unbanned

variable (d : FlowOptimizationSolver) (start : String) (validEnds : List String)

/-- The path may be entered: a search found it, it is not in use, and its destination
has room for one more. -/
structure Admitted (L : Ledger) (pi : PathWithInfo) : Prop where
  found : Found d L.graph start pi
  fresh : L.usedPaths.val (pathToString pi.path) = false
  listed : pi.dest ∈ validEnds
  room : L.destFlowCount.val pi.dest < (d.flowsPerDest * validEnds.count pi.dest : ℕ)

inductive Move : Ledger → Ledger → Prop where
  | ban {L : Ledger} {g : ResidualGraph} (h : SameFlows g L.graph) : Move L { L with graph := g }
  | insert {L : Ledger} {pi : PathWithInfo} (h : Admitted d start validEnds L pi) :
      Move L (L.insert pi)
  | remove {L : Ledger} {pi : PathWithInfo} {rest : List PathWithInfo}
      (h : L.allPaths = pi :: rest) : Move L (L.remove pi rest)

def Reached (L : Ledger) : Prop := Relation.ReflTransGen (Move d start validEnds) d.startLedger L

/-- What does not depend on the other paths. -/
structure Kept (pi : PathWithInfo) : Prop where
  simple : IsSimplePath (Beside d.edges) start pi.dest pi.path
  short : pi.path.length ≤ maxHops
  listed : pi.dest ∈ validEnds

/-- How many of the paths pass an edge. -/
def passing (paths : List PathWithInfo) (e : String × String) : ℕ :=
  paths.countP fun pi => (steps pi.path).contains e

/-- The flow of each edge is the number of the paths that pass it. -/
structure Balanced (L : Ledger) : Prop where
  keys : L.graph.keys = d.buildResidualGraphWithCapacity.keys
  effCap : ∀ e, (L.graph.val e).effCap = (d.buildResidualGraphWithCapacity.val e).effCap
  flow : ∀ e ∈ L.graph.keys, (L.graph.val e).flow = passing L.allPaths e
  residual : ∀ e ∈ L.graph.keys,
    (L.graph.val e).residual = (L.graph.val e).effCap - (L.graph.val e).flow

/-- The counts and the used set are those of the list of paths. -/
structure Mirrored (L : Ledger) : Prop where
  count : ∀ x, L.destFlowCount.val x = L.allPaths.countP fun pi => pi.dest = x
  used : ∀ s, s ∈ L.usedPaths.keys ↔ ∃ pi ∈ L.allPaths, pathToString pi.path = s
  used_val : ∀ s, L.usedPaths.val s = true ↔ s ∈ L.usedPaths.keys
  distinct : (L.allPaths.map fun pi => pathToString pi.path).Nodup
  room : ∀ x, (L.allPaths.countP fun pi => pi.dest = x) ≤ d.flowsPerDest * validEnds.count x

structure Consistent (L : Ledger) : Prop where
  balanced : Balanced d L
  mirrored : Mirrored d validEnds L
  kept : ∀ pi ∈ L.allPaths, Kept d start validEnds pi

end Moves

section Steps

variable {d : FlowOptimizationSolver} {start : String} {validEnds : List String} {L : Ledger}
  {pi : PathWithInfo} {rest : List PathWithInfo}

theorem balanced_start : Balanced d d.startLedger := by
  refine ⟨rfl, fun e => rfl, ?_, ?_⟩
  · intro e he
    obtain ⟨e', -, -, hval⟩ := build_val he
    simp [FlowOptimizationSolver.startLedger, hval, passing, FlowOptimizationSolver.newEdgeFlow]
  · intro e he
    obtain ⟨e', -, -, hval⟩ := build_val he
    simp [FlowOptimizationSolver.startLedger, hval, FlowOptimizationSolver.newEdgeFlow]

theorem Balanced.ban {g : ResidualGraph} (h : Balanced d L) (hg : SameFlows g L.graph) :
    Balanced d { L with graph := g } := by
  have hflow := fun e => congrArg EdgeFlow.flow (hg.2 e)
  have hcap := fun e => congrArg EdgeFlow.effCap (hg.2 e)
  have hres := fun e => congrArg EdgeFlow.residual (hg.2 e)
  simp only [EdgeFlow.unbanned] at hflow hcap hres
  refine ⟨hg.1.trans h.keys, ?_, ?_, ?_⟩
  · intro e
    rw [hcap, h.effCap]
  · intro e he
    rw [hflow, h.flow e (hg.1 ▸ he)]
  · intro e he
    rw [hres, hcap, hflow, h.residual e (hg.1 ▸ he)]

theorem passing_concat (paths : List PathWithInfo) (e : String × String) :
    passing (paths ++ [pi]) e = passing paths e + if e ∈ steps pi.path then 1 else 0 := by
  simp [passing, List.countP_append, List.countP_singleton]

theorem passing_cons (e : String × String) :
    passing (pi :: rest) e = passing rest e + if e ∈ steps pi.path then 1 else 0 := by
  simp [passing, List.countP_cons]

/-- A change of the edges of one path that counts the paths right keeps the balance. -/
theorem Balanced.updatePath {L' : Ledger} {f : EdgeFlow → EdgeFlow} {path : List String}
    (h : Balanced d L) (hgraph : L'.graph = updatePath f L.graph path) (hnodup : path.Nodup)
    (hcap : ∀ ef, (f ef).effCap = ef.effCap)
    (hres : ∀ ef, (f ef).residual = (f ef).effCap - (f ef).flow)
    (hflow : ∀ e ∈ L.graph.keys,
      (if e ∈ steps path then (f (L.graph.val e)).flow else (L.graph.val e).flow) =
        passing L'.allPaths e) :
    Balanced d L' := by
  have hkeys : L'.graph.keys = L.graph.keys := by
    rw [hgraph]
    exact foldl_updateEdge_keys _
  have hval : ∀ e ∈ L'.graph.keys, L'.graph.val e =
      if e ∈ steps path then f (L.graph.val e) else L.graph.val e := by
    intro e he
    rw [hkeys] at he
    rw [hgraph]
    exact foldl_updateEdge_val (nodup_steps hnodup) he
  refine ⟨hkeys.trans h.keys, ?_, ?_, ?_⟩
  · intro e
    rw [hgraph, ← h.effCap e]
    exact foldl_updateEdge_proj (π := EdgeFlow.effCap) hcap _ e
  · intro e he
    rw [hval e he, ← hflow e (hkeys ▸ he)]
    split <;> rfl
  · intro e he
    rw [hval e he]
    split
    · exact hres _
    · exact h.residual e (hkeys ▸ he)

theorem Balanced.insert (h : Balanced d L) (hnodup : pi.path.Nodup) : Balanced d (L.insert pi) := by
  apply h.updatePath (f := EdgeFlow.allocate 1) rfl hnodup (fun ef => rfl) (fun ef => rfl)
  intro e he
  change _ = ((passing (L.allPaths ++ [pi]) e : ℕ) : ℚ)
  rw [passing_concat]
  split
  · simp [EdgeFlow.allocate, EdgeFlow.updateResidual, h.flow e he]
  · simp [h.flow e he]

/-- The oldest path holds one unit on each of its edges. -/
theorem Balanced.flow_front (h : Balanced d L) (hfront : L.allPaths = pi :: rest)
    {e : String × String} (hkey : e ∈ L.graph.keys) (he : e ∈ steps pi.path) :
    (L.graph.val e).flow = passing rest e + 1 := by
  rw [h.flow e hkey, hfront, passing_cons, if_pos he]
  push_cast
  rfl

theorem Balanced.remove (h : Balanced d L) (hfront : L.allPaths = pi :: rest)
    (hnodup : pi.path.Nodup) : Balanced d (L.remove pi rest) := by
  apply h.updatePath (f := EdgeFlow.release 1) rfl hnodup (fun ef => rfl) (fun ef => rfl)
  intro e he
  change _ = ((passing rest e : ℕ) : ℚ)
  split
  · rename_i hmem
    have hnonneg : ¬ ((passing rest e : ℕ) : ℚ) < 0 := not_lt.mpr (Nat.cast_nonneg _)
    simp [EdgeFlow.release, EdgeFlow.updateResidual, h.flow_front hfront he hmem, hnonneg]
  · rename_i hmem
    rw [h.flow e he, hfront, passing_cons, if_neg hmem, Nat.add_zero]

theorem mirrored_start : Mirrored d validEnds d.startLedger := by
  refine ⟨fun x => rfl, ?_, ?_, List.nodup_nil, fun x => Nat.zero_le _⟩
  · intro s
    simp [FlowOptimizationSolver.startLedger, GoMap.empty]
  · intro s
    simp [FlowOptimizationSolver.startLedger, GoMap.empty]

theorem Mirrored.insert (h : Mirrored d validEnds L) (hpi : Admitted d start validEnds L pi) :
    Mirrored d validEnds (L.insert pi) := by
  have hcount : ∀ x, ((L.allPaths ++ [pi]).countP fun p => p.dest = x) =
      (L.allPaths.countP fun p => p.dest = x) + if pi.dest = x then 1 else 0 := by
    intro x
    simp [List.countP_append, List.countP_singleton]
  refine ⟨?_, ?_, ?_, ?_, ?_⟩
  · intro x
    change (L.destFlowCount.set pi.dest _).val x = ((L.allPaths ++ [pi]).countP _ : ℕ)
    rw [hcount]
    split
    · rename_i hx
      subst hx
      rw [GoMap.set_val_same, h.count]
      push_cast
      rfl
    · rename_i hx
      rw [GoMap.set_val_of_ne _ _ (Ne.symm hx), h.count, Nat.add_zero]
  · intro s
    change s ∈ (L.usedPaths.set _ true).keys ↔ ∃ p ∈ L.allPaths ++ [pi], _
    rw [GoMap.mem_set_keys, h.used]
    simp only [List.mem_append, List.mem_singleton, or_and_right, exists_or, exists_eq_left]
    rw [or_comm, eq_comm (a := s)]
  · intro s
    change (L.usedPaths.set _ true).val s = true ↔ s ∈ (L.usedPaths.set _ true).keys
    rw [GoMap.mem_set_keys, ← h.used_val]
    by_cases hs : s = pathToString pi.path
    · subst hs
      simp
    · rw [GoMap.set_val_of_ne _ _ hs]
      simp [hs]
  · change ((L.allPaths ++ [pi]).map _).Nodup
    rw [List.map_append, List.map_singleton, ← List.concat_eq_append, List.nodup_concat]
    refine ⟨?_, h.distinct⟩
    intro hmem
    have hused := (h.used_val _).mpr ((h.used _).mpr (List.mem_map.mp hmem))
    rw [hpi.fresh] at hused
    exact absurd hused (by simp)
  · intro x
    change (L.allPaths ++ [pi]).countP _ ≤ _
    rw [hcount]
    split
    · rename_i hx
      subst hx
      have hroom := hpi.room
      rw [h.count] at hroom
      exact_mod_cast hroom
    · exact h.room x

theorem Mirrored.nodup_paths (h : Mirrored d validEnds L) :
    (L.allPaths.map PathWithInfo.path).Nodup := by
  have hdistinct := h.distinct
  rw [← Function.comp_def pathToString PathWithInfo.path, ← List.map_map] at hdistinct
  exact hdistinct.of_map _

theorem Mirrored.remove (h : Mirrored d validEnds L) (hfront : L.allPaths = pi :: rest) :
    Mirrored d validEnds (L.remove pi rest) := by
  have hcount : ∀ x, (L.allPaths.countP fun p => p.dest = x) =
      (rest.countP fun p => p.dest = x) + if pi.dest = x then 1 else 0 := by
    intro x
    simp [hfront, List.countP_cons]
  have hdistinct := h.distinct
  rw [hfront, List.map_cons, List.nodup_cons] at hdistinct
  have hkeys : ∀ s, s ∈ (L.remove pi rest).usedPaths.keys ↔
      ∃ p ∈ rest, pathToString p.path = s := by
    intro s
    change s ∈ (L.usedPaths.erase _).keys ↔ _
    rw [GoMap.mem_erase_keys, h.used, hfront, List.exists_mem_cons_iff]
    constructor
    · intro hboth
      obtain ⟨heq | hrest, hne⟩ := hboth
      · exact absurd heq.symm hne
      · exact hrest
    · intro hrest
      refine ⟨Or.inr hrest, ?_⟩
      intro heq
      subst heq
      exact hdistinct.1 (List.mem_map.mpr hrest)
  refine ⟨?_, hkeys, ?_, hdistinct.2, ?_⟩
  · intro x
    change (L.destFlowCount.set pi.dest _).val x = (rest.countP _ : ℕ)
    have hx := h.count x
    rw [hcount] at hx
    by_cases hdest : pi.dest = x
    · subst hdest
      rw [GoMap.set_val_same, hx, if_pos rfl]
      push_cast
      omega
    · rw [GoMap.set_val_of_ne _ _ (Ne.symm hdest), hx, if_neg hdest, Nat.add_zero]
  · intro s
    change (L.usedPaths.erase _).val s = true ↔ s ∈ (L.usedPaths.erase _).keys
    rw [GoMap.mem_erase_keys, ← h.used_val]
    by_cases hs : s = pathToString pi.path
    · subst hs
      simp
    · rw [GoMap.erase_val_of_ne _ hs]
      simp [hs]
  · intro x
    have hx := h.room x
    rw [hcount] at hx
    exact le_trans (Nat.le_add_right _ _) hx

theorem Balanced.arc (h : Balanced d L) {e : String × String} (he : e ∈ L.graph.keys) :
    Arc d.edges e.1 e.2 :=
  mem_build_keys.mp (h.keys ▸ he)

/-- The flow of an edge is that of a current path. -/
theorem Balanced.exists_passing (h : Balanced d L) {e : String × String} (he : e ∈ L.graph.keys)
    (hflow : 0 < (L.graph.val e).flow) : ∃ pi ∈ L.allPaths, e ∈ steps pi.path := by
  rw [h.flow e he, Nat.cast_pos, passing, List.countP_pos_iff] at hflow
  obtain ⟨pi, hpi, hmem⟩ := hflow
  exact ⟨pi, hpi, by simpa using hmem⟩

/-- A step of the residual network is beside an edge of the list. -/
theorem Balanced.beside (h : Balanced d L) {u v : String} {c : ℚ}
    (hstep : ResidualStep d L.graph u v c) : Beside d.edges u v := by
  cases hstep with
  | forward hkey _ => exact Or.inl (h.arc hkey)
  | backward _ hkey _ => exact Or.inr (h.arc hkey)

theorem Balanced.kept (h : Balanced d L) (hpi : Admitted d start validEnds L pi) :
    Kept d start validEnds pi := by
  obtain ⟨hsimple, hshort⟩ := hpi.found.isSimplePath
  refine ⟨⟨?_, hsimple.head, hsimple.last, hsimple.nodup⟩, hshort, hpi.listed⟩
  exact hsimple.chain.imp fun a b hstep => h.beside hstep.choose_spec

theorem consistent_start : Consistent d start validEnds d.startLedger :=
  ⟨balanced_start, mirrored_start, fun _ hpi => absurd hpi List.not_mem_nil⟩

theorem Consistent.move {L' : Ledger} (h : Consistent d start validEnds L)
    (hmove : Move d start validEnds L L') : Consistent d start validEnds L' := by
  cases hmove with
  | ban hg =>
    have hm := h.mirrored
    exact ⟨h.balanced.ban hg, ⟨hm.count, hm.used, hm.used_val, hm.distinct, hm.room⟩, h.kept⟩
  | @insert pi hpi =>
    have hkept := h.balanced.kept hpi
    refine ⟨h.balanced.insert hkept.simple.nodup, h.mirrored.insert hpi, ?_⟩
    exact List.forall_mem_append.mpr ⟨h.kept, List.forall_mem_singleton.mpr hkept⟩
  | @remove pi rest hfront =>
    have hpi := h.kept pi (by rw [hfront]; exact List.mem_cons_self)
    refine ⟨h.balanced.remove hfront hpi.simple.nodup, h.mirrored.remove hfront, ?_⟩
    intro p hp
    exact h.kept p (by rw [hfront]; exact List.mem_cons_of_mem pi hp)

/-- The ledger is exact in every state that the solver reaches. -/
theorem consistent_of_reached (h : Reached d start validEnds L) :
    Consistent d start validEnds L := by
  induction h with
  | refl => exact consistent_start
  | tail _ hmove ih => exact ih.move hmove

end Steps

end Arcturus.Carousel
