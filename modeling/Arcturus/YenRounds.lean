import Arcturus.SpurStep

/-!
The outer loop of Yen's algorithm as a run of rounds. A round offers every
candidate of the enumeration to the queue and moves a cheapest one to the found
paths. Entries left in the queue stay candidates, so the queue always holds
candidates only, each once, and a round that finds it empty has found all routes.
-/

namespace Arcturus.YenRounds

open IndexedHeap GoMaps GoStrings KShortest KShortestSolver SimplePaths RouteGraph
open SpurSearch SpurStep Deviation

/-- A fold that keeps `P`, only grows along `R`, and establishes `Q` for every element. -/
theorem foldlM_establishes {σ α : Type*} {f : σ → α → Option σ} {P : σ → Prop}
    {R : σ → σ → Prop} {Q : α → σ → Prop} (hrefl : ∀ s, R s s)
    (htrans : ∀ s t u, R s t → R t u → R s u) (hQ : ∀ a s t, R s t → Q a s → Q a t)
    (l : List α) (hstep : ∀ a ∈ l, ∀ s, P s → ∃ t, f s a = some t ∧ P t ∧ R s t ∧ Q a t) (s : σ)
    (hs : P s) : ∃ t, l.foldlM f s = some t ∧ P t ∧ R s t ∧ ∀ a ∈ l, Q a t := by
  induction l generalizing s with
  | nil => exact ⟨s, rfl, hs, hrefl s, by simp⟩
  | cons a l ih =>
    obtain ⟨t, hf, hPt, hRt, hQt⟩ := hstep a (List.mem_cons_self ..) s hs
    obtain ⟨u, hfold, hPu, hRu, hQu⟩ :=
      ih (fun b hb => hstep b (List.mem_cons_of_mem _ hb)) t hPt
    refine ⟨u, ?_, hPu, htrans s t u hRt hRu, ?_⟩
    · rw [List.foldlM_cons, hf]
      exact hfold
    · intro b hb
      rcases List.mem_cons.mp hb with rfl | hb
      · exact hQ b t u hRu hQt
      · exact hQu b hb

section Rounds
variable {N : Network} {start end_ : String} {hs : start ≠ ""}

/-- The queue holds candidates with their weights, no name twice. -/
structure QueueInv (N : Network) (start end_ : String) (hs : start ≠ "")
    (found : List (List String)) (B : PriorityQueue) : Prop where
  candidate : ∀ x ∈ B.toList, ∃ q, (scheme N start end_ hs).Candidate found q ∧
    x.node = routeName q ∧ x.cost = N.routeWeight q
  nodup : (B.toList.map PQNode.node).Nodup

theorem queueInv_empty (found : List (List String)) :
    QueueInv N start end_ hs found (MinHeap.empty PQNode.cost) :=
  ⟨by simp [MinHeap.toList, MinHeap.empty, vals], by simp [MinHeap.toList, MinHeap.empty, vals]⟩

theorem QueueInv.offered {found : List (List String)} {B B' : PriorityQueue} {q : List String}
    (h : QueueInv N start end_ hs found B) (hq : (scheme N start end_ hs).Candidate found q)
    (ho : Offered N B q B') : QueueInv N start end_ hs found B' ∧
      (∀ x ∈ B.toList, x ∈ B'.toList) ∧ Queued B' q := by
  rcases ho with ⟨hin, rfl⟩ | ⟨hnot, rtt, rfl⟩
  · exact ⟨h, fun x hx => hx, hin⟩
  · have hperm := B.toList_push ⟨routeName q, N.routeWeight q, rtt⟩
    refine ⟨⟨?_, ?_⟩, ?_, ?_⟩
    · intro x hx
      rcases List.mem_cons.mp (hperm.mem_iff.mp hx) with rfl | hx
      · exact ⟨q, hq, rfl, rfl⟩
      · exact h.candidate x hx
    · rw [(hperm.map PQNode.node).nodup_iff, List.map_cons, List.nodup_cons]
      refine ⟨?_, h.nodup⟩
      intro hmem
      obtain ⟨x, hx, heq⟩ := List.mem_map.mp hmem
      exact hnot ⟨x, hx, heq⟩
    · exact fun x hx => hperm.mem_iff.mpr (List.mem_cons_of_mem _ hx)
    · exact ⟨_, hperm.mem_iff.mpr (List.mem_cons_self ..), rfl⟩

/-- The state of a round: the complete graph and a queue of candidates. -/
def RoundState (N : Network) (start end_ : String) (hs : start ≠ "") (found : List (List String))
    (st : YenState) : Prop :=
  st.graphCopy = N.graph ∧ QueueInv N start end_ hs found st.B

def Grows (st st' : YenState) : Prop := ∀ x ∈ st.B.toList, x ∈ st'.B.toList

theorem queued_grows {st st' : YenState} (h : Grows st st') {q : List String}
    (hq : Queued st.B q) : Queued st'.B q := by
  obtain ⟨x, hx, hnode⟩ := hq
  exact ⟨x, h x hx, hnode⟩

/-- The candidates of one root are queued. -/
def RootQueued (N : Network) (end_ : String) (found : List (List String)) (root : List String)
    (st : YenState) : Prop :=
  ∀ q, spurRoute N end_ root (nextHops found root) = some q → Queued st.B q

theorem exists_split {p : List String} {j : ℕ} (hj : j < p.length - 1) :
    ∃ r s rest, p = r ++ s :: rest ∧ r.length = j ∧ rest ≠ [] := by
  have hlt : j < p.length := by omega
  refine ⟨p.take j, p[j], p.drop (j + 1), by simp, ?_, ?_⟩
  · rw [List.length_take]
    omega
  · rw [List.ne_nil_iff_length_pos, List.length_drop]
    omega

theorem spurStep_round (hname : ¬ Contains start "->") (k : ℤ) {A : List Path}
    (hA : ∀ p ∈ A.map Path.hops, N.IsRoute start end_ p) {p : List String}
    (hp : p ∈ A.map Path.hops) {j : ℕ} (hj : j < p.length - 1) {st : YenState}
    (hst : RoundState N start end_ hs (A.map Path.hops) st) :
    ∃ st', (N.solver k).spurStep end_ A p st j = some st' ∧
      RoundState N start end_ hs (A.map Path.hops) st' ∧ Grows st st' ∧
      RootQueued N end_ (A.map Path.hops) (p.take (j + 1)) st' := by
  obtain ⟨graphCopy, B⟩ := st
  obtain ⟨rfl, hinv⟩ := hst
  obtain ⟨r, s, rest, rfl, rfl, hrest⟩ := exists_split hj
  have htake : (r ++ s :: rest).take (r.length + 1) = r ++ [s] := by simp [List.take_append]
  rw [htake]
  obtain ⟨B', hrun, hcases⟩ := spurStep_snoc hname k hA hp hrest B
  refine ⟨_, hrun, ?_⟩
  rcases hcases with ⟨hnone, rfl⟩ | ⟨q, hq, hoffer⟩
  · refine ⟨⟨rfl, hinv⟩, fun x hx => hx, ?_⟩
    intro q hq
    simp [hnone] at hq
  · have hcand : (scheme N start end_ hs).Candidate (A.map Path.hops) q :=
      ⟨_, hp, r ++ [s], rootOf_snoc hrest, hq⟩
    obtain ⟨hinv', hgrow, hqueued⟩ := hinv.offered hcand hoffer
    refine ⟨⟨rfl, hinv'⟩, hgrow, ?_⟩
    intro q' hq'
    rw [hq, Option.some.injEq] at hq'
    exact hq' ▸ hqueued

/-- A round queues every candidate and puts the graph back. -/
theorem spurRound_spec (hname : ¬ Contains start "->") (k : ℤ) {A : List Path}
    (hA : ∀ p ∈ A.map Path.hops, N.IsRoute start end_ p) {st : YenState}
    (hst : RoundState N start end_ hs (A.map Path.hops) st) :
    ∃ st', (N.solver k).spurRound end_ A st = some st' ∧
      RoundState N start end_ hs (A.map Path.hops) st' ∧
      ∀ q, (scheme N start end_ hs).Candidate (A.map Path.hops) q → Queued st'.B q := by
  have hrefl : ∀ st, Grows st st := fun st x hx => hx
  have htrans : ∀ s t u, Grows s t → Grows t u → Grows s u := fun s t u h1 h2 x hx => h2 x (h1 x hx)
  have hpath : ∀ p ∈ A, ∀ st, RoundState N start end_ hs (A.map Path.hops) st →
      ∃ st', (List.range (p.hops.length - 1)).foldlM ((N.solver k).spurStep end_ A p.hops) st =
          some st' ∧ RoundState N start end_ hs (A.map Path.hops) st' ∧ Grows st st' ∧
        ∀ j ∈ List.range (p.hops.length - 1),
          RootQueued N end_ (A.map Path.hops) (p.hops.take (j + 1)) st' := by
    intro p hp st hst
    refine foldlM_establishes hrefl htrans
      (fun j s t hg hq q hfound => queued_grows hg (hq q hfound)) _ ?_ st hst
    intro j hj st hst
    exact spurStep_round hname k hA (List.mem_map_of_mem hp) (List.mem_range.mp hj) hst
  obtain ⟨st', hrun, hst', -, hall⟩ := foldlM_establishes hrefl htrans
    (fun p s t hg hq j hj q hfound => queued_grows hg (hq j hj q hfound)) A hpath st hst
  refine ⟨st', hrun, hst', ?_⟩
  intro q hqueued
  obtain ⟨_, hp, root, hroot, hspur⟩ := hqueued
  obtain ⟨p, hpA, rfl⟩ := List.mem_map.mp hp
  obtain ⟨hpre, hne, hnil⟩ := hroot
  have hpos := List.length_pos_of_ne_nil hnil
  have hlt : root.length < p.hops.length :=
    lt_of_le_of_ne hpre.length_le fun he => hne (hpre.eq_of_length he)
  have htake : p.hops.take (root.length - 1 + 1) = root := by
    rw [Nat.sub_add_cancel hpos]
    exact (List.prefix_iff_eq_take.mp hpre).symm
  apply hall p hpA (root.length - 1) (List.mem_range.mpr (by omega)) q
  rw [htake]
  exact hspur

theorem spurRound_congr {ks ks' : KShortestSolver} (h : ks.weight = ks'.weight) :
    ks.spurRound = ks'.spurRound := by
  have hcost : ks.calculatePathCost = ks'.calculatePathCost := by
    funext g hops
    induction hops with
    | nil => rfl
    | cons a hops ih =>
      cases hops with
      | nil => rfl
      | cons b hops => simp only [calculatePathCost, ih, h]
  have hstep : ks.spurStep = ks'.spurStep := by
    funext end_ A hops st j
    simp only [spurStep, completePath, findShortestPath_congr h, hcost]
  funext end_ A st
  rw [spurRound, spurRound, hstep]

/-- The path that a popped entry stands for. -/
def poppedPath (x : PQNode) : Path where
  hops := removeConsecutiveDuplicates (split x.node "->")
  cost := x.cost
  rawRTT := x.rawRTT

/-- One pass of the outer loop that adds a path. -/
def Round (N : Network) (end_ : String) (A : List Path) (st : YenState) (A' : List Path)
    (st' : YenState) : Prop :=
  ∃ mid x B, (N.solver 1).spurRound end_ A st = some mid ∧ mid.B.pop = some (x, B) ∧
    isPathInList (poppedPath x.val).hops A = false ∧ A' = A ++ [poppedPath x.val] ∧
    st' = { mid with B }

/-- The runs of the outer loop. -/
inductive Run (N : Network) (start end_ : String) : List Path → YenState → Prop
  | first {path : Path} :
      (N.solver 1).findShortestPath start end_ N.graph none none = some (.ok path) →
      Run N start end_ [{ path with hops := removeConsecutiveDuplicates path.hops }]
        { graphCopy := N.graph, B := MinHeap.empty PQNode.cost }
  | next {A A' : List Path} {st st' : YenState} : Run N start end_ A st →
      Round N end_ A st A' st' → Run N start end_ A' st'

/-- What holds before every pass of the outer loop. -/
structure YenInv (N : Network) (start end_ : String) (hs : start ≠ "") (A : List Path)
    (st : YenState) : Prop where
  best : (scheme N start end_ hs).BestFound N.routeWeight (A.map Path.hops)
  cost : ∀ p ∈ A, p.cost = N.routeWeight p.hops
  state : RoundState N start end_ hs (A.map Path.hops) st

theorem YenInv.route {A : List Path} {st : YenState} (h : YenInv N start end_ hs A st) :
    ∀ p ∈ A.map Path.hops, N.IsRoute start end_ p := h.best.found.member

/-- A popped entry is a candidate that no other candidate beats. -/
theorem popped_best (hname : ¬ Contains start "->") {found : List (List String)}
    (hfound : ∀ p ∈ found, N.IsRoute start end_ p) {B rest : PriorityQueue} {x : Slot PQNode}
    (h : QueueInv N start end_ hs found B)
    (hall : ∀ q, (scheme N start end_ hs).Candidate found q → Queued B q)
    (hp : B.pop = some (x, rest)) :
    ∃ q, (scheme N start end_ hs).Candidate found q ∧ N.IsRoute start end_ q ∧
      x.val.node = routeName q ∧ x.val.cost = N.routeWeight q ∧
      ∀ r, (scheme N start end_ hs).Candidate found r → N.routeWeight q ≤ N.routeWeight r := by
  have hroute : ∀ q, (scheme N start end_ hs).Candidate found q → N.IsRoute start end_ q := by
    intro q hq
    obtain ⟨_, -, hopen, -⟩ := Scheme.candidate_open hfound hq
    exact hopen.1
  obtain ⟨hperm, hmin⟩ := B.pop_spec hp
  obtain ⟨q, hq, hnode, hcost⟩ := h.candidate x.val (hperm.mem_iff.mpr (List.mem_cons_self ..))
  refine ⟨q, hq, hroute q hq, hnode, hcost, ?_⟩
  intro r hr
  obtain ⟨y, hy, hyname⟩ := hall r hr
  obtain ⟨r', hr', hyname', hycost⟩ := h.candidate y hy
  have heq : r' = r :=
    routeName_injective hname (hroute r' hr') (hroute r hr) (hyname'.symm.trans hyname)
  subst heq
  rw [← hcost, ← hycost]
  exact hmin y hy

/-- What stays in the queue are candidates for the longer list. -/
theorem QueueInv.popped {found : List (List String)}
    (hfound : ∀ p ∈ found, N.IsRoute start end_ p) {B rest : PriorityQueue} {x : Slot PQNode}
    (h : QueueInv N start end_ hs found B) (hp : B.pop = some (x, rest)) {q : List String}
    (hq : (scheme N start end_ hs).Candidate found q) (hnode : x.val.node = routeName q) :
    QueueInv N start end_ hs (found ++ [q]) rest := by
  have hperm := (B.pop_spec hp).1
  have hnodup := ((hperm.map PQNode.node).nodup_iff).mp h.nodup
  rw [List.map_cons, List.nodup_cons] at hnodup
  refine ⟨?_, hnodup.2⟩
  intro y hy
  obtain ⟨r, hr, hyname, hycost⟩ := h.candidate y (hperm.mem_iff.mpr (List.mem_cons_of_mem _ hy))
  refine ⟨r, Scheme.candidate_persists hfound hq hr ?_, hyname, hycost⟩
  intro heq
  subst heq
  apply hnodup.1
  rw [hnode, ← hyname]
  exact List.mem_map_of_mem hy

/-- A pass adds a path, or the queue is empty and every route has been found. -/
theorem YenInv.pass (hname : ¬ Contains start "->") {A : List Path} {st : YenState}
    (h : YenInv N start end_ hs A st) :
    (∃ A' st', Round N end_ A st A' st') ∨
      (∃ mid, (N.solver 1).spurRound end_ A st = some mid ∧ mid.B.pop = none) ∧
        ∀ q, N.IsRoute start end_ q → q ∈ A.map Path.hops := by
  obtain ⟨mid, hrun, hmid, hall⟩ := spurRound_spec hname 1 h.route h.state
  cases hp : mid.B.pop with
  | none =>
    refine Or.inr ⟨⟨mid, hrun, hp⟩, h.best.found.exhaustive fun q hq => ?_⟩
    obtain ⟨x, hx, -⟩ := hall q hq
    rw [(mid.B.pop_eq_none_iff).mp hp] at hx
    exact absurd hx List.not_mem_nil
  | some entry =>
    obtain ⟨x, B⟩ := entry
    obtain ⟨q, hq, hroute, hnode, -, -⟩ := popped_best hname h.route hmid.2 hall hp
    refine Or.inl ⟨_, _, mid, x, B, hrun, hp, ?_, rfl, rfl⟩
    rw [Bool.eq_false_iff, poppedPath, hnode, split_routeName hname hroute,
      removeConsecutiveDuplicates_of_nodup hroute.nodup]
    exact fun hin => Scheme.candidate_notMem h.best.found.member hq
      ((isPathInList_iff hname h.route hroute).mp hin)

theorem YenInv.round (hname : ¬ Contains start "->") {A A' : List Path} {st st' : YenState}
    (h : YenInv N start end_ hs A st) (hr : Round N end_ A st A' st') :
    YenInv N start end_ hs A' st' ∧ A'.length = A.length + 1 := by
  obtain ⟨mid, x, B, hrun, hp, -, rfl, rfl⟩ := hr
  obtain ⟨mid', hrun', hmid, hall⟩ := spurRound_spec hname 1 h.route h.state
  rw [hrun, Option.some.injEq] at hrun'
  subst hrun'
  obtain ⟨q, hq, hroute, hnode, hcost, hmin⟩ := popped_best hname h.route hmid.2 hall hp
  have hhops : (poppedPath x.val).hops = q := by
    rw [poppedPath, hnode, split_routeName hname hroute,
      removeConsecutiveDuplicates_of_nodup hroute.nodup]
  have hfound : (A ++ [poppedPath x.val]).map Path.hops = A.map Path.hops ++ [q] := by
    rw [List.map_append, List.map_singleton, hhops]
  refine ⟨⟨?_, ?_, ?_⟩, by simp⟩
  · rw [hfound]
    exact h.best.next hq hmin
  · intro p hpA
    rcases List.mem_append.mp hpA with hpA | hpA
    · exact h.cost p hpA
    · rw [List.mem_singleton] at hpA
      subst hpA
      rw [hhops]
      exact hcost
  · rw [hfound]
    exact ⟨hmid.1, hmid.2.popped h.route hp hq hnode⟩

theorem yensLoop_round (k : ℤ) {A A' : List Path} {st st' : YenState} (fuel : ℕ)
    (hlt : A.length < (N.solver k).k) (hr : Round N end_ A st A' st') :
    (N.solver k).yensLoop end_ (fuel + 1) A st = (N.solver k).yensLoop end_ fuel A' st' := by
  obtain ⟨mid, x, B, hrun, hp, hnew, rfl, rfl⟩ := hr
  rw [yensLoop, if_neg (not_not.mpr hlt), spurRound_congr (solver_weight N k), hrun]
  simp only [Option.bind_some, hp]
  rw [if_neg (by simpa [poppedPath] using hnew)]
  rfl

theorem yensLoop_full (k : ℤ) {A : List Path} (st : YenState) (fuel : ℕ)
    (hlen : A.length = (N.solver k).k) : (N.solver k).yensLoop end_ (fuel + 1) A st = some A := by
  unfold yensLoop
  rw [if_pos (by omega)]

theorem yensLoop_stop (k : ℤ) {A : List Path} {st mid : YenState} (fuel : ℕ)
    (hrun : (N.solver 1).spurRound end_ A st = some mid) (hp : mid.B.pop = none) :
    (N.solver k).yensLoop end_ (fuel + 1) A st = some A := by
  unfold yensLoop
  split
  · rfl
  · rw [spurRound_congr (solver_weight N k), hrun]
    simp [hp]

/-- The invariant holds along every run. -/
theorem Run.inv (hname : ¬ Contains start "->") {A : List Path} {st : YenState}
    (h : Run N start end_ A st) : YenInv N start end_ hs A st := by
  induction h with
  | @first path hrun =>
    rcases @firstSearch_cases N start end_ hs with ⟨path', hrun', hres⟩ | ⟨⟨err, hrun'⟩, -⟩
    · rw [hrun, Option.some.injEq, Except.ok.injEq] at hrun'
      subst hrun'
      rw [removeConsecutiveDuplicates_of_nodup hres.route.nodup]
      refine ⟨Scheme.BestFound.first ?_, ?_, rfl, queueInv_empty _⟩
      · change firstRoute N start end_ = some path.hops
        unfold firstRoute
        rw [hrun, foundHops]
      · intro p hp
        rw [List.mem_singleton] at hp
        subst hp
        exact hres.cost
    · simp [hrun] at hrun'
  | next _ hr ih => exact (ih.round hname hr).1

/-- The paths in the form in which they are returned. -/
def returned (A : List Path) : List Path :=
  (ExchangeSort.sort Path.cost A).map fun path =>
    { path with hops := removeConsecutiveDuplicates path.hops }

/-- The algorithm passes through every run that fits into the requested count. -/
theorem Run.yensAlgorithm_eq (hs : start ≠ "") (hname : ¬ Contains start "->") (k : ℤ)
    {A : List Path} {st : YenState} (h : Run N start end_ A st) (hlen : A.length ≤ (N.solver k).k) :
    (N.solver k).yensAlgorithm start end_ N.graph =
      ((N.solver k).yensLoop end_ ((N.solver k).k - A.length + 1) A st).map
        fun A => .ok (returned A) := by
  induction h with
  | @first path hrun =>
    rw [List.length_singleton] at hlen ⊢
    unfold yensAlgorithm
    rw [findShortestPath_congr (solver_weight N k), hrun, Nat.sub_add_cancel hlen]
    rfl
  | @next A A' st st' hA hr ih =>
    have hinv : YenInv N start end_ hs A st := hA.inv hname
    have hsucc := (hinv.round hname hr).2
    rw [ih (by omega), yensLoop_round k _ (by omega) hr]
    congr 2
    omega

end Rounds

end Arcturus.YenRounds
