import Arcturus.OneWanSearch

/-!
The random depth-first search of the ONE-WAN solver with the variables of its closure: the
visited nodes, the hops and the latency are shared by all branches of the recursion, and each
exit has to put them back. It agrees with the search that passes the hops on, for which a
node counts as visited if it is one of them.
-/

namespace Arcturus.OneWanBacktracking

open GoMaps RandomChoices SimplePaths EdgeLists OneWan

/-- The variables that the closure captures, and the draws still to come. -/
structure Vars where
  visited : GoMap String Bool
  hops : List String
  totalLatency : ℚ
  draws : Draws

/-- The exits of the closure that return `false` after the node was entered. -/
def Vars.leave (v : Vars) (node : String) : Vars :=
  { v with hops := v.hops.dropLast, visited := v.visited.erase node }

/-- The loop over the shuffled edges; `go` is the recursive call. -/
def tryAll (go : String → Vars → Bool × Vars) : List Edge → Vars → Bool × Vars
  | [], v => (false, v)
  | edge :: rest, v =>
    if v.visited.val edge.destinationIp then tryAll go rest v
    else
      let res := go edge.destinationIp v
      if res.1 then (true, { res.2 with totalLatency := res.2.totalLatency + edge.latency })
      else tryAll go rest res.2

/-- The closure. The first argument bounds the recursion; it is never used up before the depth
exceeds the limit. -/
def search (graph_ : Graph) (target : String) (maxHops : ℤ) :
    ℕ → String → ℤ → Vars → Bool × Vars
  | 0, _, _, v => (false, v)
  | fuel + 1, node, depth, v =>
    if depth > maxHops then (false, v)
    else
      let v := { v with visited := v.visited.set node true, hops := v.hops ++ [node] }
      if node = target then (true, v)
      else
        let neighbors := graph_.val node
        if neighbors.length = 0 then (false, v.leave node)
        else
          let perm := shuffle neighbors v.draws
          let res := tryAll (fun next v => search graph_ target maxHops fuel next (depth + 1) v)
            perm.1 { v with draws := perm.2 }
          if res.1 then res else (false, res.2.leave node)

def dfsRandomPath (current target : String) (graph_ : Graph) (maxHops : ℤ) (r : Draws) :
    Option Path × Draws :=
  let res := search graph_ target maxHops ((maxHops + 1).toNat + 1) current 0
    { visited := GoMap.empty, hops := [], totalLatency := 0, draws := r }
  if res.1 then
    (some { hops := res.2.hops, cost := res.2.totalLatency, rawRTT := res.2.totalLatency },
      res.2.draws)
  else (none, res.2.draws)

section Refinement
variable {graph_ : Graph} {target node : String} {maxHops depth : ℤ} {hops : List String}
  {v v' : Vars}

/-- The visited nodes are the hops. -/
def Tracks (v : Vars) : Prop := ∀ x, v.visited.val x = true ↔ x ∈ v.hops

/-- The variables are as they were. -/
structure Restored (v v' : Vars) : Prop where
  hops : v'.hops = v.hops
  totalLatency : v'.totalLatency = v.totalLatency
  visited : ∀ x, v'.visited.val x = v.visited.val x

theorem Restored.tracks (h : Restored v v') (hv : Tracks v) : Tracks v' := by
  intro x
  rw [h.visited, h.hops]
  exact hv x

/-- What the closure leaves behind, compared to the search that passes the hops on. -/
structure Agrees (v : Vars) (res : Bool × Vars) (found : Option (List String × ℚ) × Draws) :
    Prop where
  draws : res.2.draws = found.2
  success : ∀ path, found.1 = some path →
    res.1 = true ∧ res.2.hops = path.1 ∧ res.2.totalLatency = v.totalLatency + path.2
  failure : found.1 = none → res.1 = false ∧ Restored v res.2

theorem agrees_success {path : List String × ℚ} (hhops : v'.hops = path.1)
    (htotal : v'.totalLatency = v.totalLatency + path.2) :
    Agrees v (true, v') (some path, v'.draws) where
  draws := rfl
  success path' hpath' := by
    cases hpath'
    exact ⟨rfl, hhops, htotal⟩
  failure hnone := by cases hnone

theorem agrees_failure (h : Restored v v') : Agrees v (false, v') (none, v'.draws) where
  draws := rfl
  success path hpath := by cases hpath
  failure _ := ⟨rfl, h⟩

theorem Restored.agrees {res : Bool × Vars} {found : Option (List String × ℚ) × Draws}
    (h : Restored v v') (hagrees : Agrees v' res found) : Agrees v res found where
  draws := hagrees.draws
  success path hpath := by
    rw [← h.totalLatency]
    exact hagrees.success path hpath
  failure hnone := by
    obtain ⟨hfalse, hrest⟩ := hagrees.failure hnone
    refine ⟨hfalse, hrest.hops.trans h.hops, hrest.totalLatency.trans h.totalLatency, fun x => ?_⟩
    rw [hrest.visited, h.visited]

theorem tryAll_agrees {go : String → Vars → Bool × Vars}
    {go' : String → Draws → Option (List String × ℚ) × Draws} (edges : List Edge)
    (hgo : ∀ next v, Tracks v → v.hops = hops → next ∉ hops →
      Agrees v (go next v) (go' next v.draws))
    (hv : Tracks v) (hhops : v.hops = hops) :
    Agrees v (tryAll go edges v) (tryNeighbors hops go' edges v.draws) := by
  induction edges generalizing v with
  | nil => exact agrees_failure ⟨rfl, rfl, fun _ => rfl⟩
  | cons e rest ih =>
    unfold tryAll tryNeighbors
    have hvisited : v.visited.val e.destinationIp = true ↔ e.destinationIp ∈ hops := hhops ▸ hv _
    by_cases hmem : e.destinationIp ∈ hops
    · rw [if_pos hmem, if_pos (hvisited.mpr hmem)]
      exact ih hv hhops
    · rw [if_neg hmem, if_neg fun h => hmem (hvisited.mp h)]
      have hcall := hgo e.destinationIp v hv hhops hmem
      generalize go' e.destinationIp v.draws = res' at hcall ⊢
      generalize go e.destinationIp v = res at hcall ⊢
      obtain ⟨found, r⟩ := res'
      obtain ⟨ok, v₁⟩ := res
      obtain rfl : v₁.draws = r := hcall.draws
      cases found with
      | some path =>
        obtain ⟨rfl, hpath, htotal⟩ := hcall.success path rfl
        refine agrees_success hpath ?_
        change v₁.totalLatency + e.latency = _
        rw [htotal, add_assoc]
      | none =>
        obtain ⟨rfl, hrestored⟩ := hcall.failure rfl
        exact hrestored.agrees (ih (hrestored.tracks hv) (hrestored.hops.trans hhops))

/-- A node that is entered and left again. -/
theorem restored_leave (hnode : v.visited.val node = false) (hhops : v'.hops = v.hops ++ [node])
    (htotal : v'.totalLatency = v.totalLatency)
    (hvisited : ∀ x, v'.visited.val x = (v.visited.set node true).val x) :
    Restored v (v'.leave node) := by
  refine ⟨?_, htotal, fun x => ?_⟩
  · change v'.hops.dropLast = v.hops
    rw [hhops, List.dropLast_concat]
  · change (v'.visited.erase node).val x = v.visited.val x
    by_cases hx : x = node
    · subst hx
      rw [GoMap.erase_val_same, hnode]
      rfl
    · rw [GoMap.erase_val_of_ne _ hx, hvisited, GoMap.set_val_of_ne _ _ hx]

/-- The visited nodes are the hops after a node is entered, too. -/
theorem Tracks.enter (hv : Tracks v) (node : String) (totalLatency : ℚ) (r : Draws) :
    Tracks ⟨v.visited.set node true, v.hops ++ [node], totalLatency, r⟩ :=
  GoMap.set_true_iff hv node

/-- The closure and the search that passes the hops on find the same path, and without one
every exit puts the variables back. -/
theorem search_agrees {room : ℕ} (hroom : room = (maxHops + 1 - depth).toNat) (hv : Tracks v)
    (hnode : node ∉ v.hops) : Agrees v (search graph_ target maxHops (room + 1) node depth v)
      (dfs graph_ target room v.hops node v.draws) := by
  induction room generalizing node depth v with
  | zero =>
    unfold search
    rw [if_pos (by omega)]
    exact agrees_failure ⟨rfl, rfl, fun _ => rfl⟩
  | succ room ih =>
    have hfresh : v.visited.val node = false := GoMap.val_eq_false_of_marks hv hnode
    unfold search dfs
    rw [if_neg (by omega)]
    dsimp only
    split
    · exact agrees_success rfl (add_zero _).symm
    · have hgo : ∀ next v₁, Tracks v₁ → v₁.hops = v.hops ++ [node] → next ∉ v.hops ++ [node] →
          Agrees v₁ (search graph_ target maxHops (room + 1) next (depth + 1) v₁)
            (dfs graph_ target room (v.hops ++ [node]) next v₁.draws) := by
        intro next v₁ hv₁ hhops hnext
        rw [← hhops] at hnext ⊢
        exact ih (by omega) hv₁ hnext
      have hloop := tryAll_agrees (shuffle (graph_.val node) v.draws).1 hgo
        (hv.enter node v.totalLatency (shuffle (graph_.val node) v.draws).2) rfl
      split
      · rename_i hnil
        rw [List.length_eq_zero_iff.mp hnil]
        exact agrees_failure (restored_leave hfresh rfl rfl fun _ => rfl)
      · split
        · rename_i htrue
          refine ⟨hloop.draws, hloop.success, fun hnone => ?_⟩
          rw [(hloop.failure hnone).1] at htrue
          cases htrue
        · rename_i hfalse
          refine ⟨hloop.draws, fun path hpath => absurd (hloop.success path hpath).1 hfalse,
            fun hnone => ⟨rfl, ?_⟩⟩
          obtain ⟨-, hrestored⟩ := hloop.failure hnone
          exact restored_leave hfresh hrestored.hops hrestored.totalLatency hrestored.visited

theorem dfsRandomPath_eq_dfs (start target : String) (graph_ : Graph) (maxHops : ℤ) (r : Draws) :
    dfsRandomPath start target graph_ maxHops r =
      let found := dfs graph_ target (maxHops + 1).toNat [] start r
      (found.1.map fun path => ⟨path.1, path.2, path.2⟩, found.2) := by
  have hagrees : Agrees ⟨GoMap.empty, [], 0, r⟩
      (search graph_ target maxHops ((maxHops + 1).toNat + 1) start 0 ⟨GoMap.empty, [], 0, r⟩)
      (dfs graph_ target (maxHops + 1).toNat [] start r) :=
    search_agrees (by rw [sub_zero]) (fun x => by simp [GoMap.empty]) List.not_mem_nil
  unfold dfsRandomPath
  generalize dfs graph_ target (maxHops + 1).toNat [] start r = res' at hagrees ⊢
  generalize search graph_ target maxHops ((maxHops + 1).toNat + 1) start 0
    ⟨GoMap.empty, [], 0, r⟩ = res at hagrees ⊢
  obtain ⟨found, r'⟩ := res'
  obtain ⟨ok, v⟩ := res
  obtain rfl : v.draws = r' := hagrees.draws
  cases found with
  | some path =>
    obtain ⟨rfl, hpath, htotal⟩ := hagrees.success path rfl
    have htotal' : v.totalLatency = path.2 := htotal.trans (zero_add _)
    change (some (OneWan.Path.mk v.hops v.totalLatency v.totalLatency), v.draws) = _
    rw [show v.hops = path.1 from hpath, htotal']
    rfl
  | none =>
    obtain ⟨rfl, -⟩ := hagrees.failure rfl
    rfl

/-- With a limit that is not negative it is the search of the solver. -/
theorem dfsRandomPath_eq (start target : String) (graph_ : Graph) (maxHops : ℕ) (r : Draws) :
    dfsRandomPath start target graph_ maxHops r =
      OneWan.dfsRandomPath start target graph_ maxHops r := by
  rw [dfsRandomPath_eq_dfs]
  rfl

end Refinement

theorem length_steps_le_iff {p : List String} (hp : p ≠ []) (maxHops : ℤ) :
    ((steps p).length : ℤ) ≤ maxHops ↔ p.length ≤ (maxHops + 1).toNat := by
  have hpos := List.length_pos_of_ne_nil hp
  unfold steps
  rw [List.length_zip, List.length_tail]
  omega

/-- The search returns nothing exactly if there is no simple path within the limit on edges;
what it returns is such a path, and its cost is that of the edges it follows. -/
theorem dfsRandomPath_correct (graph_ : Graph) (start target : String) (maxHops : ℤ) (r : Draws) :
    ((dfsRandomPath start target graph_ maxHops r).1 = none ↔
      ¬ ∃ p, IsSimplePath (Link graph_) start target p ∧ ((steps p).length : ℤ) ≤ maxHops) ∧
    ∀ path, (dfsRandomPath start target graph_ maxHops r).1 = some path →
      IsSimplePath (Link graph_) start target path.hops ∧
      ((steps path.hops).length : ℤ) ≤ maxHops ∧
      ∃ followed, Along graph_ path.hops followed ∧
        path.cost = (followed.map (·.latency)).sum ∧
        path.rawRTT = (followed.map (·.latency)).sum := by
  rw [dfsRandomPath_eq_dfs]
  dsimp only
  have hsound : ∀ path, ((dfs graph_ target (maxHops + 1).toNat [] start r).1.map
      fun path => (⟨path.1, path.2, path.2⟩ : Path)) = some path →
      IsSimplePath (Link graph_) start target path.hops ∧
      ((steps path.hops).length : ℤ) ≤ maxHops ∧
      ∃ followed, Along graph_ path.hops followed ∧
        path.cost = (followed.map (·.latency)).sum ∧
        path.rawRTT = (followed.map (·.latency)).sum := by
    intro path hpath
    obtain ⟨found, hfound, rfl⟩ := Option.map_eq_some_iff.mp hpath
    obtain ⟨p, followed, hp, hsimple, -, hlength, halong, hcost⟩ :=
      dfs_along List.not_mem_nil hfound
    rw [List.nil_append] at hp
    change IsSimplePath (Link graph_) start target found.1 ∧ _
    rw [hp]
    exact ⟨hsimple, (length_steps_le_iff hsimple.ne_nil maxHops).mpr hlength, followed, halong,
      hcost, hcost⟩
  refine ⟨⟨fun hnone => ?_, fun hno => ?_⟩, hsound⟩
  · rintro ⟨p, hp, hlength⟩
    have hsome := dfs_isSome_of_link hp (fun _ _ => List.not_mem_nil)
      ((length_steps_le_iff hp.ne_nil maxHops).mp hlength) r
    rw [Option.map_eq_none_iff] at hnone
    rw [hnone] at hsome
    cases hsome
  · rw [Option.eq_none_iff_forall_ne_some]
    intro path hpath
    obtain ⟨hsimple, hlength, -⟩ := hsound path hpath
    exact hno ⟨path.hops, hsimple, hlength⟩

/-- Every simple path within the limit can be the one that is returned. -/
theorem exists_dfsRandomPath_eq {graph_ : Graph} {start target : String} {maxHops : ℤ}
    {p : List String} (hp : IsSimplePath (Link graph_) start target p)
    (hlength : ((steps p).length : ℤ) ≤ maxHops) :
    ∃ r path, (dfsRandomPath start target graph_ maxHops r).1 = some path ∧ path.hops = p := by
  obtain ⟨r, latency, hr⟩ := exists_dfs_eq hp (fun _ _ => List.not_mem_nil)
    ((length_steps_le_iff hp.ne_nil maxHops).mp hlength)
  refine ⟨r, ⟨p, latency, latency⟩, ?_, rfl⟩
  simp only [dfsRandomPath_eq_dfs, hr, List.nil_append, Option.map_some]

/-- Two nodes between a and b, and an edge from each of them to the other. -/
def crossed : Graph :=
  ((GoMap.empty.set "a" [⟨⟨"a", "c", 1, 0⟩, 0⟩, ⟨⟨"a", "d", 1, 0⟩, 0⟩]).set "c"
    [⟨⟨"c", "b", 1, 0⟩, 0⟩, ⟨⟨"c", "d", 1, 0⟩, 0⟩]).set "d"
    [⟨⟨"d", "c", 1, 0⟩, 0⟩, ⟨⟨"d", "b", 1, 0⟩, 0⟩]

/-- The path over c and d has as many edges as the limit allows and is one of four. -/
theorem exists_dfsRandomPath_eq_crossed :
    (∃ r path, (dfsRandomPath "a" "b" crossed 3 r).1 = some path ∧
      path.hops = ["a", "c", "d", "b"]) ∧
    (dfsRandomPath "a" "b" crossed 3 fun _ => 0).1.map Path.hops ≠ some ["a", "c", "d", "b"] := by
  refine ⟨exists_dfsRandomPath_eq ⟨?_, rfl, rfl, by decide⟩ (by decide), by decide +kernel⟩
  unfold Link
  decide

end Arcturus.OneWanBacktracking
