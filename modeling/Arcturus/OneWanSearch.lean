import Arcturus.OneWan

/-!
The random depth-first search of the ONE-WAN solver. It takes back a step that leads
nowhere, so it finds a path whenever there is one within its limit on edges, and what
it finds is a simple path with its latency.
-/

namespace Arcturus.OneWan

open GoMaps GoStrings RandomChoices SimplePaths EdgeLists

section Search

variable {edges : List Edge} {graph_ : Graph} {start target : String}

/-- The graph lists each edge under its source. -/
def Lists (graph_ : Graph) (edges : List Edge) : Prop :=
  ∀ u e, e ∈ graph_.val u ↔ e ∈ edges ∧ e.sourceIp = u

/-- At most one edge for each ordered pair of nodes. -/
def OneEdge (edges : List Edge) : Prop :=
  ∀ e ∈ edges, ∀ f ∈ edges, e.sourceIp = f.sourceIp → e.destinationIp = f.destinationIp → e = f

instance : DecidablePred OneEdge := fun edges =>
  inferInstanceAs (Decidable (∀ e ∈ edges, ∀ f ∈ edges, e.sourceIp = f.sourceIp →
    e.destinationIp = f.destinationIp → e = f))

/-- There is an edge from the one node to the other. -/
def Link (graph_ : Graph) (u v : String) : Prop := ∃ e ∈ graph_.val u, e.destinationIp = v

/-- The edges that a path follows. -/
def Along (graph_ : Graph) (p : List String) (followed : List Edge) : Prop :=
  List.Forall₂ (fun a e => e ∈ graph_.val a.1 ∧ e.destinationIp = a.2) (steps p) followed

theorem link_eq_arc (hgraph : Lists graph_ edges) : Link graph_ = Arc edges := by
  funext u v
  unfold Link Arc
  simp only [hgraph u, and_assoc]

/-- With one edge for each pair it does not matter which edges a path follows. -/
theorem Along.sum_eq_routeLatency (hgraph : Lists graph_ edges) (hone : OneEdge edges)
    {p : List String} {followed : List Edge} (h : Along graph_ p followed) :
    (followed.map (·.latency)).sum = routeLatency edges p := by
  induction p generalizing followed with
  | nil =>
    cases h
    rfl
  | cons a p ih =>
    cases p with
    | nil =>
      cases h
      rfl
    | cons b p =>
      obtain ⟨e, rest, ⟨he, hdest⟩, hrest, rfl⟩ := List.forall₂_cons_left_iff.mp h
      obtain ⟨hmem, hsource⟩ := (hgraph a e).mp he
      have hlat : hopLatency edges a b = e.latency := by
        rw [← hsource, ← show e.destinationIp = b from hdest]
        exact hopLatency_eq hmem fun f hf hs hd => by rw [hone f hf e hmem hs hd]
      change e.latency + (rest.map (·.latency)).sum = hopLatency edges a b + _
      rw [hlat, ih hrest]
      rfl

theorem tryNeighbors_sound {P : List String × ℚ → Prop} {hops : List String}
    {go : String → Draws → Option (List String × ℚ) × Draws} {neighbors : List Edge}
    (hgo : ∀ e ∈ neighbors, e.destinationIp ∉ hops → ∀ r found,
      (go e.destinationIp r).1 = some found → P (found.1, found.2 + e.latency))
    {r : Draws} {found : List String × ℚ}
    (h : (tryNeighbors hops go neighbors r).1 = some found) : P found := by
  induction neighbors generalizing r with
  | nil => exact absurd h (by simp [tryNeighbors])
  | cons e rest ih =>
    have hrest := fun f hf => hgo f (List.mem_cons_of_mem e hf)
    unfold tryNeighbors at h
    split at h
    · exact ih hrest h
    · rename_i hfresh
      split at h
      · rename_i found' r' heq
        cases Option.some.inj h
        exact hgo e List.mem_cons_self hfresh r found' (congrArg Prod.fst heq)
      · exact ih hrest h

/-- What a search from a node after the given hops may return, with the edges it follows. -/
def ContinuesAlong (graph_ : Graph) (target : String) (room : ℕ) (hops : List String)
    (node : String) (found : List String × ℚ) : Prop :=
  ∃ p followed, found.1 = hops ++ p ∧ IsSimplePath (Link graph_) node target p ∧
    (∀ x ∈ p, x ∉ hops) ∧ p.length ≤ room ∧ Along graph_ p followed ∧
    found.2 = (followed.map (·.latency)).sum

/-- What the search finds is a simple path with the latency of the edges it follows. -/
theorem dfs_along {room : ℕ} {hops : List String} {node : String} (hnode : node ∉ hops)
    {r : Draws} {found : List String × ℚ}
    (h : (dfs graph_ target room hops node r).1 = some found) :
    ContinuesAlong graph_ target room hops node found := by
  induction room generalizing hops node r found with
  | zero => exact absurd h (by simp [dfs])
  | succ room ih =>
    unfold dfs at h
    split at h
    · rename_i htarget
      subst htarget
      cases Option.some.inj h
      exact ⟨[node], [], rfl, isSimplePath_self_iff.mpr rfl, by simpa using hnode, by simp, .nil,
        rfl⟩
    · refine tryNeighbors_sound (P := ContinuesAlong graph_ target (room + 1) hops node) ?_ h
      intro e he hfresh r' found' hfound'
      rw [mem_shuffle] at he
      obtain ⟨p, followed, hp, hsimple, hdisjoint, hlength, halong, hlatency⟩ := ih hfresh hfound'
      have hnew : node ∉ p := fun hmem => hdisjoint node hmem (by simp)
      obtain ⟨l, rfl⟩ := hsimple.eq_cons
      refine ⟨node :: e.destinationIp :: l, e :: followed, by simp [hp],
        hsimple.cons ⟨e, he, rfl⟩ hnew, ?_, by simpa using hlength, .cons ⟨he, rfl⟩ halong, ?_⟩
      · intro x hx
        rcases List.mem_cons.mp hx with rfl | hx
        · exact hnode
        · exact fun hmem => hdisjoint x hx (by simp [hmem])
      · change found'.2 + e.latency = _
        rw [hlatency, add_comm, List.map_cons, List.sum_cons]

/-- What a search from a node after the given hops may return. -/
def Continues (edges : List Edge) (target : String) (room : ℕ) (hops : List String) (node : String)
    (found : List String × ℚ) : Prop :=
  ∃ p, found.1 = hops ++ p ∧ IsSimplePath (Arc edges) node target p ∧ (∀ x ∈ p, x ∉ hops) ∧
    p.length ≤ room ∧ found.2 = routeLatency edges p

theorem dfs_sound (hgraph : Lists graph_ edges) (hone : OneEdge edges) {room : ℕ}
    {hops : List String} {node : String} (hnode : node ∉ hops) {r : Draws}
    {found : List String × ℚ} (h : (dfs graph_ target room hops node r).1 = some found) :
    Continues edges target room hops node found := by
  obtain ⟨p, followed, hp, hsimple, hdisjoint, hlength, halong, hlatency⟩ := dfs_along hnode h
  rw [link_eq_arc hgraph] at hsimple
  rw [halong.sum_eq_routeLatency hgraph hone] at hlatency
  exact ⟨p, hp, hsimple, hdisjoint, hlength, hlatency⟩

theorem tryNeighbors_isSome {hops : List String}
    {go : String → Draws → Option (List String × ℚ) × Draws} {neighbors : List Edge} {e : Edge}
    (he : e ∈ neighbors) (hfresh : e.destinationIp ∉ hops)
    (hgo : ∀ r, (go e.destinationIp r).1.isSome) (r : Draws) :
    (tryNeighbors hops go neighbors r).1.isSome := by
  induction neighbors generalizing r with
  | nil => exact absurd he List.not_mem_nil
  | cons f rest ih =>
    unfold tryNeighbors
    rcases List.mem_cons.mp he with rfl | he
    · rw [if_neg hfresh]
      have hsome := hgo r
      split
      · rfl
      · rename_i r' heq
        rw [heq] at hsome
        exact absurd hsome (by simp)
    · split
      · exact ih he r
      · split
        · rfl
        · exact ih he _

theorem not_mem_concat_of_tail {node : String} {hops l : List String}
    (hdisjoint : ∀ x ∈ node :: l, x ∉ hops) (hnode : node ∉ l) : ∀ x ∈ l, x ∉ hops ++ [node] := by
  intro x hx hmem
  rcases List.mem_append.mp hmem with hmem | hmem
  · exact hdisjoint x (List.mem_cons_of_mem _ hx) hmem
  · rw [List.mem_singleton.mp hmem] at hx
    exact hnode hx

/-- The search misses no path. -/
theorem dfs_isSome_of_link {room : ℕ} {hops : List String} {node : String}
    {p : List String} (hp : IsSimplePath (Link graph_) node target p)
    (hdisjoint : ∀ x ∈ p, x ∉ hops) (hlength : p.length ≤ room) (r : Draws) :
    (dfs graph_ target room hops node r).1.isSome := by
  induction room generalizing hops node p r with
  | zero => exact absurd (List.length_eq_zero_iff.mp (Nat.le_zero.mp hlength)) hp.ne_nil
  | succ room ih =>
    unfold dfs
    split
    · rfl
    · rename_i htarget
      obtain ⟨l, rfl⟩ := hp.eq_cons
      cases l with
      | nil => exact absurd (Option.some.inj hp.last) htarget
      | cons b l =>
        obtain ⟨⟨e, he, rfl⟩, hrest, hnode⟩ := hp.tail
        have hdisjoint' := not_mem_concat_of_tail hdisjoint hnode
        apply tryNeighbors_isSome (e := e)
        · rw [mem_shuffle]
          exact he
        · exact hdisjoint' _ List.mem_cons_self
        · intro r'
          exact ih hrest hdisjoint' (by simpa using hlength) r'

/-- Some order of the edges leads the search along any given path. -/
theorem exists_dfs_eq {room : ℕ} {hops : List String} {node : String} {p : List String}
    (hp : IsSimplePath (Link graph_) node target p) (hdisjoint : ∀ x ∈ p, x ∉ hops)
    (hlength : p.length ≤ room) :
    ∃ r latency, (dfs graph_ target room hops node r).1 = some (hops ++ p, latency) := by
  induction room generalizing hops node p with
  | zero => exact absurd (List.length_eq_zero_iff.mp (Nat.le_zero.mp hlength)) hp.ne_nil
  | succ room ih =>
    unfold dfs
    obtain ⟨l, rfl⟩ := hp.eq_cons
    cases l with
    | nil =>
      have htarget : node = target := Option.some.inj hp.last
      refine ⟨fun _ => 0, 0, ?_⟩
      rw [if_pos htarget]
    | cons b l =>
      obtain ⟨⟨e, he, rfl⟩, hrest, hnode⟩ := hp.tail
      have hdisjoint' := not_mem_concat_of_tail hdisjoint hnode
      have htarget : node ≠ target := fun heq => hnode (heq ▸ List.mem_of_getLast? hrest.last)
      obtain ⟨r, latency, hr⟩ := ih hrest hdisjoint' (by simpa using hlength)
      -- the edge of the path comes first
      obtain ⟨r₀, hshuffle⟩ := exists_shuffle_eq (List.perm_cons_erase he).symm r
      refine ⟨r₀, latency + e.latency, ?_⟩
      rw [if_neg htarget]
      simp only [hshuffle, tryNeighbors, if_neg (hdisjoint' _ List.mem_cons_self)]
      split
      · rename_i found r' heq
        rw [heq] at hr
        cases hr
        simp
      · rename_i r' heq
        rw [heq] at hr
        cases hr

theorem dfs_isSome (hgraph : Lists graph_ edges) {room : ℕ} {hops : List String} {node : String}
    {p : List String} (hp : IsSimplePath (Arc edges) node target p) (hdisjoint : ∀ x ∈ p, x ∉ hops)
    (hlength : p.length ≤ room) (r : Draws) :
    (dfs graph_ target room hops node r).1.isSome := by
  rw [← link_eq_arc hgraph] at hp
  exact dfs_isSome_of_link hp hdisjoint hlength r

end Search

end Arcturus.OneWan
