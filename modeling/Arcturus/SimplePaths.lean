import Mathlib.Data.List.Chain
import Mathlib.Data.Set.Finite.List
import Mathlib.Data.Set.Finite.Lattice
import Mathlib.Algebra.Order.Monoid.Defs
import Mathlib.Data.Finset.Card
import Mathlib.Logic.Relation

/-!
Simple paths of a directed graph as node lists, and sums of a weight over the
consecutive pairs of a list. Simple paths between two fixed nodes form a
prefix-free family, finite when the graph has finitely many arcs. Where the steps have
costs there may be several steps between two nodes, so that the cost belongs to the path
and not to its nodes.
-/

namespace Arcturus.SimplePaths

variable {V : Type*}

/-- A node list from `s` to `t` along arcs that visits no node twice. -/
structure IsSimplePath (arc : V → V → Prop) (s t : V) (p : List V) : Prop where
  chain : p.IsChain arc
  head : p.head? = some s
  last : p.getLast? = some t
  nodup : p.Nodup

/-- The sum of `w` over the consecutive pairs of a list. -/
def pathSum {W : Type*} [AddMonoid W] (w : V → V → W) : List V → W
  | a :: b :: l => w a b + pathSum w (b :: l)
  | _ => 0

theorem pathSum_append {W : Type*} [AddMonoid W] (w : V → V → W) (l : List V) (x : V)
    (m : List V) : pathSum w (l ++ x :: m) = pathSum w (l ++ [x]) + pathSum w (x :: m) := by
  induction l with
  | nil => simp [pathSum]
  | cons a l ih =>
    cases l with
    | nil => simp [pathSum]
    | cons b l =>
      simp only [List.cons_append, pathSum] at ih ⊢
      rw [ih, add_assoc]

section Steps

/-- The consecutive pairs of a list. -/
def steps (p : List V) : List (V × V) := p.zip p.tail

theorem steps_cons_cons (a b : V) (l : List V) :
    steps (a :: b :: l) = (a, b) :: steps (b :: l) := rfl

theorem forall_mem_steps {R : V → V → Prop} {p : List V} :
    (∀ e ∈ steps p, R e.1 e.2) ↔ p.IsChain R := by
  induction p with
  | nil => simp [steps]
  | cons a l ih =>
    cases l with
    | nil => simp [steps]
    | cons b l => rw [steps_cons_cons, List.forall_mem_cons, ih, List.isChain_cons_cons]

theorem mem_of_mem_steps {p : List V} {e : V × V} (h : e ∈ steps p) : e.1 ∈ p ∧ e.2 ∈ p := by
  have hzip := List.of_mem_zip h
  exact ⟨hzip.1, List.mem_of_mem_tail hzip.2⟩

/-- A list without repetitions has no pair twice. -/
theorem nodup_steps {p : List V} (h : p.Nodup) : (steps p).Nodup := by
  induction p with
  | nil => exact List.nodup_nil
  | cons a l ih =>
    cases l with
    | nil => exact List.nodup_nil
    | cons b l =>
      rw [List.nodup_cons] at h
      rw [steps_cons_cons, List.nodup_cons]
      exact ⟨fun hmem => h.1 (mem_of_mem_steps hmem).1, ih h.2⟩

end Steps

variable {arc : V → V → Prop} {s t : V} {p q : List V}

namespace IsSimplePath

theorem ne_nil (h : IsSimplePath arc s t p) : p ≠ [] := by
  intro heq
  subst heq
  exact absurd h.head (by simp)

theorem eq_cons (h : IsSimplePath arc s t p) : ∃ l, p = s :: l := by
  cases p with
  | nil => exact absurd h.head (by simp)
  | cons a l =>
    have hhead := h.head
    rw [List.head?_cons] at hhead
    exact ⟨l, by rw [Option.some.inj hhead]⟩

/-- Without its start a simple path goes on from the second node. -/
theorem tail {b : V} {l : List V} (h : IsSimplePath arc s t (s :: b :: l)) :
    arc s b ∧ IsSimplePath arc b t (b :: l) ∧ s ∉ b :: l := by
  have hchain := List.isChain_cons_cons.mp h.chain
  have hnodup := List.nodup_cons.mp h.nodup
  have hlast := h.last
  rw [List.getLast?_cons_cons] at hlast
  exact ⟨hchain.1, ⟨hchain.2, rfl, hlast, hnodup.2⟩, hnodup.1⟩

theorem cons {b : V} (h : IsSimplePath arc b t p) (harc : arc s b) (hs : s ∉ p) :
    IsSimplePath arc s t (s :: p) := by
  obtain ⟨l, rfl⟩ := h.eq_cons
  refine ⟨List.isChain_cons_cons.mpr ⟨harc, h.chain⟩, rfl, ?_, List.nodup_cons.mpr ⟨hs, h.nodup⟩⟩
  rw [List.getLast?_cons_cons]
  exact h.last

/-- The end node does not occur in a proper prefix. -/
theorem end_notMem_of_prefix (hq : IsSimplePath arc s t q) {r : List V} (h : r <+: q)
    (hne : r ≠ q) : t ∉ r := by
  obtain ⟨m, hm⟩ := h
  cases m with
  | nil => exact absurd (by simpa using hm) hne
  | cons a m =>
    have hlast : t ∈ a :: m := by
      have hl := hq.last
      rw [← hm, List.getLast?_append_of_ne_nil _ (List.cons_ne_nil a m)] at hl
      exact List.mem_of_getLast? hl
    have hnodup := hq.nodup
    rw [← hm, List.nodup_append] at hnodup
    exact fun ht => absurd rfl (hnodup.2.2 t ht t hlast)

/-- Only the last entry of a simple path is its end node. -/
theorem prefix_free (hp : IsSimplePath arc s t p) (hq : IsSimplePath arc s t q)
    (h : p <+: q) : p = q := by
  by_contra hne
  exact hq.end_notMem_of_prefix h hne (List.mem_of_getLast? hp.last)

/-- Replace what follows a root of a simple path by a fresh tail to the same end. -/
theorem splice (hp : IsSimplePath arc s t p) {r l : List V} {v : V} (h : r ++ [v] <+: p)
    (hchain : (v :: l).IsChain arc) (hlast : (v :: l).getLast? = some t)
    (hnodup : (v :: l).Nodup) (hfresh : ∀ x ∈ l, x ∉ r) : IsSimplePath arc s t (r ++ v :: l) := by
  have hroot := hp.nodup.sublist h.sublist
  rw [List.nodup_append] at hroot
  have hbefore := List.IsChain.prefix hp.chain h
  refine ⟨List.isChain_split.mpr ⟨hbefore, hchain⟩, ?_, ?_, ?_⟩
  · obtain ⟨m, rfl⟩ := h
    have hhead := hp.head
    cases r with
    | nil => simpa using hhead
    | cons a r => simpa using hhead
  · rw [List.getLast?_append_of_ne_nil _ (List.cons_ne_nil v l), hlast]
  · rw [List.nodup_append]
    refine ⟨hroot.1, hnodup, ?_⟩
    intro a ha b hb
    rcases List.mem_cons.mp hb with rfl | hb
    · exact hroot.2.2 a ha b (List.mem_singleton_self b)
    · intro heq
      subst heq
      exact hfresh a hb ha

theorem reflTransGen (h : IsSimplePath arc s t p) : Relation.ReflTransGen arc s t := by
  obtain ⟨l, rfl⟩ := h.eq_cons
  have hlast : (s :: l).getLast (by simp) = t := by
    have := h.last
    rw [List.getLast?_eq_some_getLast (by simp)] at this
    exact Option.some.inj this
  exact List.relationReflTransGen_of_exists_isChain_cons l h.chain hlast

end IsSimplePath

theorem isSimplePath_self_iff : IsSimplePath arc s s p ↔ p = [s] := by
  constructor
  · intro h
    have hone : IsSimplePath arc s s [s] := ⟨by simp, by simp, by simp, by simp⟩
    obtain ⟨l, rfl⟩ := h.eq_cons
    exact (hone.prefix_free h ⟨l, rfl⟩).symm
  · intro heq
    subst heq
    exact ⟨by simp, by simp, by simp, by simp⟩

/-- Finitely many arc targets leave finitely many simple paths. -/
theorem finite_simplePaths (targets : Finset V) (h : ∀ a b, arc a b → b ∈ targets) :
    {p | IsSimplePath arc s t p}.Finite := by
  have hshort := (List.finite_length_le {x // x ∈ targets} targets.card).image
    (fun l => s :: l.map Subtype.val)
  apply hshort.subset
  intro p hp
  obtain ⟨l, rfl⟩ := hp.eq_cons
  have hl : ∀ x ∈ l, x ∈ targets := by
    intro x hx
    obtain ⟨i, hi, rfl⟩ := List.getElem_of_mem hx
    have hstep := List.isChain_iff_getElem.mp hp.chain i (by simpa using hi)
    exact h _ _ (by simpa using hstep)
  refine ⟨l.attachWith (· ∈ targets) hl, ?_, by simp⟩
  rw [Set.mem_ofPred_eq, List.length_attachWith]
  classical
  rw [← List.toFinset_card_of_nodup (List.nodup_cons.mp hp.nodup).2]
  exact Finset.card_le_card fun x hx => hl x (List.mem_toFinset.mp hx)

section Costs

variable {K : Type*} [AddCommMonoid K]

/-- The nodes of a path to `t` that repeats none, and the sum of the costs of its steps. -/
inductive CostPath (step : V → V → K → Prop) (t : V) : V → List V → K → Prop where
  | here : CostPath step t t [t] 0
  | cons {u v : V} {p : List V} {c k : K} (hstep : step u v c) (hrest : CostPath step t v p k)
      (hfresh : u ∉ p) : CostPath step t u (u :: p) (c + k)

namespace CostPath

variable {step : V → V → K → Prop} {t u : V} {p : List V} {k : K}

theorem isSimplePath (h : CostPath step t u p k) :
    IsSimplePath (fun a b => ∃ c, step a b c) u t p := by
  induction h with
  | here => exact isSimplePath_self_iff.mpr rfl
  | cons hstep _ hfresh ih => exact ih.cons ⟨_, hstep⟩ hfresh

/-- A path from another node has a first step. -/
theorem exists_step (h : CostPath step t u p k) (hut : u ≠ t) :
    ∃ v q c j, p = u :: q ∧ k = c + j ∧ step u v c ∧ CostPath step t v q j ∧ u ∉ q := by
  cases h with
  | here => exact absurd rfl hut
  | cons hstep hrest hfresh => exact ⟨_, _, _, _, rfl, rfl, hstep, hrest, hfresh⟩

/-- The path from a node to itself has no steps. -/
theorem eq_of_self (h : CostPath step t t p k) : p = [t] ∧ k = 0 := by
  cases h with
  | here => exact ⟨rfl, rfl⟩
  | cons _ hrest hfresh => exact absurd (List.mem_of_getLast? hrest.isSimplePath.last) hfresh

theorem cost_nonneg [PartialOrder K] [IsOrderedAddMonoid K] (hstep : ∀ u v c, step u v c → 0 ≤ c)
    (h : CostPath step t u p k) : 0 ≤ k := by
  induction h with
  | here => exact le_rfl
  | cons hfirst _ _ ih => exact add_nonneg (hstep _ _ _ hfirst) ih

theorem cost_eq {w : V → V → K} (hstep : ∀ u v c, step u v c → c = w u v)
    (h : CostPath step t u p k) : k = pathSum w p := by
  induction h with
  | here => rfl
  | cons hfirst hrest _ ih =>
    obtain ⟨l, rfl⟩ := hrest.isSimplePath.eq_cons
    rw [pathSum, ← ih, ← hstep _ _ _ hfirst]

/-- A path from `s` never comes back to `s`, does not go on from its end, stays in a set that
its steps do not leave and takes no step that costs more than the path may. -/
theorem imp [PartialOrder K] [IsOrderedAddMonoid K] {step' : V → V → K → Prop} {N : Set V}
    {s : V} {bound : K} (hnonneg : ∀ u v c, step u v c → 0 ≤ c)
    (himp : ∀ u v c, u ∈ N → u ≠ t → v ≠ s → c ≤ bound → step u v c → v ∈ N ∧ step' u v c)
    (h : CostPath step t u p k) (hu : u ∈ N) (hs : s ∉ p.tail) (hk : k ≤ bound) :
    CostPath step' t u p k := by
  induction h with
  | here => exact .here
  | @cons u v p c k hfirst hrest hfresh ih =>
    obtain ⟨l, rfl⟩ := hrest.isSimplePath.eq_cons
    have hut : u ≠ t := fun heq => hfresh (heq ▸ List.mem_of_getLast? hrest.isSimplePath.last)
    have hc : c ≤ bound := (le_add_of_nonneg_right (hrest.cost_nonneg hnonneg)).trans hk
    have hle : k ≤ bound := (le_add_of_nonneg_left (hnonneg u v c hfirst)).trans hk
    have hvs : v ≠ s := fun heq => hs (heq ▸ List.mem_cons_self)
    obtain ⟨hv, hstep⟩ := himp u v c hu hut hvs hc hfirst
    exact .cons hstep (ih hv (fun hmem => hs (List.mem_cons_of_mem v hmem)) hle) hfresh

end CostPath

/-- Where each arc has one cost, the cost of a path is the sum over its steps. -/
theorem costPath_iff {arc : V → V → Prop} {w : V → V → K} {s t : V} {p : List V} {k : K} :
    CostPath (fun u v c => arc u v ∧ c = w u v) t s p k ↔
      IsSimplePath arc s t p ∧ k = pathSum w p := by
  constructor
  · intro h
    have hsimple := h.isSimplePath
    refine ⟨⟨?_, hsimple.head, hsimple.last, hsimple.nodup⟩, h.cost_eq fun _ _ _ hstep => hstep.2⟩
    exact hsimple.chain.imp fun _ _ ⟨_, hstep⟩ => hstep.1
  · rintro ⟨h, rfl⟩
    induction p generalizing s with
    | nil => exact absurd rfl h.ne_nil
    | cons a l ih =>
      obtain ⟨m, hm⟩ := h.eq_cons
      cases hm
      cases l with
      | nil =>
        cases Option.some.inj h.last
        exact .here
      | cons b l =>
        have hcons := List.nodup_cons.mp h.nodup
        have hrest : IsSimplePath arc b t (b :: l) :=
          ⟨h.chain.tail, rfl, by simpa using h.last, hcons.2⟩
        exact .cons ⟨List.IsChain.rel h.chain, rfl⟩ (ih hrest) hcons.1

end Costs

/-- What the steps of a path cost beyond a fixed weight adds up to what the path does. -/
theorem CostPath.sub {K : Type*} [AddCommGroup K] {step : V → V → K → Prop} {t u : V} {p : List V}
    {k : K} (w : V → V → K) (h : CostPath step t u p k) :
    CostPath (fun a b x => ∃ c, step a b c ∧ x = c - w a b) t u p (k - pathSum w p) := by
  induction h with
  | here =>
    have hnone : pathSum w [t] = 0 := rfl
    rw [hnone, sub_zero]
    exact .here
  | @cons u v p c k hfirst hrest hfresh ih =>
    obtain ⟨l, rfl⟩ := hrest.isSimplePath.eq_cons
    rw [pathSum, add_sub_add_comm]
    exact .cons ⟨c, hfirst, rfl⟩ ih hfresh

end Arcturus.SimplePaths
