import Mathlib.Data.Option.Basic
import Mathlib.Data.List.Induction

/-!
Runs of a system whose steps are chosen by actions. A step that is not possible has
no result. The rules below are the inductions over a run: for conditions on its steps, for what
every state keeps, and for what relates a state to the actions that led to it. Then follow the
stores of a state whose entries are known by their number: a new entry goes to the end, an entry
is replaced or changed in its place, and none is ever taken out.
-/

namespace Arcturus.StepRuns

variable {σ α : Type*} (step : σ → α → Option σ)

def run (s : σ) (actions : List α) : Option σ := actions.foldlM step s

/-- Every step of the run from `s` meets the condition in the state before it. -/
def AllSteps (P : σ → α → Prop) : σ → List α → Prop
  | _, [] => True
  | s, a :: actions => P s a ∧ ∀ s', step s a = some s' → AllSteps P s' actions

variable {step}

@[simp] theorem run_nil (s : σ) : run step s [] = some s := rfl

theorem run_cons (s : σ) (a : α) (actions : List α) :
    run step s (a :: actions) = (step s a).bind fun s' => run step s' actions := by
  simp [run]

theorem run_append (s : σ) (front back : List α) :
    run step s (front ++ back) = (run step s front).bind fun s' => run step s' back := by
  simp [run, List.foldlM_append]

theorem run_concat_eq_some {s s' : σ} {a : α} {actions : List α} :
    run step s (actions ++ [a]) = some s' ↔ ∃ mid, run step s actions = some mid ∧
      step mid a = some s' := by
  simp [run_append, run_cons, Option.bind_eq_some_iff]

theorem AllSteps.cons {P : σ → α → Prop} {s s' : σ} {a : α} {actions : List α} (ha : P s a)
    (hstep : step s a = some s') (hrest : AllSteps step P s' actions) :
    AllSteps step P s (a :: actions) := by
  refine ⟨ha, ?_⟩
  intro t ht
  cases Option.some.inj (hstep.symm.trans ht)
  exact hrest

theorem allSteps_cons_none {P : σ → α → Prop} {s : σ} {a : α} (actions : List α)
    (h : step s a = none) : AllSteps step P s (a :: actions) ↔ P s a :=
  and_iff_left fun s' hs' => by rw [h] at hs'; cases hs'

theorem allSteps_cons_some {P : σ → α → Prop} {s s' : σ} {a : α} (actions : List α)
    (h : step s a = some s') :
    AllSteps step P s (a :: actions) ↔ P s a ∧ AllSteps step P s' actions :=
  ⟨fun hall => ⟨hall.1, hall.2 s' h⟩, fun hall => AllSteps.cons hall.1 h hall.2⟩

theorem AllSteps.of_append {P : σ → α → Prop} {s : σ} {front back : List α}
    (h : AllSteps step P s (front ++ back)) : AllSteps step P s front := by
  induction front generalizing s with
  | nil => trivial
  | cons a front ih => exact ⟨h.1, fun s' hs' => ih (h.2 s' hs')⟩

/-- A run that goes through meets a condition if every one of its steps does, after the part
of the run before it. -/
theorem allSteps_of_run {P : σ → α → Prop} {s s' : σ} {actions : List α}
    (hrun : run step s actions = some s')
    (h : ∀ front a back mid next, actions = front ++ a :: back → run step s front = some mid →
      step mid a = some next → P mid a) : AllSteps step P s actions := by
  induction actions generalizing s with
  | nil => trivial
  | cons a actions ih =>
    rw [run_cons, Option.bind_eq_some_iff] at hrun
    obtain ⟨mid, hmid, hrest⟩ := hrun
    refine AllSteps.cons (h [] a actions s mid rfl rfl hmid) hmid (ih hrest ?_)
    intro front b back t next heq hfront hnext
    refine h (a :: front) b back t next (by rw [heq, List.cons_append]) ?_ hnext
    rw [run_cons, hmid]
    exact hfront

/-- Whether a run meets a condition can be found out by running it. -/
instance decidableAllSteps {P : σ → α → Prop} [∀ s a, Decidable (P s a)] :
    ∀ s actions, Decidable (AllSteps step P s actions)
  | _, [] => isTrue trivial
  | s, a :: actions =>
    match h : step s a with
    | none => decidable_of_iff _ (allSteps_cons_none actions h).symm
    | some s' =>
      have := decidableAllSteps (P := P) s' actions
      decidable_of_iff _ (allSteps_cons_some actions h).symm

/-- Conditions that agree wherever an invariant holds are met by the same runs, if steps
that meet one of them keep the invariant. -/
theorem allSteps_congr_of_kept {P Q : σ → α → Prop} {Inv : σ → Prop}
    (hstep : ∀ s a s', Inv s → Q s a → step s a = some s' → Inv s')
    (hiff : ∀ s a, Inv s → (P s a ↔ Q s a)) {s : σ} {actions : List α} (hs : Inv s) :
    AllSteps step P s actions ↔ AllSteps step Q s actions := by
  induction actions generalizing s with
  | nil => exact Iff.rfl
  | cons a actions ih =>
    refine (and_congr_left' (hiff s a hs)).trans (and_congr_right fun ha => ?_)
    refine forall_congr' fun s' => imp_congr_right fun h => ?_
    exact ih (hstep s a s' hs ha h)

/-- Conditions that agree wherever an invariant holds are met by the same runs. -/
theorem allSteps_congr {P Q : σ → α → Prop} {Inv : σ → Prop}
    (hstep : ∀ s a s', Inv s → step s a = some s' → Inv s')
    (hiff : ∀ s a, Inv s → (P s a ↔ Q s a)) {s : σ} {actions : List α} (hs : Inv s) :
    AllSteps step P s actions ↔ AllSteps step Q s actions :=
  allSteps_congr_of_kept (fun s a s' hs _ h => hstep s a s' hs h) hiff hs

/-- What holds at the start and is kept by every step that meets the condition holds
at the end of every run whose steps all meet it. -/
theorem run_invariant {P : σ → α → Prop} {Inv : σ → Prop}
    (hstep : ∀ s a s', Inv s → P s a → step s a = some s' → Inv s')
    {s s' : σ} {actions : List α} (hs : Inv s) (hall : AllSteps step P s actions)
    (hrun : run step s actions = some s') : Inv s' := by
  induction actions generalizing s with
  | nil =>
    cases Option.some.inj hrun
    exact hs
  | cons a actions ih =>
    rw [run_cons, Option.bind_eq_some_iff] at hrun
    obtain ⟨mid, hmid, hrest⟩ := hrun
    exact ih (hstep s a mid hs hall.1 hmid) (hall.2 mid hmid) hrest

/-- The same for a condition on the actions alone. -/
theorem run_keeps_of_mem {P : α → Prop} {Inv : σ → Prop}
    (hstep : ∀ s a s', P a → Inv s → step s a = some s' → Inv s') {s s' : σ} {actions : List α}
    (hall : ∀ a ∈ actions, P a) (hs : Inv s) (hrun : run step s actions = some s') : Inv s' := by
  induction actions generalizing s with
  | nil =>
    cases Option.some.inj hrun
    exact hs
  | cons a actions ih =>
    rw [run_cons, Option.bind_eq_some_iff] at hrun
    obtain ⟨mid, hmid, hrest⟩ := hrun
    rw [List.forall_mem_cons] at hall
    exact ih hall.2 (hstep s a mid hall.1 hs hmid) hrest

/-- The same for a relation between the actions so far and the state they lead to. -/
theorem run_induction {s₀ : σ} {motive : List α → σ → Prop} (hstart : motive [] s₀)
    (hstep : ∀ actions s a s', run step s₀ actions = some s → motive actions s →
      step s a = some s' → motive (actions ++ [a]) s')
    {actions : List α} {s : σ} (hrun : run step s₀ actions = some s) : motive actions s := by
  induction actions using List.reverseRecOn generalizing s with
  | nil =>
    cases Option.some.inj hrun
    exact hstart
  | append_singleton actions a ih =>
    obtain ⟨mid, hmid, hs⟩ := run_concat_eq_some.mp hrun
    exact hstep actions mid a s hmid (ih hmid) hs

/-- What holds at the start and is kept by every step holds at the end of every run. -/
theorem run_keeps {Inv : σ → Prop} (hstep : ∀ s a s', Inv s → step s a = some s' → Inv s')
    {s₀ s : σ} {actions : List α} (hstart : Inv s₀) (hrun : run step s₀ actions = some s) :
    Inv s := by
  refine run_induction (motive := fun _ s => Inv s) hstart ?_ hrun
  intro _ s a s' _ hs h
  exact hstep s a s' hs h

section Stores
variable {α : Type*} {l : List α} {x y : α} {i j : ℕ}

theorem getElem?_concat_eq_some :
    (l ++ [x])[i]? = some y ↔ l[i]? = some y ∨ (i = l.length ∧ x = y) := by
  rcases Nat.lt_trichotomy i l.length with hlt | rfl | hgt
  · rw [List.getElem?_append_left hlt]
    have hne : i ≠ l.length := by omega
    simp [hne]
  · simp
  · have hnone : l[i]? = none := List.getElem?_eq_none (by omega)
    have hnone' : (l ++ [x])[i]? = none := by
      refine List.getElem?_eq_none ?_
      simp only [List.length_append, List.length_singleton]
      omega
    have hne : i ≠ l.length := by omega
    simp [hnone, hnone', hne]

theorem getElem?_set_eq_some :
    (l.set i x)[j]? = some y ↔ (i = j ∧ i < l.length ∧ x = y) ∨ (i ≠ j ∧ l[j]? = some y) := by
  rw [List.getElem?_set]
  by_cases hij : i = j
  · by_cases hlt : j < l.length
    · simp [hij, hlt]
    · simp [hij, hlt]
  · simp [hij]

theorem getElem?_modify_eq_some {f : α → α} :
    (l.modify i f)[j]? = some y ↔ ∃ x, l[j]? = some x ∧ (if i = j then f x else x) = y := by
  rw [List.getElem?_modify]
  by_cases hij : i = j
  · simp [hij]
  · simp [hij]

end Stores

end Arcturus.StepRuns
