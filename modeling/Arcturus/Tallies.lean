import Mathlib.Algebra.Order.Group.Multiset
import Mathlib.Data.Multiset.MapFold
import Mathlib.Data.List.Flatten
import Mathlib.Tactic.Abel

/-!
Accounts of things that move between places. What the places hold is a multiset, so that
a move keeps the sum. A tally is matched with another one if each of its entries has an
entry of its own in the other one that it is related to.
-/

namespace Arcturus.Tallies

variable {α β γ δ : Type*}

/-- What a list of places holds. -/
def tally (places : List (List α)) : Multiset α := (places.flatten : Multiset α)

@[simp] theorem tally_nil : tally ([] : List (List α)) = 0 := rfl

@[simp] theorem tally_cons (x : List α) (places : List (List α)) :
    tally (x :: places) = (x : Multiset α) + tally places := by
  simp [tally]

@[simp] theorem tally_append (places more : List (List α)) :
    tally (places ++ more) = tally places + tally more := by
  simp [tally]

theorem tally_replicate_nil (n : ℕ) : tally (List.replicate n ([] : List α)) = 0 := by
  simp [tally]

/-- One place gets other contents. -/
theorem tally_set {places : List (List α)} {k : ℕ} {old : List α} (h : places[k]? = some old)
    (new : List α) : tally (places.set k new) + old = tally places + new := by
  induction places generalizing k with
  | nil => simp at h
  | cons x places ih =>
    cases k with
    | zero =>
      simp only [List.getElem?_cons_zero, Option.some.injEq] at h
      simp only [h, List.set_cons_zero, tally_cons]
      abel
    | succ k =>
      rw [List.getElem?_cons_succ] at h
      rw [List.set_cons_succ, tally_cons, tally_cons, add_assoc, ih h, ← add_assoc]

theorem le_tally {places : List (List α)} {k : ℕ} {x : List α} (h : places[k]? = some x) :
    (x : Multiset α) ≤ tally places := by
  obtain ⟨hlt, rfl⟩ := List.getElem?_eq_some_iff.mp h
  exact Multiset.coe_le.mpr (List.sublist_flatten_of_mem (List.getElem_mem hlt)).subperm

theorem tally_eraseIdx {places : List (List α)} {k : ℕ} {x : List α} (h : places[k]? = some x) :
    tally places = (x : Multiset α) + tally (places.eraseIdx k) := by
  obtain ⟨hlt, rfl⟩ := List.getElem?_eq_some_iff.mp h
  have hperm := (List.getElem_cons_eraseIdx_perm hlt).flatten
  rw [← tally_cons]
  exact (Multiset.coe_eq_coe.mpr hperm).symm

theorem coe_eraseIdx {l : List α} {k : ℕ} {x : α} (h : l[k]? = some x) :
    (l : Multiset α) = x ::ₘ (l.eraseIdx k : Multiset α) := by
  obtain ⟨hlt, rfl⟩ := List.getElem?_eq_some_iff.mp h
  exact (Multiset.coe_eq_coe.mpr (List.getElem_cons_eraseIdx_perm hlt)).symm

/-- Indices without entries may be left out. -/
theorem flatMap_perm_of_support {ids l : List ℕ} (hids : ids.Nodup) (hl : l.Nodup)
    (hsub : ∀ b ∈ ids, b ∈ l) {f : ℕ → List β} (hf : ∀ b, b ∉ ids → f b = []) :
    (ids.flatMap f).Perm (l.flatMap f) := by
  have hin : (l.filter (· ∈ ids)).Perm ids := by
    apply (List.perm_ext_iff_of_nodup (hl.filter _) hids).mpr
    intro b
    rw [List.mem_filter]
    constructor
    · exact fun hb => of_decide_eq_true hb.2
    · exact fun hb => ⟨hsub b hb, decide_eq_true hb⟩
  have hout : (l.filter (fun b => !decide (b ∈ ids))).flatMap f = [] := by
    rw [List.flatMap_eq_nil_iff]
    intro b hb
    exact hf b (by simpa using (List.mem_filter.mp hb).2)
  have hsplit := (List.filter_append_perm (fun b => decide (b ∈ ids)) l).flatMap_right f
  rw [List.flatMap_append, hout, List.append_nil] at hsplit
  exact ((hin.flatMap_right f).symm).trans hsplit

theorem forall₂_eraseIdx {R : α → β → Prop} {l : List α} {l' : List β} {k : ℕ} {a : α}
    (h : List.Forall₂ R l l') (ha : l[k]? = some a) :
    ∃ b, l'[k]? = some b ∧ R a b ∧ List.Forall₂ R (l.eraseIdx k) (l'.eraseIdx k) := by
  induction h generalizing k with
  | nil => cases ha
  | @cons x y l l' hxy hrest ih =>
    cases k with
    | zero =>
      cases ha
      exact ⟨y, rfl, hxy, hrest⟩
    | succ k =>
      obtain ⟨b, hb, hab, hothers⟩ := ih ha
      exact ⟨b, hb, hab, .cons hxy hothers⟩

theorem forall₂_set {R : α → β → Prop} {l : List α} {l' : List β} (h : List.Forall₂ R l l')
    (k : ℕ) {a : α} {b : β} (hab : R a b) : List.Forall₂ R (l.set k a) (l'.set k b) := by
  induction h generalizing k with
  | nil => exact .nil
  | cons hxy hrest ih =>
    cases k with
    | zero => exact .cons hab hrest
    | succ k => exact .cons hxy (ih k)

theorem forall₂_mem_right {R : α → β → Prop} {l : List α} {l' : List β}
    (h : List.Forall₂ R l l') {b : β} (hb : b ∈ l') : ∃ a ∈ l, R a b := by
  induction h with
  | nil => cases hb
  | cons hab _ ih =>
    rcases List.mem_cons.mp hb with rfl | hb
    · exact ⟨_, List.mem_cons_self, hab⟩
    · obtain ⟨a, ha, hab⟩ := ih hb
      exact ⟨a, List.mem_cons_of_mem _ ha, hab⟩

theorem forall₂_getElem? {R : α → β → Prop} {l : List α} {l' : List β} (h : List.Forall₂ R l l')
    {k : ℕ} {a : α} (ha : l[k]? = some a) : ∃ b, l'[k]? = some b ∧ R a b := by
  obtain ⟨b, hb, hab, -⟩ := forall₂_eraseIdx h ha
  exact ⟨b, hb, hab⟩

theorem rel_of_forall₂ {R : α → β → Prop} {l : List α} {l' : List β} (h : List.Forall₂ R l l') :
    Multiset.Rel R (l : Multiset α) (l' : Multiset β) := by
  induction h with
  | nil => exact .zero
  | cons hab _ ih => exact .cons hab ih

/-- Related tallies stay related when related entries are turned into related results, or
dropped together. -/
theorem rel_filterMap {R : α → β → Prop} {S : γ → δ → Prop} {f : α → Option γ} {g : β → Option δ}
    {s : Multiset α} {t : Multiset β} (h : Multiset.Rel R s t)
    (hfg : ∀ a b, R a b → Option.Rel S (f a) (g b)) :
    Multiset.Rel S (s.filterMap f) (t.filterMap g) := by
  induction h with
  | zero => exact .zero
  | @cons a b s t hab _ ih =>
    have hopt := hfg a b hab
    cases hf : f a with
    | none =>
      cases hg : g b with
      | none => rwa [Multiset.filterMap_cons_none _ _ hf, Multiset.filterMap_cons_none _ _ hg]
      | some d =>
        rw [hf, hg] at hopt
        cases hopt
    | some c =>
      cases hg : g b with
      | none =>
        rw [hf, hg] at hopt
        cases hopt
      | some d =>
        rw [hf, hg] at hopt
        rw [Multiset.filterMap_cons_some _ _ _ hf, Multiset.filterMap_cons_some _ _ _ hg]
        cases hopt with
        | some hcd => exact .cons hcd ih

theorem tally_map_le {f g : α → List β} {l : List α}
    (h : ∀ a ∈ l, (f a : Multiset β) ≤ (g a : Multiset β)) :
    tally (l.map f) ≤ tally (l.map g) := by
  induction l with
  | nil => exact le_rfl
  | cons a l ih =>
    rw [List.forall_mem_cons] at h
    rw [List.map_cons, List.map_cons, tally_cons, tally_cons]
    exact add_le_add h.1 (ih h.2)

/-- Every entry of the first tally has its own entry in the second one. -/
def Matched (R : α → β → Prop) (s : Multiset α) (t : Multiset β) : Prop :=
  ∃ t' ≤ t, Multiset.Rel R s t'

section Matched
variable {R : α → β → Prop} {S : β → γ → Prop} {s s' : Multiset α} {t t' : Multiset β}
  {u : Multiset γ}

theorem Matched.exists_of_mem (h : Matched R s t) {a : α} (ha : a ∈ s) : ∃ b ∈ t, R a b := by
  obtain ⟨t', hle, hrel⟩ := h
  obtain ⟨b, hb, hab⟩ := Multiset.exists_mem_of_rel_of_mem hrel ha
  exact ⟨b, Multiset.mem_of_le hle hb, hab⟩

theorem Matched.mono {R' : α → β → Prop} (h : Matched R s t) (hle : t ≤ t')
    (himp : ∀ a ∈ s, ∀ b ∈ t, R a b → R' a b) : Matched R' s t' := by
  obtain ⟨v, hv, hrel⟩ := h
  refine ⟨v, hv.trans hle, hrel.mono ?_⟩
  exact fun a ha b hb => himp a ha b (Multiset.mem_of_le hv hb)

theorem Matched.of_map_le {f : α → γ} {g : β → γ} (h : s.map f ≤ t.map g) :
    Matched (fun a b => f a = g b) s t := by
  obtain ⟨rest, hrest⟩ := Multiset.le_iff_exists_add.mp h
  have hrel : Multiset.Rel (fun c b => c = g b) (s.map f + rest) t := by
    rw [← hrest, ← Multiset.rel_map_right]
    exact Multiset.rel_eq.mpr rfl
  obtain ⟨t₁, t₂, h₁, -, rfl⟩ := Multiset.rel_add_left.mp hrel
  exact ⟨t₁, Multiset.le_add_right t₁ t₂, Multiset.rel_map_left.mp h₁⟩

theorem Matched.of_rel_of_le (h : Multiset.Rel R s t) (hle : s' ≤ s) : Matched R s' t := by
  obtain ⟨rest, rfl⟩ := Multiset.le_iff_exists_add.mp hle
  obtain ⟨t₁, t₂, h₁, -, rfl⟩ := Multiset.rel_add_left.mp h
  exact ⟨t₁, Multiset.le_add_right t₁ t₂, h₁⟩

theorem rel_comp (h : Multiset.Rel R s t) (h' : Multiset.Rel S t u) :
    Multiset.Rel (fun a c => ∃ b, R a b ∧ S b c) s u := by
  induction h generalizing u with
  | zero => exact (Multiset.rel_zero_left.mp h') ▸ .zero
  | cons hab _ ih =>
    obtain ⟨c, u', hbc, hrest, rfl⟩ := Multiset.rel_cons_left.mp h'
    exact .cons ⟨_, hab, hbc⟩ (ih hrest)

theorem Matched.comp (h : Matched R s t) (h' : Matched S t u) :
    Matched (fun a c => ∃ b, R a b ∧ S b c) s u := by
  obtain ⟨t', hle, hrel⟩ := h
  obtain ⟨u', hle', hrel'⟩ := h'
  obtain ⟨v, hv, hrest⟩ := Matched.of_rel_of_le hrel' hle
  exact ⟨v, hv.trans hle', rel_comp hrel hrest⟩

end Matched

end Arcturus.Tallies
