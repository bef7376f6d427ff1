import Mathlib.Data.Finset.Basic
import Mathlib.Data.Finset.Card
import Mathlib.Data.Set.Finite.Basic
import Mathlib.Data.List.Infix
import Mathlib.Data.Nat.Find
import Mathlib.Order.Lattice

/-!
Enumeration of a prefix-free family of sequences by deviation. A search is
asked for a member that extends a given root and leaves it by a next letter
outside a given set. Every member not yet found deviates from the found ones
after exactly one root, so the open roots partition what is missing. A member
once offered as a candidate stays one until it is chosen. Nothing here assumes
that a search returns a cheapest member; a run that takes cheapest candidates holds
cheapest members exactly if one of the cheapest missing ones is always offered.
-/

namespace Arcturus.Deviation

variable {V : Type*} [DecidableEq V]

/-- The letters that follow `root` in the listed sequences. -/
def nextHops (found : List (List V)) (root : List V) : Finset V :=
  (found.filterMap fun p => if root <+: p then p[root.length]? else none).toFinset

theorem mem_nextHops {found : List (List V)} {root : List V} {x : V} :
    x ∈ nextHops found root ↔ ∃ p ∈ found, root ++ [x] <+: p := by
  simp only [nextHops, List.mem_toFinset, List.mem_filterMap]
  constructor
  · intro hfound
    obtain ⟨p, hp, hx⟩ := hfound
    split at hx
    · rename_i hpre
      obtain ⟨t, rfl⟩ := hpre
      rw [List.getElem?_append_right (Nat.le_refl _), Nat.sub_self] at hx
      cases t with
      | nil => simp at hx
      | cons y ys =>
        simp only [List.getElem?_cons_zero, Option.some.injEq] at hx
        subst hx
        exact ⟨_, hp, ys, by simp⟩
    · exact absurd hx (by simp)
  · intro hmember
    obtain ⟨p, hp, t, rfl⟩ := hmember
    refine ⟨_, hp, ?_⟩
    have hpre : root <+: root ++ [x] ++ t := ⟨[x] ++ t, by simp⟩
    rw [if_pos hpre]
    simp

theorem nextHops_append (found : List (List V)) (q root : List V) :
    nextHops (found ++ [q]) root = nextHops found root ∪ nextHops [q] root := by
  ext x
  simp [mem_nextHops, or_and_right, exists_or]

/-- `root` is a nonempty proper prefix of `p`. -/
def RootOf (root p : List V) : Prop := root <+: p ∧ root ≠ p ∧ root ≠ []

/-- The members that leave `root` by a letter outside `X`. -/
def Leaves (Member : List V → Prop) (root : List V) (X : Finset V) (q : List V) : Prop :=
  Member q ∧ ∃ x, x ∉ X ∧ root ++ [x] <+: q

/-- A prefix-free family of sequences with one common first letter, a first
member, and a search for members that leave a root by a letter not in a set. -/
structure Scheme (V : Type*) [DecidableEq V] where
  Member : List V → Prop
  origin : V
  first : Option (List V)
  spur : List V → Finset V → Option (List V)
  prefix_free : ∀ p q, Member p → Member q → p <+: q → p = q
  head : ∀ p, Member p → [origin] <+: p
  first_member : ∀ q, first = some q → Member q
  first_none : first = none → ∀ q, ¬ Member q
  spur_sound : ∀ p root X q, Member p → RootOf root p → spur root X = some q →
    Leaves Member root X q
  spur_none : ∀ p root X, Member p → RootOf root p → spur root X = none →
    ∀ q, Member q → ∀ x, x ∉ X → ¬ root ++ [x] <+: q

namespace Scheme

variable (S : Scheme V)

/-- The members a search at `root` with the letters `X` removed can return. -/
def Open (root : List V) (X : Finset V) (q : List V) : Prop := Leaves S.Member root X q

/-- What one search at a root of a found member returns. -/
def Candidate (found : List (List V)) (q : List V) : Prop :=
  ∃ p ∈ found, ∃ root, RootOf root p ∧ S.spur root (nextHops found root) = some q

/-- Runs that start from the first member and repeatedly take a candidate. -/
inductive Found : List (List V) → Prop
  | first {q : List V} : S.first = some q → Found [q]
  | next {found : List (List V)} {q : List V} :
      Found found → S.Candidate found q → Found (found ++ [q])

variable {S}

theorem Found.ne_nil {found : List (List V)} (h : S.Found found) : found ≠ [] := by
  cases h <;> simp

theorem candidate_open {found : List (List V)} (hm : ∀ p ∈ found, S.Member p) {q : List V}
    (h : S.Candidate found q) :
    ∃ root, (∃ p ∈ found, RootOf root p) ∧ S.Open root (nextHops found root) q ∧
      S.spur root (nextHops found root) = some q := by
  obtain ⟨p, hp, root, hroot, hspur⟩ := h
  exact ⟨root, ⟨p, hp, hroot⟩, S.spur_sound p root _ q (hm p hp) hroot hspur, hspur⟩

theorem open_notMem {found : List (List V)} {root q : List V}
    (h : S.Open root (nextHops found root) q) : q ∉ found := by
  obtain ⟨-, x, hx, hpre⟩ := h
  intro hq
  exact hx (mem_nextHops.mpr ⟨q, hq, hpre⟩)

theorem Found.member {found : List (List V)} (h : S.Found found) : ∀ p ∈ found, S.Member p := by
  induction h with
  | first hq =>
    intro p hp
    rw [List.mem_singleton] at hp
    subst hp
    exact S.first_member _ hq
  | next hf hc ih =>
    intro p hp
    rcases List.mem_append.mp hp with hp | hp
    · exact ih p hp
    · rw [List.mem_singleton] at hp
      subst hp
      obtain ⟨_, _, hopen, _⟩ := candidate_open ih hc
      exact hopen.1

theorem candidate_notMem {found : List (List V)} (hm : ∀ p ∈ found, S.Member p) {q : List V}
    (h : S.Candidate found q) : q ∉ found := by
  obtain ⟨_, _, hopen, _⟩ := candidate_open hm h
  exact open_notMem hopen

theorem Found.nodup {found : List (List V)} (h : S.Found found) : found.Nodup := by
  induction h with
  | first hq => simp
  | next hf hc ih =>
    rw [List.nodup_append]
    refine ⟨ih, by simp, ?_⟩
    intro a ha b hb
    rw [List.mem_singleton] at hb
    subst hb
    exact fun he => candidate_notMem hf.member hc (he ▸ ha)

omit [DecidableEq V] in
private theorem snoc_prefix_of_ne {r t q : List V} {x : V} (hr : r ++ [x] <+: q) (ht : t <+: q)
    (hlt : r.length < t.length) : r ++ [x] <+: t :=
  List.prefix_of_prefix_length_le hr ht (by
    rw [List.length_append, List.length_singleton]
    omega)

/-- A member deviates from the found ones after one root only. -/
theorem root_unique {found : List (List V)} {r t q : List V}
    (hr : ∃ p ∈ found, r <+: p) (ht : ∃ p ∈ found, t <+: p)
    (hqr : S.Open r (nextHops found r) q) (hqt : S.Open t (nextHops found t) q) : r = t := by
  obtain ⟨-, x, hx, hxq⟩ := hqr
  obtain ⟨-, y, hy, hyq⟩ := hqt
  have hrq : r <+: q := (List.prefix_append r [x]).trans hxq
  have htq : t <+: q := (List.prefix_append t [y]).trans hyq
  rcases Nat.lt_trichotomy r.length t.length with hlt | heq | hgt
  · obtain ⟨p, hp, htp⟩ := ht
    exact absurd (mem_nextHops.mpr ⟨p, hp, (snoc_prefix_of_ne hxq htq hlt).trans htp⟩) hx
  · exact (List.prefix_of_prefix_length_le hrq htq heq.le).eq_of_length heq
  · obtain ⟨p, hp, hrp⟩ := hr
    exact absurd (mem_nextHops.mpr ⟨p, hp, (snoc_prefix_of_ne hyq hrq hgt).trans hrp⟩) hy

/-- The longest prefix of `q` shared with one of the found sequences. -/
theorem exists_longest_prefix (found : List (List V)) (q : List V) (hne : found ≠ []) :
    ∃ r, r <+: q ∧ (∃ p ∈ found, r <+: p) ∧
      ∀ t, t <+: q → (∃ p ∈ found, t <+: p) → t.length ≤ r.length := by
  classical
  let good : ℕ → Prop := fun n => ∃ p ∈ found, q.take n <+: p
  have h0 : good 0 := by
    obtain ⟨p, ps, rfl⟩ := List.exists_cons_of_ne_nil hne
    exact ⟨p, by simp, by simp⟩
  have hmax := Nat.findGreatest_spec (P := good) (Nat.zero_le q.length) h0
  refine ⟨q.take (Nat.findGreatest good q.length), List.take_prefix _ _, hmax, ?_⟩
  intro t htq htp
  have hlen : t.length ≤ q.length := htq.length_le
  have hgood : good t.length := by
    have htake : q.take t.length = t := (List.prefix_iff_eq_take.mp htq).symm
    simpa only [good, htake] using htp
  have hle := Nat.le_findGreatest hlen hgood
  rw [List.length_take]
  exact le_min hle hlen

/-- Every member that is not found is open at a root of a found one. -/
theorem exists_open_root {found : List (List V)} (hne : found ≠ [])
    (hm : ∀ p ∈ found, S.Member p) {q : List V} (hq : S.Member q) (hnot : q ∉ found) :
    ∃ p ∈ found, ∃ root, RootOf root p ∧ S.Open root (nextHops found root) q := by
  obtain ⟨root, hrq, ⟨p, hp, hrp⟩, hmax⟩ := exists_longest_prefix found q hne
  have hrootq : root ≠ q := by
    intro heq
    subst heq
    exact hnot (S.prefix_free _ _ hq (hm p hp) hrp ▸ hp)
  have hrootp : root ≠ p := by
    intro heq
    subst heq
    exact hnot (S.prefix_free _ _ (hm _ hp) hq hrq ▸ hp)
  have hpos : root ≠ [] := by
    intro heq
    subst heq
    have hle := hmax [S.origin] (S.head q hq) ⟨p, hp, S.head p (hm p hp)⟩
    simp at hle
  obtain ⟨t, ht⟩ := hrq
  cases t with
  | nil =>
    rw [List.append_nil] at ht
    exact absurd ht hrootq
  | cons x xs =>
    have hxq : root ++ [x] <+: q := ⟨xs, by rw [← ht]; simp⟩
    refine ⟨p, hp, root, ⟨hrp, hrootp, hpos⟩, hq, x, ?_, hxq⟩
    intro hx
    obtain ⟨p', hp', hxp'⟩ := mem_nextHops.mp hx
    have hle := hmax (root ++ [x]) hxq ⟨p', hp', hxp'⟩
    rw [List.length_append, List.length_singleton] at hle
    omega

theorem exists_candidate {found : List (List V)} (hne : found ≠ [])
    (hm : ∀ p ∈ found, S.Member p) {q : List V} (hq : S.Member q) (hnot : q ∉ found) :
    ∃ r, S.Candidate found r := by
  obtain ⟨p, hp, root, hroot, -, x, hx, hxq⟩ := exists_open_root hne hm hq hnot
  cases hspur : S.spur root (nextHops found root) with
  | none => exact absurd hxq (S.spur_none p root _ (hm p hp) hroot hspur q hq x hx)
  | some r => exact ⟨r, p, hp, root, hroot, hspur⟩

/-- A run without candidates has found every member. -/
theorem Found.exhaustive {found : List (List V)} (h : S.Found found)
    (hstop : ∀ q, ¬ S.Candidate found q) : ∀ q, S.Member q → q ∈ found := by
  intro q hq
  by_contra hnot
  obtain ⟨r, hr⟩ := exists_candidate h.ne_nil h.member hq hnot
  exact hstop r hr

/-- Choosing one candidate does not change the search that offers another. -/
theorem nextHops_candidate {found : List (List V)} (hm : ∀ p ∈ found, S.Member p)
    {p root : List V} (hroot : ∃ a ∈ found, root <+: a) (hp : S.Candidate found p)
    (hne : S.spur root (nextHops found root) ≠ some p) :
    nextHops (found ++ [p]) root = nextHops found root := by
  rw [nextHops_append, Finset.union_eq_left]
  intro x hx
  obtain ⟨p', hp', hxp⟩ := mem_nextHops.mp hx
  rw [List.mem_singleton] at hp'
  subst hp'
  by_contra hnot
  obtain ⟨t, ⟨a, ha, hta⟩, hopen, hspur⟩ := candidate_open hm hp
  have hrt := root_unique hroot ⟨a, ha, hta.1⟩ ⟨hopen.1, x, hnot, hxp⟩ hopen
  subst hrt
  exact hne hspur

theorem candidate_persists {found : List (List V)} (hm : ∀ p ∈ found, S.Member p)
    {p q : List V} (hp : S.Candidate found p) (hq : S.Candidate found q) (hne : q ≠ p) :
    S.Candidate (found ++ [p]) q := by
  obtain ⟨a, ha, root, hroot, hspur⟩ := hq
  refine ⟨a, List.mem_append_left _ ha, root, hroot, ?_⟩
  rw [nextHops_candidate hm ⟨a, ha, hroot.1⟩ hp, hspur]
  rw [hspur]
  exact fun he => hne (Option.some.inj he)

section Cost
variable {κ : Type*} [Preorder κ] {cost : List V → κ}

variable (S cost) in
/-- Runs that always take a cheapest candidate. -/
inductive BestFound : List (List V) → Prop
  | first {q : List V} : S.first = some q → BestFound [q]
  | next {found : List (List V)} {q : List V} : BestFound found → S.Candidate found q →
      (∀ r, S.Candidate found r → cost q ≤ cost r) → BestFound (found ++ [q])

theorem BestFound.found {found : List (List V)} (h : S.BestFound cost found) : S.Found found := by
  induction h with
  | first hq => exact Found.first hq
  | next _ hc _ ih => exact Found.next ih hc

theorem BestFound.last {found : List (List V)} {q : List V}
    (h : S.BestFound cost (found ++ [q])) (hne : found ≠ []) :
    S.Candidate found q ∧ ∀ r, S.Candidate found r → cost q ≤ cost r := by
  generalize hlist : found ++ [q] = all at h
  cases h with
  | first _ => exact absurd (List.append_eq_singleton_iff.mp hlist) (by simp [hne])
  | next _ hc hmin =>
    obtain ⟨rfl, hq⟩ := List.append_inj' hlist rfl
    cases hq
    exact ⟨hc, hmin⟩

variable (S cost) in
/-- One of the cheapest missing members, if there are any, is a candidate. -/
def Fair (found : List (List V)) : Prop :=
  (∃ q, S.Member q ∧ q ∉ found) →
    ∃ r, S.Candidate found r ∧ ∀ q, S.Member q → q ∉ found → cost r ≤ cost q

theorem BestFound.first_of_singleton {q : List V} (h : S.BestFound cost ([] ++ [q])) :
    S.first = some q := by
  generalize hlist : ([] ++ [q] : List (List V)) = all at h
  cases h with
  | first hq =>
    cases hlist
    exact hq
  | next hfound _ _ =>
    obtain ⟨hnil, -⟩ := List.append_inj' hlist rfl
    exact absurd hnil.symm hfound.found.ne_nil

/-- A choice costs no more than any missing member exactly if one of the cheapest of these is
offered. -/
theorem BestFound.last_cheapest_iff {found : List (List V)} {q : List V}
    (h : S.BestFound cost (found ++ [q])) (hne : found ≠ []) :
    (∀ m, S.Member m → m ∉ found → cost q ≤ cost m) ↔ S.Fair cost found := by
  obtain ⟨hq, hmin⟩ := h.last hne
  refine ⟨fun hleast _ => ⟨q, hq, hleast⟩, fun hfair m hm hnot => ?_⟩
  obtain ⟨r, hr, hle⟩ := hfair ⟨m, hm, hnot⟩
  exact (hmin r hr).trans (hle m hm hnot)

end Cost

end Scheme

end Arcturus.Deviation
