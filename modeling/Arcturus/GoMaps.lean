import Mathlib.Logic.Function.Basic
import Mathlib.Data.List.Nodup

/-!
Maps whose read of an absent key gives the zero value of the value type. The
keys are listed in insertion order; the listed order of a range loop is one of
the orders such a loop may take. Where the order matters, a range says which one.
-/

namespace Arcturus.GoMaps

@[ext]
structure GoMap (K V : Type*) [Inhabited V] where
  keys : List K
  val : K → V
  absent : ∀ k, k ∉ keys → val k = default

namespace GoMap

variable {K V : Type*} [Inhabited V] [DecidableEq K]

def empty : GoMap K V := ⟨[], fun _ => default, fun _ _ => rfl⟩

def set (m : GoMap K V) (k : K) (v : V) : GoMap K V where
  keys := if k ∈ m.keys then m.keys else m.keys ++ [k]
  val := Function.update m.val k v
  absent := by
    intro a ha
    have hak : a ≠ k := by
      intro heq
      subst heq
      split at ha <;> simp_all
    rw [Function.update_of_ne hak]
    apply m.absent
    intro hmem
    split at ha <;> simp_all

@[simp] theorem set_val_same (m : GoMap K V) (k : K) (v : V) : (m.set k v).val k = v := by
  simp [set]

theorem set_val_of_ne (m : GoMap K V) {k a : K} (v : V) (h : a ≠ k) :
    (m.set k v).val a = m.val a := by
  simp [set, h]

theorem set_keys_of_mem (m : GoMap K V) {k : K} (v : V) (h : k ∈ m.keys) :
    (m.set k v).keys = m.keys := by
  simp [set, h]

theorem mem_set_keys (m : GoMap K V) (k a : K) (v : V) :
    a ∈ (m.set k v).keys ↔ a = k ∨ a ∈ m.keys := by
  by_cases h : k ∈ m.keys
  · simp only [set, if_pos h]
    constructor
    · exact Or.inr
    · intro hmem
      rcases hmem with rfl | ha
      · exact h
      · exact ha
  · simp [set, if_neg h, or_comm]

theorem nodup_set_keys {m : GoMap K V} (h : m.keys.Nodup) (k : K) (v : V) :
    (m.set k v).keys.Nodup := by
  by_cases hk : k ∈ m.keys
  · rw [m.set_keys_of_mem v hk]
    exact h
  · have hkeys : (m.set k v).keys = m.keys.concat k := by simp [set, hk]
    rw [hkeys]
    exact h.concat hk

/-- Writing the value a key already has changes nothing. -/
theorem set_eq_self (m : GoMap K V) {k : K} (h : k ∈ m.keys) : m.set k (m.val k) = m := by
  ext1
  · exact m.set_keys_of_mem _ h
  · exact Function.update_eq_self k m.val

/-- The later of two writes to one key stands. -/
theorem set_set (m : GoMap K V) (k : K) (v w : V) : (m.set k v).set k w = m.set k w := by
  have hk : k ∈ (m.set k v).keys := (m.mem_set_keys k k v).mpr (Or.inl rfl)
  ext1
  · rw [set_keys_of_mem _ _ hk]
    rfl
  · simp [set]

section Fold

variable {ι : Type*} (k : ι → K) (v : ι → V)

theorem mem_foldl_set_keys (l : List ι) (m : GoMap K V) (a : K) :
    a ∈ (l.foldl (fun m i => m.set (k i) (v i)) m).keys ↔ a ∈ m.keys ∨ ∃ i ∈ l, k i = a := by
  induction l generalizing m with
  | nil => simp
  | cons i l ih =>
    rw [List.foldl_cons, ih, mem_set_keys, List.exists_mem_cons_iff, eq_comm (a := a)]
    tauto

/-- A key holds what some entry of the list writes to it, or what it held before. -/
theorem foldl_set_val (l : List ι) (m : GoMap K V) (a : K) :
    (∃ i ∈ l, k i = a ∧ (l.foldl (fun m i => m.set (k i) (v i)) m).val a = v i) ∨
      ((∀ i ∈ l, k i ≠ a) ∧ (l.foldl (fun m i => m.set (k i) (v i)) m).val a = m.val a) := by
  induction l generalizing m with
  | nil => simp
  | cons i l ih =>
    rw [List.foldl_cons]
    rcases ih (m.set (k i) (v i)) with ⟨j, hj, hkey, hval⟩ | ⟨hnone, hval⟩
    · exact Or.inl ⟨j, List.mem_cons_of_mem i hj, hkey, hval⟩
    · by_cases ha : k i = a
      · refine Or.inl ⟨i, List.mem_cons_self, ha, ?_⟩
        rw [hval, ← ha, set_val_same]
      · refine Or.inr ⟨List.forall_mem_cons.mpr ⟨ha, hnone⟩, ?_⟩
        rw [hval, set_val_of_ne _ _ (Ne.symm ha)]

/-- What is collected under a key keeps the order of the entries. -/
theorem foldl_collect_val {W : Type*} (f : ι → W) (l : List ι) (m : GoMap K (List W)) (a : K) :
    (l.foldl (fun m i => m.set (k i) (m.val (k i) ++ [f i])) m).val a =
      m.val a ++ (l.filter fun i => k i == a).map f := by
  induction l generalizing m with
  | nil => simp
  | cons i l ih =>
    rw [List.foldl_cons, ih]
    by_cases ha : k i = a
    · subst ha
      simp [set_val_same]
    · rw [set_val_of_ne _ _ (Ne.symm ha)]
      simp [ha]

/-- Entries collected under their keys keep their order. -/
theorem foldl_group_val (l : List ι) (m : GoMap K (List ι)) (a : K) :
    (l.foldl (fun m i => m.set (k i) (m.val (k i) ++ [i])) m).val a =
      m.val a ++ l.filter fun i => k i == a := by
  have h := foldl_collect_val k id l m a
  rwa [List.map_id] at h

end Fold

/-- Delete a key. -/
def erase (m : GoMap K V) (k : K) : GoMap K V where
  keys := m.keys.filter (· ≠ k)
  val := Function.update m.val k default
  absent := by
    intro a ha
    by_cases hak : a = k
    · subst hak
      simp
    · rw [Function.update_of_ne hak]
      apply m.absent
      simpa [hak] using ha

@[simp] theorem erase_val_same (m : GoMap K V) (k : K) : (m.erase k).val k = default := by
  simp [erase]

theorem erase_val_of_ne (m : GoMap K V) {k a : K} (h : a ≠ k) : (m.erase k).val a = m.val a := by
  simp [erase, h]

@[simp] theorem mem_erase_keys (m : GoMap K V) (k a : K) :
    a ∈ (m.erase k).keys ↔ a ∈ m.keys ∧ a ≠ k := by
  simp [erase]

theorem nodup_erase_keys {m : GoMap K V} (h : m.keys.Nodup) (k : K) : (m.erase k).keys.Nodup :=
  h.filter _

/-- Delete the keys whose values meet a condition, in a range loop over the map. -/
def eraseWhere (m : GoMap K V) (p : V → Bool) : GoMap K V :=
  m.keys.foldl (fun r k => if p (m.val k) then r.erase k else r) m

theorem foldl_erase_val (p : K → Bool) (l : List K) (m : GoMap K V) (a : K) :
    (l.foldl (fun r k => if p k then r.erase k else r) m).val a =
      if a ∈ l ∧ p a then default else m.val a := by
  induction l generalizing m with
  | nil => simp
  | cons k l ih =>
    rw [List.foldl_cons, ih]
    by_cases hak : a = k
    · subst hak
      by_cases hp : p a
      · simp [hp]
      · simp [hp]
    · by_cases hp : p k
      · simp [hp, hak, erase_val_of_ne _ hak]
      · simp [hp, hak]

theorem nodup_foldl_erase_keys (p : K → Bool) (l : List K) {m : GoMap K V} (h : m.keys.Nodup) :
    (l.foldl (fun r k => if p k then r.erase k else r) m).keys.Nodup := by
  induction l generalizing m with
  | nil => exact h
  | cons k l ih =>
    rw [List.foldl_cons]
    split
    · exact ih (nodup_erase_keys h k)
    · exact ih h

/-- Only values that do not meet the condition are left. -/
theorem eraseWhere_val (m : GoMap K V) (p : V → Bool) (a : K) :
    (m.eraseWhere p).val a = if p (m.val a) then default else m.val a := by
  unfold eraseWhere
  rw [foldl_erase_val (fun k => p (m.val k))]
  by_cases ha : a ∈ m.keys
  · simp [ha]
  · simp [ha, m.absent a ha]

/-- The order in which a range loop over the map takes its keys. -/
structure Range (m : GoMap K V) where
  keys : List K
  perm : keys.Perm m.keys

/-- The order of insertion is a possible one. -/
def range (m : GoMap K V) : m.Range := ⟨m.keys, List.Perm.refl _⟩

/-- Every key can be the first one. -/
def rangeFrom (m : GoMap K V) {k : K} (hk : k ∈ m.keys) : m.Range :=
  ⟨k :: m.keys.erase k, (List.perm_cons_erase hk).symm⟩

/-- A map that marks the elements of a list marks those of a longer one when the new element
is set. -/
theorem set_true_iff {m : GoMap K Bool} {l : List K} (h : ∀ a, m.val a = true ↔ a ∈ l) (k a : K) :
    (m.set k true).val a = true ↔ a ∈ l ++ [k] := by
  rw [List.mem_append, List.mem_singleton]
  by_cases hak : a = k
  · simp [hak]
  · rw [set_val_of_ne _ _ hak, h a]
    simp [hak]

omit [DecidableEq K] in
theorem val_eq_false_of_marks {m : GoMap K Bool} {l : List K} (h : ∀ a, m.val a = true ↔ a ∈ l)
    {k : K} (hk : k ∉ l) : m.val k = false := by
  rw [Bool.eq_false_iff]
  exact fun hmark => hk ((h k).mp hmark)

section Nil
variable {W : Type*}

/-- No entry is nil. -/
def NoNil (m : GoMap K (Option W)) : Prop := ∀ k ∈ m.keys, m.val k ≠ none

omit [DecidableEq K] in
theorem noNil_empty : (empty : GoMap K (Option W)).NoNil := fun _ hk => absurd hk List.not_mem_nil

theorem NoNil.set {m : GoMap K (Option W)} (h : m.NoNil) (k : K) {w : Option W} (hw : w ≠ none) :
    (m.set k w).NoNil := by
  intro a ha
  by_cases hak : a = k
  · rw [hak, set_val_same]
    exact hw
  · rw [set_val_of_ne _ _ hak]
    exact h a (((m.mem_set_keys k a w).mp ha).resolve_left hak)

end Nil

end GoMap

end Arcturus.GoMaps
