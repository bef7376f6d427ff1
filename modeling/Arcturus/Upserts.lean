import Arcturus.GoMaps

/-!
Maps that are filled entry by entry: the first entry for a key makes its value and each
later one is combined with the value there. What a key holds in the end depends only on
the entries for this key, in their order.
-/

namespace Arcturus.Upserts

open GoMaps

variable {K V ι : Type*} [DecidableEq K]

/-- Combine one entry with the value of its key. -/
def upsert (key : ι → K) (combine : Option V → ι → V) (m : GoMap K (Option V)) (i : ι) :
    GoMap K (Option V) :=
  m.set (key i) (some (combine (m.val (key i)) i))

/-- The value that a key has after the entries for it, if it has one. -/
def combined (combine : Option V → ι → V) (l : List ι) (start : Option V) : Option V :=
  l.foldl (fun o i => some (combine o i)) start

variable (key : ι → K) (combine : Option V → ι → V)

theorem upsert_val (m : GoMap K (Option V)) (i : ι) (a : K) :
    (upsert key combine m i).val a =
      if key i = a then some (combine (m.val a) i) else m.val a := by
  unfold upsert
  split
  · rename_i ha
    rw [← ha, GoMap.set_val_same]
  · rename_i ha
    exact m.set_val_of_ne _ (Ne.symm ha)

/-- A key sees only the entries for it. -/
theorem foldl_upsert_val (l : List ι) (m : GoMap K (Option V)) (a : K) :
    (l.foldl (upsert key combine) m).val a =
      combined combine (l.filter fun i => key i = a) (m.val a) := by
  induction l generalizing m with
  | nil => rfl
  | cons i l ih =>
    rw [List.foldl_cons, ih, upsert_val]
    by_cases ha : key i = a
    · simp [ha, combined]
    · simp [ha]

theorem mem_foldl_upsert_keys (l : List ι) (m : GoMap K (Option V)) (a : K) :
    a ∈ (l.foldl (upsert key combine) m).keys ↔ a ∈ m.keys ∨ ∃ i ∈ l, key i = a := by
  induction l generalizing m with
  | nil => simp
  | cons i l ih =>
    rw [List.foldl_cons, ih, upsert, GoMap.mem_set_keys, List.exists_mem_cons_iff, eq_comm]
    tauto

theorem nodup_foldl_upsert_keys (l : List ι) {m : GoMap K (Option V)} (h : m.keys.Nodup) :
    (l.foldl (upsert key combine) m).keys.Nodup := by
  induction l generalizing m with
  | nil => exact h
  | cons i l ih => exact ih (GoMap.nodup_set_keys h _ _)

/-- Entries with distinct keys are alone under their keys. -/
theorem filter_key_eq_singleton {l : List ι} (h : (l.map key).Nodup) {i : ι} (hi : i ∈ l) :
    (l.filter fun j => key j = key i) = [i] := by
  induction l with
  | nil => simp at hi
  | cons j l ih =>
    rw [List.map_cons, List.nodup_cons] at h
    rcases List.mem_cons.mp hi with rfl | hi
    · have hnone : l.filter (fun j => key j = key i) = [] := by
        rw [List.filter_eq_nil_iff]
        intro j hj
        rw [decide_eq_true_eq]
        exact fun heq => h.1 (heq ▸ List.mem_map_of_mem hj)
      rw [List.filter_cons_of_pos (by simp), hnone]
    · have hne : key j ≠ key i := fun heq => h.1 (heq ▸ List.mem_map_of_mem hi)
      rw [List.filter_cons_of_neg (by simp [hne]), ih h.2 hi]

theorem foldl_upsert_val_of_mem {l : List ι} (h : (l.map key).Nodup) {i : ι} (hi : i ∈ l)
    (m : GoMap K (Option V)) :
    (l.foldl (upsert key combine) m).val (key i) = some (combine (m.val (key i)) i) := by
  rw [foldl_upsert_val, filter_key_eq_singleton key h hi]
  rfl

variable {combine}

theorem combined_isSome {l : List ι} {start : Option V} :
    (combined combine l start).isSome ↔ l ≠ [] ∨ start.isSome := by
  induction l generalizing start with
  | nil => simp [combined]
  | cons i l ih =>
    have hrec : combined combine (i :: l) start = combined combine l (some (combine start i)) := rfl
    rw [hrec, ih]
    simp

end Arcturus.Upserts
