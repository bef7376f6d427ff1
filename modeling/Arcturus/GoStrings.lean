import Mathlib.Data.List.Infix

/-!
Joining and splitting of strings at a separator text. Splitting scans from the
left and cuts at every occurrence of the separator. Joined parts are recovered
when no part contains the separator and the separator does not overlap itself.
-/

namespace Arcturus.GoStrings

/-- The characters of one separator still to be skipped, the part read so far
in reverse, and the text still to be scanned. -/
def splitChars (sep : List Char) : ℕ → List Char → List Char → List (List Char)
  | _, part, [] => [part.reverse]
  | skip + 1, part, _ :: cs => splitChars sep skip part cs
  | 0, part, c :: cs =>
    if sep <+: c :: cs then part.reverse :: splitChars sep (sep.length - 1) [] cs
    else splitChars sep 0 (c :: part) cs

/-- Go's `strings.Split` for a non-empty separator. -/
def split (s sep : String) : List String :=
  (splitChars sep.toList 0 [] s.toList).map String.ofList

/-- Go's `strings.Join`. -/
def join (parts : List String) (sep : String) : String := String.intercalate sep parts

/-- Go's `strings.Contains`. -/
def Contains (s sub : String) : Prop := sub.toList <:+: s.toList

instance (s sub : String) : Decidable (Contains s sub) :=
  inferInstanceAs (Decidable (sub.toList <:+: s.toList))

/-- No proper nonempty prefix of the separator is one of its suffixes. -/
def BorderFree (sep : List Char) : Prop :=
  sep ≠ [] ∧ ∀ t, t ≠ [] → t ≠ sep → t <+: sep → ¬ t <:+ sep

theorem splitChars_skip (sep part rest : List Char) (lead : List Char) :
    splitChars sep lead.length part (lead ++ rest) = splitChars sep 0 part rest := by
  induction lead with
  | nil => rfl
  | cons c cs ih => exact ih

/-- A separator occurrence cannot begin inside a part that does not contain it. -/
theorem not_prefix_of_part {sep part : List Char} (rest : List Char) (hb : BorderFree sep)
    (hpart : ¬ sep <:+: part) (hne : part ≠ []) : ¬ sep <+: part ++ sep ++ rest := by
  intro hpre
  rcases Nat.le_total sep.length part.length with hle | hge
  · have hin : sep <+: part := by
      rw [List.append_assoc] at hpre
      exact List.prefix_of_prefix_length_le hpre (List.prefix_append _ _) hle
    exact hpart hin.isInfix
  · have hcover : part <+: sep := by
      rw [List.append_assoc] at hpre
      exact List.prefix_of_prefix_length_le (List.prefix_append _ _) hpre hge
    obtain ⟨t, ht⟩ := hcover
    have htne : t ≠ [] := by
      rintro rfl
      rw [List.append_nil] at ht
      exact hpart (ht ▸ List.infix_refl _)
    have htsep : t ≠ sep := by
      intro he
      have hlen := congrArg List.length ht
      rw [List.length_append, he] at hlen
      exact hne (List.length_eq_zero_iff.mp (by omega))
    have hprefix : t <+: sep ++ rest := by
      have hcancel : part ++ t <+: part ++ (sep ++ rest) := by
        rw [ht, ← List.append_assoc]
        exact hpre
      exact (List.prefix_append_right_inj part).mp hcancel
    have hshort : t.length ≤ sep.length := by
      rw [← ht, List.length_append]
      omega
    exact hb.2 t htne htsep
      (List.prefix_of_prefix_length_le hprefix (List.prefix_append _ _) hshort)
      ⟨part, ht⟩

theorem splitChars_part {sep : List Char} (hb : BorderFree sep) (part rest acc : List Char)
    (hpart : ¬ sep <:+: part) :
    splitChars sep 0 acc (part ++ sep ++ rest) =
      (acc.reverse ++ part) :: splitChars sep 0 [] rest := by
  induction part generalizing acc with
  | nil =>
    obtain ⟨c, cs, hsep⟩ := List.exists_cons_of_ne_nil hb.1
    have hpre : sep <+: c :: (cs ++ rest) := by
      rw [← List.cons_append, ← hsep]
      exact List.prefix_append _ _
    have hskip : sep.length - 1 = cs.length := by simp [hsep]
    have hstart : ([] : List Char) ++ sep ++ rest = c :: (cs ++ rest) := by simp [hsep]
    rw [hstart, splitChars, if_pos hpre, hskip, splitChars_skip, List.append_nil]
  | cons c cs ih =>
    have hno := not_prefix_of_part rest hb hpart (List.cons_ne_nil c cs)
    have htail : ¬ sep <:+: cs := fun h => hpart (h.trans (List.suffix_cons c cs).isInfix)
    have hstart : c :: cs ++ sep ++ rest = c :: (cs ++ sep ++ rest) := rfl
    rw [hstart] at hno ⊢
    rw [splitChars, if_neg hno, ih (c :: acc) htail]
    simp

theorem splitChars_last {sep : List Char} (part acc : List Char) (hpart : ¬ sep <:+: part) :
    splitChars sep 0 acc part = [acc.reverse ++ part] := by
  induction part generalizing acc with
  | nil => simp [splitChars]
  | cons c cs ih =>
    have hno : ¬ sep <+: c :: cs := fun h => hpart h.isInfix
    have htail : ¬ sep <:+: cs := fun h => hpart (h.trans (List.suffix_cons c cs).isInfix)
    rw [splitChars, if_neg hno, ih (c :: acc) htail]
    simp

theorem splitChars_intercalate {sep : List Char} (hb : BorderFree sep)
    (parts : List (List Char)) (hne : parts ≠ []) (hparts : ∀ p ∈ parts, ¬ sep <:+: p) :
    splitChars sep 0 [] (sep.intercalate parts) = parts := by
  induction parts with
  | nil => exact absurd rfl hne
  | cons p ps ih =>
    cases ps with
    | nil =>
      rw [List.intercalate_singleton, splitChars_last p [] (hparts p (by simp))]
      rfl
    | cons q qs =>
      rw [List.intercalate_cons_cons, splitChars_part hb p _ [] (hparts p (by simp)),
        ih (by simp) (fun r hr => hparts r (List.mem_cons_of_mem _ hr))]
      rfl

/-- Splitting what was joined gives back the parts. -/
theorem split_join {sep : String} (hb : BorderFree sep.toList) (parts : List String)
    (hne : parts ≠ []) (hparts : ∀ p ∈ parts, ¬ Contains p sep) :
    split (join parts sep) sep = parts := by
  have hmap : ∀ p ∈ parts.map String.toList, ¬ sep.toList <:+: p := by
    intro p hp
    obtain ⟨q, hq, rfl⟩ := List.mem_map.mp hp
    exact hparts q hq
  rw [split, join, String.toList_intercalate,
    splitChars_intercalate hb _ (by simpa using hne) hmap]
  simp

theorem join_injective {sep : String} (hb : BorderFree sep.toList) {l m : List String}
    (hl : l ≠ []) (hm : m ≠ []) (hls : ∀ p ∈ l, ¬ Contains p sep)
    (hms : ∀ p ∈ m, ¬ Contains p sep) (h : join l sep = join m sep) : l = m := by
  rw [← split_join hb l hl hls, ← split_join hb m hm hms, h]

theorem borderFree_singleton (c : Char) : BorderFree [c] := by
  refine ⟨by simp, ?_⟩
  intro t hne hself hpre
  rcases List.prefix_cons_iff.mp hpre with rfl | ⟨u, rfl, hu⟩
  · exact absurd rfl hne
  · rw [List.prefix_nil.mp hu] at hself
    exact absurd rfl hself

theorem borderFree_pair {c d : Char} (h : c ≠ d) : BorderFree [c, d] := by
  refine ⟨by simp, ?_⟩
  intro t hne hself hpre hsuf
  rcases List.prefix_cons_iff.mp hpre with rfl | ⟨u, rfl, hu⟩
  · exact hne rfl
  · rcases List.prefix_cons_iff.mp hu with rfl | ⟨v, rfl, hv⟩
    · obtain ⟨s, hs⟩ := hsuf
      have hlast := congrArg List.getLast? hs
      simp only [List.getLast?_append, List.getLast?_singleton] at hlast
      exact h (by simpa using hlast)
    · rw [List.prefix_nil.mp hv] at hself
      exact hself rfl

end Arcturus.GoStrings
