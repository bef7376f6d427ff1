import Arcturus.ByteFields
import Mathlib.Algebra.Order.Ring.Int
import Mathlib.Data.List.GetD

/-!
`/proc/[pid]/stat` as bytes. The name of a process stands in parentheses in front of the
counters and may hold any bytes, parentheses and white space too. The fields are counted from
the last closing parenthesis, so the name has no influence on them.
-/

namespace Arcturus.ProcStat

open ByteFields

inductive ParseFailure where
  | invalidSyntax
  | outOfRange
  deriving DecidableEq, Repr

/-- `*strconv.NumError` of `ParseUint`. -/
structure NumError where
  num : List UInt8
  err : ParseFailure
  deriving DecidableEq, Repr

inductive StatError where
  | text (msg : String)
  | number (e : NumError)
  deriving DecidableEq, Repr

/-- The smallest number that does not fit after one more digit. -/
def cutoff : UInt64 := 1844674407370955162

def parseUintLoop (s : List UInt8) : UInt64 → List UInt8 → Except NumError UInt64
  | n, [] => .ok n
  | n, c :: cs =>
    if 48 ≤ c.toNat ∧ c.toNat ≤ 57 then
      if n ≥ cutoff then .error ⟨s, .outOfRange⟩
      else
        let n1 := n * 10 + UInt64.ofNat (c.toNat - 48)
        if n1 < n * 10 then .error ⟨s, .outOfRange⟩ else parseUintLoop s n1 cs
    else .error ⟨s, .invalidSyntax⟩

/-- `strconv.ParseUint` with base 10 and sixty-four bits. -/
def parseUint (s : List UInt8) : Except NumError UInt64 :=
  if s = [] then .error ⟨s, .invalidSyntax⟩ else parseUintLoop s 0 s

def closeParen : UInt8 := 41

def lastIndex (s : List UInt8) (b : UInt8) : Option ℕ :=
  (s.reverse.idxOf? b).map fun i => s.length - 1 - i

/-- The result is `none` where the slice behind the parenthesis panics. -/
def readProcStat (pid : ℤ) :
    Except String (List UInt8) → Option (Except StatError (UInt64 × UInt64))
  | .error e => some (.error (.text e))
  | .ok s =>
    match lastIndex s closeParen with
    | none => some (.error (.text s!"malformed /proc/{pid}/stat"))
    | some i =>
      if s.length < i + 2 then none
      else
        let fs := fields (s.drop (i + 2))
        if fs.length < 13 then some (.error (.text s!"too few fields in /proc/{pid}/stat"))
        else some do
          let utime ← (parseUint (fs.getD 11 [])).mapError .number
          let stime ← (parseUint (fs.getD 12 [])).mapError .number
          return (utime, stime)

section Numbers

variable {s cs : List UInt8} {n v : UInt64}

def value (n : ℕ) (s : List UInt8) : ℕ := s.foldl (fun n c => 10 * n + (c.toNat - 48)) n

/-- The text is the decimal form of an unsigned number of sixty-four bits, with any number of
leading zeros. -/
structure Numeral (s : List UInt8) (v : UInt64) : Prop where
  ne_nil : s ≠ []
  digits : ∀ c ∈ s, 48 ≤ c.toNat ∧ c.toNat ≤ 57
  value : v.toNat = value 0 s

theorem Numeral.unique {w : UInt64} (hv : Numeral s v) (hw : Numeral s w) : v = w :=
  UInt64.toNat_inj.mp (hv.value.trans hw.value.symm)

theorem le_value (n : ℕ) (s : List UInt8) : n ≤ value n s := by
  induction s generalizing n with
  | nil => exact le_rfl
  | cons c s ih => exact le_trans (by omega) (ih (10 * n + (c.toNat - 48)))

theorem toNat_append_digit {d : ℕ} (hd : d ≤ 9) :
    (n * 10 + UInt64.ofNat d).toNat = (n.toNat * 10 % 2 ^ 64 + d) % 2 ^ 64 := by
  have hten : (n * 10).toNat = n.toNat * 10 % 2 ^ 64 := UInt64.toNat_mul ..
  have hdigit : (UInt64.ofNat d).toNat = d := UInt64.toNat_ofNat_of_lt' (show _ < 2 ^ 64 by omega)
  rw [UInt64.toNat_add, hten, hdigit]

/-- The two tests of the loop together say whether one more digit fits: below the cutoff only the
sum can wrap, not the product. -/
theorem overflows_iff {d : ℕ} (hd : d ≤ 9) :
    n ≥ cutoff ∨ n * 10 + UInt64.ofNat d < n * 10 ↔ 2 ^ 64 ≤ 10 * n.toNat + d := by
  have hten : (n * 10).toNat = n.toNat * 10 % 2 ^ 64 := UInt64.toNat_mul ..
  have hcutoff : cutoff.toNat = 1844674407370955162 := rfl
  rw [ge_iff_le, UInt64.le_iff_toNat_le, UInt64.lt_iff_toNat_lt, toNat_append_digit hd, hten,
    hcutoff]
  omega

theorem parseUintLoop_cons {c : UInt8} (hc : 48 ≤ c.toNat ∧ c.toNat ≤ 57) :
    parseUintLoop s n (c :: cs) =
      if 2 ^ 64 ≤ 10 * n.toNat + (c.toNat - 48) then .error ⟨s, .outOfRange⟩
      else parseUintLoop s (n * 10 + UInt64.ofNat (c.toNat - 48)) cs := by
  rw [← if_congr (overflows_iff (show c.toNat - 48 ≤ 9 by omega)) rfl rfl, parseUintLoop,
    if_pos hc, ite_or]

theorem parseUintLoop_ok_iff : parseUintLoop s n cs = .ok v ↔
    (∀ c ∈ cs, 48 ≤ c.toNat ∧ c.toNat ≤ 57) ∧ v.toNat = value n.toNat cs := by
  induction cs generalizing n with
  | nil => simp [parseUintLoop, value, UInt64.toNat_inj, eq_comm]
  | cons c cs ih =>
    have hstep : value n.toNat (c :: cs) = value (10 * n.toNat + (c.toNat - 48)) cs := rfl
    rw [List.forall_mem_cons, hstep]
    by_cases hdigit : 48 ≤ c.toNat ∧ c.toNat ≤ 57
    · rw [parseUintLoop_cons hdigit]
      split_ifs with hover
      · have hv := v.toNat_lt
        have hle := le_value (10 * n.toNat + (c.toNat - 48)) cs
        simp only [false_iff, not_and]
        intro _
        omega
      · have hfits : (n * 10 + UInt64.ofNat (c.toNat - 48)).toNat =
            10 * n.toNat + (c.toNat - 48) := by
          rw [toNat_append_digit (by omega)]
          omega
        rw [ih, hfits]
        simp [hdigit]
    · rw [parseUintLoop, if_neg hdigit]
      simp [hdigit]

theorem parseUint_ok_iff : parseUint s = .ok v ↔ Numeral s v := by
  unfold parseUint
  split_ifs with h
  · rw [false_iff]
    exact fun hnum => hnum.ne_nil h
  · rw [parseUintLoop_ok_iff]
    exact ⟨fun hok => ⟨h, hok.1, hok.2⟩, fun hnum => ⟨hnum.digits, hnum.value⟩⟩

/-- The two counters are read if both fields are numbers, and otherwise there is an error. -/
theorem counters_cases (utime stime : List UInt8) :
    let res : Except StatError (UInt64 × UInt64) := do
      let u ← (parseUint utime).mapError .number
      let s ← (parseUint stime).mapError .number
      return (u, s)
    (∃ u s, Numeral utime u ∧ Numeral stime s ∧ res = .ok (u, s)) ∨
      ((¬ ∃ u s, Numeral utime u ∧ Numeral stime s) ∧ ∃ e, res = .error e) := by
  cases hu : parseUint utime with
  | error e =>
    refine Or.inr ⟨?_, .number e, rfl⟩
    rintro ⟨u, s, hnum, -⟩
    rw [parseUint_ok_iff.mpr hnum] at hu
    cases hu
  | ok u =>
    cases hs : parseUint stime with
    | error e =>
      refine Or.inr ⟨?_, .number e, rfl⟩
      rintro ⟨u, s, -, hnum⟩
      rw [parseUint_ok_iff.mpr hnum] at hs
      cases hs
    | ok s => exact Or.inl ⟨u, s, parseUint_ok_iff.mp hu, parseUint_ok_iff.mp hs, rfl⟩

end Numbers

section Lines

variable {a after : List UInt8}

theorem idxOf?_append {b : UInt8} (h : b ∉ a) : (a ++ b :: after).idxOf? b = some a.length := by
  induction a with
  | nil => simp [List.idxOf?_cons]
  | cons c a ih =>
    rw [List.mem_cons, not_or] at h
    obtain ⟨hne, hrest⟩ := h
    rw [List.cons_append, List.idxOf?_cons, if_neg (by simpa using Ne.symm hne), ih hrest]
    rfl

theorem lastIndex_append (h : closeParen ∉ after) :
    lastIndex (a ++ closeParen :: after) closeParen = some a.length := by
  have hreverse : (a ++ closeParen :: after).reverse =
      after.reverse ++ closeParen :: a.reverse := by simp
  rw [lastIndex, hreverse, idxOf?_append (mt List.mem_reverse.mp h), Option.map_some,
    List.length_append, List.length_cons, List.length_reverse]
  congr 1
  omega

theorem not_mem_intercalate {b sep : UInt8} {fs : List (List UInt8)} (hsep : b ≠ sep)
    (h : ∀ f ∈ fs, b ∉ f) : b ∉ List.intercalate [sep] fs := by
  induction fs with
  | nil => exact List.not_mem_nil
  | cons f fs ih =>
    obtain ⟨hf, hrest⟩ := List.forall_mem_cons.mp h
    cases fs with
    | nil => rwa [List.intercalate_singleton]
    | cons g fs =>
      rw [List.intercalate_cons_cons, List.mem_append, List.mem_append, List.mem_singleton]
      rintro ((hmem | heq) | hmem)
      · exact hf hmem
      · exact hsep heq
      · exact ih hrest hmem

/-- Only what follows the last closing parenthesis and one more byte is read. -/
theorem readProcStat_append (pid : ℤ) (b : UInt8) (h : closeParen ∉ b :: after) :
    readProcStat pid (.ok (a ++ closeParen :: b :: after)) =
      if (fields after).length < 13 then
        some (.error (.text s!"too few fields in /proc/{pid}/stat"))
      else some do
        let utime ← (parseUint ((fields after).getD 11 [])).mapError .number
        let stime ← (parseUint ((fields after).getD 12 [])).mapError .number
        return (utime, stime) := by
  have hdrop : (a ++ closeParen :: b :: after).drop (a.length + 2) = after := by
    rw [List.drop_append, List.drop_eq_nil_of_le (by omega), Nat.add_sub_cancel_left]
    rfl
  have hlen : ¬ (a ++ closeParen :: b :: after).length < a.length + 2 := by
    simp only [List.length_append, List.length_cons]
    omega
  simp only [readProcStat, lastIndex_append h, hdrop, if_neg hlen]

/-- A line as the kernel writes it, from the third field on given by the list. -/
def statLine (pidText name : List UInt8) (fs : List (List UInt8)) (blank : List UInt8) :
    List UInt8 :=
  pidText ++ [32, 40] ++ name ++ [closeParen, 32] ++ List.intercalate [32] fs ++ blank

theorem readProcStat_statLine (pid : ℤ) (pidText name : List UInt8) (fs : List (List UInt8))
    (blank : List UInt8) (hcount : 15 ≤ fs.length + 2)
    (hfs : ∀ f ∈ fs, Word f ∧ closeParen ∉ f)
    (hblank : ∀ c ∈ blank, c.toNat < 0x80 ∧ isSpace c.toNat = true) :
    (∃ u s, Numeral (fs.getD 11 []) u ∧ Numeral (fs.getD 12 []) s ∧
      readProcStat pid (.ok (statLine pidText name fs blank)) = some (.ok (u, s))) ∨
    ((¬ ∃ u s, Numeral (fs.getD 11 []) u ∧ Numeral (fs.getD 12 []) s) ∧
      ∃ e, readProcStat pid (.ok (statLine pidText name fs blank)) = some (.error e)) := by
  have hfields := fields_intercalate (fun f hf => (hfs f hf).1) hblank
  have hline : statLine pidText name fs blank =
      (pidText ++ [32, 40] ++ name) ++ closeParen :: 32 :: (List.intercalate [32] fs ++ blank) := by
    simp [statLine]
  have hnone : closeParen ∉ 32 :: (List.intercalate [32] fs ++ blank) := by
    rw [List.mem_cons, List.mem_append, not_or, not_or]
    refine ⟨by decide, not_mem_intercalate (by decide) fun f hf => (hfs f hf).2, fun hmem => ?_⟩
    exact absurd (hblank _ hmem).2 (by decide)
  have hrun := readProcStat_append (a := pidText ++ [32, 40] ++ name) pid 32 hnone
  rw [hfields, ← hline, if_neg (show ¬ fs.length < 13 by omega)] at hrun
  rw [hrun]
  rcases counters_cases (fs.getD 11 []) (fs.getD 12 []) with ⟨u, s, hu, hs, hres⟩ | ⟨hnum, e, hres⟩
  · exact Or.inl ⟨u, s, hu, hs, congrArg some hres⟩
  · exact Or.inr ⟨hnum, e, congrArg some hres⟩

def sampleFields : List (List UInt8) :=
  ["S", "1", "7", "7", "0", "-1", "256", "9", "0", "0", "0", "120", "30"].map fun s =>
    encode s.toList

theorem sampleFields_words : ∀ f ∈ sampleFields, Word f ∧ closeParen ∉ f := by
  have hall : ∀ f ∈ sampleFields, (f ≠ [] ∧ ∀ c ∈ f, c.toNat < 0x80 ∧ isSpace c.toNat = false) ∧
      closeParen ∉ f := by
    decide +kernel
  exact fun f hf => ⟨word_of_ascii (hall f hf).1.1 (hall f hf).1.2, (hall f hf).2⟩

/-- A process that calls itself `) R 1 2 3`. -/
theorem sampleLine_read :
    readProcStat 7 (.ok (statLine [55] (encode ") R 1 2 3".toList) sampleFields [10])) =
      some (.ok (120, 30)) := by
  have hu : Numeral (sampleFields.getD 11 []) 120 := parseUint_ok_iff.mp (by decide +kernel)
  have hs : Numeral (sampleFields.getD 12 []) 30 := parseUint_ok_iff.mp (by decide +kernel)
  rcases readProcStat_statLine 7 [55] (encode ") R 1 2 3".toList) sampleFields [10]
    (by decide +kernel) sampleFields_words (by decide +kernel) with
    ⟨u, s, hu', hs', hrun⟩ | ⟨hnone, -⟩
  · rw [hrun, hu'.unique hu, hs'.unique hs]
  · exact absurd ⟨120, 30, hu, hs⟩ hnone

end Lines

end Arcturus.ProcStat
