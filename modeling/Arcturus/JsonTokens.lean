import Mathlib.Data.List.Basic
import Mathlib.Data.List.TakeWhile
import Mathlib.Data.Rat.Defs

/-!
The texts of the numbers and strings of JSON, as lists of characters. A reader takes one
from the front of a text and leaves the rest. The writer of strings escapes what Go's
encoder escapes. What is written is read back.
-/

namespace Arcturus.JsonTokens

/-- A number as it is written: the digits before and behind the point, and the exponent. -/
structure Number where
  neg : Bool
  int : ℕ
  frac : List (Fin 10)
  exp : Option ℤ

section Numbers

def digitOf (c : Char) : Fin 10 := Fin.ofNat 10 (c.toNat - 48)

def charOf (d : Fin 10) : Char := Nat.digitChar d

/-- The digits at the front of a text; there must be one. -/
def readDigits (cs : List Char) : Option (List Char × List Char) :=
  let ds := cs.takeWhile Char.isDigit
  if ds = [] then none else some (ds, cs.dropWhile Char.isDigit)

/-- A leading zero stands alone. -/
def readInt (cs : List Char) : Option (ℕ × List Char) :=
  if cs.head? = some '0' then some (0, cs.tail)
  else (readDigits cs).map fun r => (Nat.ofDigitChars 10 r.1 0, r.2)

def readFrac (cs : List Char) : Option (List (Fin 10) × List Char) :=
  if cs.head? = some '.' then (readDigits cs.tail).map fun r => (r.1.map digitOf, r.2)
  else some ([], cs)

/-- The sign of an exponent may be missing. -/
def readSign : List Char → Bool × List Char
  | [] => (false, [])
  | c :: cs => if c = '-' then (true, cs) else if c = '+' then (false, cs) else (false, c :: cs)

def readExp (cs : List Char) : Option (Option ℤ × List Char) :=
  if cs.head? = some 'e' ∨ cs.head? = some 'E' then
    let sign := readSign cs.tail
    (readDigits sign.2).map fun r =>
      let e : ℤ := Nat.ofDigitChars 10 r.1 0
      (some (if sign.1 then -e else e), r.2)
  else some (none, cs)

def readMinus : List Char → Bool × List Char
  | [] => (false, [])
  | c :: cs => if c = '-' then (true, cs) else (false, c :: cs)

def readNumber (cs : List Char) : Option (Number × List Char) := do
  let (int, rest) ← readInt (readMinus cs).2
  let (frac, rest) ← readFrac rest
  let (exp, rest) ← readExp rest
  return (⟨(readMinus cs).1, int, frac, exp⟩, rest)

def writeFrac (frac : List (Fin 10)) : List Char :=
  if frac = [] then [] else '.' :: frac.map charOf

def writeExp : Option ℤ → List Char
  | none => []
  | some e => 'e' :: (if e < 0 then '-' else '+') :: Nat.toDigits 10 e.natAbs

def writeNumber (n : Number) : List Char :=
  (if n.neg then ['-'] else []) ++ (Nat.toDigits 10 n.int ++ (writeFrac n.frac ++ writeExp n.exp))

/-- The text does not go on with a digit. -/
def NoDigit (cs : List Char) : Prop := ∀ c ∈ cs.head?, c.isDigit = false

/-- A number ends before this text. -/
def Ends (cs : List Char) : Prop := NoDigit cs ∧ ∀ c ∈ cs.head?, c ≠ '.' ∧ c ≠ 'e' ∧ c ≠ 'E'

theorem ends_nil : Ends [] := by simp [Ends, NoDigit]

theorem ends_cons {c : Char} (hdigit : c.isDigit = false) (hc : c ≠ '.' ∧ c ≠ 'e' ∧ c ≠ 'E')
    (cs : List Char) : Ends (c :: cs) := by
  simp only [Ends, NoDigit, List.head?_cons, Option.mem_some_iff, forall_eq']
  exact ⟨hdigit, hc⟩

theorem readDigits_append {ds cs : List Char} (hne : ds ≠ [])
    (hds : ∀ c ∈ ds, c.isDigit = true) (hcs : NoDigit cs) :
    readDigits (ds ++ cs) = some (ds, cs) := by
  have htake : cs.takeWhile Char.isDigit = [] := by
    cases cs with
    | nil => rfl
    | cons c cs => exact List.takeWhile_cons_of_neg (by simp [hcs c rfl])
  have hdrop : cs.dropWhile Char.isDigit = cs := by
    cases cs with
    | nil => rfl
    | cons c cs => exact List.dropWhile_cons_of_neg (by simp [hcs c rfl])
  unfold readDigits
  rw [List.takeWhile_append_of_pos hds, List.dropWhile_append_of_pos hds, htake, hdrop,
    List.append_nil]
  exact if_neg hne

theorem isDigit_toDigits (n : ℕ) : ∀ c ∈ Nat.toDigits 10 n, c.isDigit = true :=
  fun _ => Nat.isDigit_of_mem_toDigits (by decide) (by decide)

/-- Only zero is written with a zero in front. -/
theorem head?_toDigits {n : ℕ} (h : (Nat.toDigits 10 n).head? = some '0') : n = 0 := by
  induction n using Nat.strong_induction_on with
  | _ n ih =>
    by_cases hlt : n < 10
    · rw [Nat.toDigits_of_lt_base hlt, List.head?_cons, Option.some.injEq] at h
      exact (by decide : ∀ m < 10, Nat.digitChar m = '0' → m = 0) n hlt h
    · rw [Nat.toDigits_of_base_le (by decide) (by omega),
        List.head?_append_of_ne_nil _ Nat.toDigits_ne_nil] at h
      have hzero := ih (n / 10) (by omega) h
      omega

theorem readInt_append (n : ℕ) {cs : List Char} (hcs : NoDigit cs) :
    readInt (Nat.toDigits 10 n ++ cs) = some (n, cs) := by
  unfold readInt
  rw [List.head?_append_of_ne_nil _ Nat.toDigits_ne_nil]
  split
  · rename_i hzero
    rw [head?_toDigits hzero]
    rfl
  · rw [readDigits_append Nat.toDigits_ne_nil (isDigit_toDigits n) hcs, Option.map_some,
      Nat.ofDigitChars_toDigits (by decide) (by decide)]

theorem digitOf_charOf : ∀ d : Fin 10, digitOf (charOf d) = d := by decide

theorem isDigit_charOf : ∀ d : Fin 10, (charOf d).isDigit = true := by decide

theorem readFrac_append (frac : List (Fin 10)) {cs : List Char} (hcs : NoDigit cs)
    (hpoint : cs.head? ≠ some '.') : readFrac (writeFrac frac ++ cs) = some (frac, cs) := by
  unfold writeFrac readFrac
  split
  · rename_i hnil
    rw [List.nil_append, if_neg hpoint, hnil]
  · rename_i hne
    have hdigits : ∀ c ∈ frac.map charOf, c.isDigit = true := by
      intro c hc
      obtain ⟨d, -, rfl⟩ := List.mem_map.mp hc
      exact isDigit_charOf d
    rw [List.cons_append, List.head?_cons, if_pos rfl, List.tail_cons,
      readDigits_append (by simpa using hne) hdigits hcs, Option.map_some, List.map_map]
    have hback : digitOf ∘ charOf = id := funext digitOf_charOf
    rw [hback, List.map_id]

theorem readExp_append (exp : Option ℤ) {cs : List Char} (hcs : Ends cs) :
    readExp (writeExp exp ++ cs) = some (exp, cs) := by
  unfold readExp
  cases exp with
  | none =>
    have hno : ¬ (cs.head? = some 'e' ∨ cs.head? = some 'E') := by
      rintro (h | h)
      · exact (hcs.2 _ h).2.1 rfl
      · exact (hcs.2 _ h).2.2 rfl
    exact if_neg hno
  | some e =>
    have hdigits := readDigits_append Nat.toDigits_ne_nil (isDigit_toDigits e.natAbs) hcs.1
    simp only [writeExp, List.cons_append, List.head?_cons, true_or, if_true, List.tail_cons]
    by_cases he : e < 0
    · simp only [he, if_true, readSign, hdigits, Option.map_some,
        Nat.ofDigitChars_toDigits (show 1 < 10 by decide) (show 10 ≤ 10 by decide)]
      rw [Int.ofNat_natAbs_of_nonpos (by omega), Int.neg_neg]
    · simp only [he, if_false, readSign, hdigits, Option.map_some, Char.reduceEq, if_true,
        Nat.ofDigitChars_toDigits (show 1 < 10 by decide) (show 10 ≤ 10 by decide)]
      rw [Int.natAbs_of_nonneg (by omega)]
      rfl

theorem noDigit_cons {c : Char} (h : c.isDigit = false) (cs : List Char) : NoDigit (c :: cs) := by
  simpa [NoDigit] using h

/-- Behind the fraction the number goes on with an exponent or ends. -/
theorem noDigit_writeExp (exp : Option ℤ) {cs : List Char} (hcs : Ends cs) :
    NoDigit (writeExp exp ++ cs) ∧ (writeExp exp ++ cs).head? ≠ some '.' := by
  cases exp with
  | none => exact ⟨hcs.1, fun h => (hcs.2 _ h).1 rfl⟩
  | some e => exact ⟨noDigit_cons (by decide) _, by simp [writeExp]⟩

theorem noDigit_writeFrac (frac : List (Fin 10)) {cs : List Char} (hcs : NoDigit cs) :
    NoDigit (writeFrac frac ++ cs) := by
  unfold writeFrac
  split
  · exact hcs
  · exact noDigit_cons (by decide) _

theorem isDigit_ne {c d : Char} (hc : c.isDigit = true) (hd : d.isDigit = false) : c ≠ d := by
  rintro rfl
  rw [hc] at hd
  exact absurd hd (by decide)

/-- A natural number begins with a digit. -/
theorem toDigits_cons (n : ℕ) : ∃ c cs, Nat.toDigits 10 n = c :: cs ∧ c.isDigit = true := by
  obtain ⟨c, cs, hdigits⟩ := List.exists_cons_of_ne_nil (Nat.toDigits_ne_nil (n := n) (b := 10))
  exact ⟨c, cs, hdigits, isDigit_toDigits n c (hdigits ▸ List.mem_cons_self)⟩

theorem readMinus_append (neg : Bool) (n : ℕ) (cs : List Char) :
    readMinus ((if neg then ['-'] else []) ++ (Nat.toDigits 10 n ++ cs)) =
      (neg, Nat.toDigits 10 n ++ cs) := by
  cases neg with
  | true => rfl
  | false =>
    obtain ⟨c, ds, hdigits, hc⟩ := toDigits_cons n
    rw [hdigits]
    exact if_neg (isDigit_ne hc (by decide))

theorem readNumber_append (n : Number) {cs : List Char} (hcs : Ends cs) :
    readNumber (writeNumber n ++ cs) = some (n, cs) := by
  obtain ⟨hexp, hpoint⟩ := noDigit_writeExp n.exp hcs
  unfold readNumber writeNumber
  simp only [List.append_assoc]
  rw [readMinus_append, readInt_append n.int (noDigit_writeFrac n.frac hexp), Option.bind_eq_bind,
    Option.bind_some, readFrac_append n.frac hexp hpoint, Option.bind_eq_bind, Option.bind_some,
    readExp_append n.exp hcs]
  rfl

/-- A number begins with a sign or a digit. -/
theorem writeNumber_cons (n : Number) :
    ∃ c cs, writeNumber n = c :: cs ∧ (c = '-' ∨ c.isDigit = true) := by
  unfold writeNumber
  cases n.neg with
  | true => exact ⟨'-', _, rfl, Or.inl rfl⟩
  | false =>
    obtain ⟨c, cs, hdigits, hc⟩ := toDigits_cons n.int
    exact ⟨c, _, by rw [hdigits]; rfl, Or.inr hc⟩

theorem readDigits_length {cs ds rest : List Char} (h : readDigits cs = some (ds, rest)) :
    rest.length < cs.length := by
  unfold readDigits at h
  dsimp only at h
  split at h
  · cases h
  · rename_i hne
    cases h
    have hparts := List.takeWhile_append_dropWhile (p := Char.isDigit) (l := cs)
    have hlen := congrArg List.length hparts
    rw [List.length_append] at hlen
    have hpos := List.length_pos_of_ne_nil hne
    omega

theorem readInt_length {cs rest : List Char} {n : ℕ} (h : readInt cs = some (n, rest)) :
    rest.length < cs.length := by
  unfold readInt at h
  split at h
  · rename_i hzero
    cases h
    obtain ⟨c, cs, rfl⟩ := List.exists_cons_of_ne_nil (l := cs) (by rintro rfl; cases hzero)
    simp
  · obtain ⟨r, hr, heq⟩ := Option.map_eq_some_iff.mp h
    cases heq
    exact readDigits_length hr

theorem readFrac_length {cs rest : List Char} {frac : List (Fin 10)}
    (h : readFrac cs = some (frac, rest)) : rest.length ≤ cs.length := by
  unfold readFrac at h
  split at h
  · obtain ⟨r, hr, heq⟩ := Option.map_eq_some_iff.mp h
    cases heq
    have hlt := readDigits_length hr
    rw [List.length_tail] at hlt
    omega
  · cases h
    exact le_rfl

theorem readSign_length (cs : List Char) : (readSign cs).2.length ≤ cs.length := by
  cases cs with
  | nil => exact le_rfl
  | cons c cs =>
    rw [readSign]
    split
    · simp
    · split
      · simp
      · exact le_rfl

theorem readExp_length {cs rest : List Char} {exp : Option ℤ}
    (h : readExp cs = some (exp, rest)) : rest.length ≤ cs.length := by
  unfold readExp at h
  split at h
  · obtain ⟨r, hr, heq⟩ := Option.map_eq_some_iff.mp h
    cases heq
    have hlt := readDigits_length hr
    have hsign := readSign_length cs.tail
    rw [List.length_tail] at hsign
    omega
  · cases h
    exact le_rfl

theorem readMinus_length (cs : List Char) : (readMinus cs).2.length ≤ cs.length := by
  cases cs with
  | nil => exact le_rfl
  | cons c cs =>
    rw [readMinus]
    split
    · simp
    · exact le_rfl

theorem readNumber_length {cs rest : List Char} {n : Number} (h : readNumber cs = some (n, rest)) :
    rest.length < cs.length := by
  unfold readNumber at h
  obtain ⟨⟨int, rest₁⟩, hint, h⟩ := Option.bind_eq_some_iff.mp h
  obtain ⟨⟨frac, rest₂⟩, hfrac, h⟩ := Option.bind_eq_some_iff.mp h
  obtain ⟨⟨exp, rest₃⟩, hexp, h⟩ := Option.bind_eq_some_iff.mp h
  cases h
  have hminus := readMinus_length cs
  have hlt := readInt_length hint
  have hle := readFrac_length hfrac
  have hle' := readExp_length hexp
  omega

end Numbers

section Strings

/-- What a string is read as: characters, and codes of sixteen bits. -/
abbrev Piece := Char ⊕ ℕ

def hexValue (c : Char) : Option ℕ :=
  if '0' ≤ c ∧ c ≤ '9' then some (c.toNat - 48)
  else if 'a' ≤ c ∧ c ≤ 'f' then some (c.toNat - 87)
  else if 'A' ≤ c ∧ c ≤ 'F' then some (c.toNat - 55)
  else none

def hexCode (a b c d : Char) : Option ℕ := do
  return (((← hexValue a) * 16 + (← hexValue b)) * 16 + (← hexValue c)) * 16 + (← hexValue d)

/-- The character behind a backslash. -/
def unescape (c : Char) : Option Char :=
  if c = '"' ∨ c = '\\' ∨ c = '/' then some c
  else if c = 'b' then some '\x08'
  else if c = 'f' then some '\x0c'
  else if c = 'n' then some '\n'
  else if c = 'r' then some '\r'
  else if c = 't' then some '\t'
  else none

/-- The pieces up to the closing quotation mark. -/
def readPieces : List Char → Option (List Piece × List Char)
  | [] => none
  | '\\' :: 'u' :: a :: b :: c :: d :: cs => do
    let code ← hexCode a b c d
    let (ps, rest) ← readPieces cs
    return (.inr code :: ps, rest)
  | '\\' :: e :: cs => do
    let c ← unescape e
    let (ps, rest) ← readPieces cs
    return (.inl c :: ps, rest)
  | c :: cs =>
    if c = '"' then some ([], cs)
    else if c.toNat < 0x20 then none
    else do
      let (ps, rest) ← readPieces cs
      return (.inl c :: ps, rest)

/-- Half of a pair alone stands for no character. -/
def codeChar (code : ℕ) : Char :=
  if 0xd800 ≤ code ∧ code < 0xe000 then Char.ofNat 0xfffd else Char.ofNat code

/-- Two codes in a row may be the halves of one character. -/
def joinPieces : List Piece → List Char
  | [] => []
  | .inl c :: ps => c :: joinPieces ps
  | .inr hi :: .inr lo :: ps =>
    if (0xd800 ≤ hi ∧ hi < 0xdc00) ∧ 0xdc00 ≤ lo ∧ lo < 0xe000 then
      Char.ofNat (0x10000 + (hi - 0xd800) * 0x400 + (lo - 0xdc00)) :: joinPieces ps
    else codeChar hi :: joinPieces (.inr lo :: ps)
  | .inr code :: ps => codeChar code :: joinPieces ps

def readString (cs : List Char) : Option (String × List Char) :=
  (readPieces cs).map fun r => (String.ofList (joinPieces r.1), r.2)

/-- The character that stands behind a backslash for this one. -/
def shortEscape (c : Char) : Option Char :=
  if c = '"' ∨ c = '\\' then some c
  else if c = '\x08' then some 'b'
  else if c = '\x0c' then some 'f'
  else if c = '\n' then some 'n'
  else if c = '\r' then some 'r'
  else if c = '\t' then some 't'
  else none

/-- A character that is written by its code. -/
def isCoded (c : Char) : Bool :=
  c.toNat < 0x20 || c = '<' || c = '>' || c = '&' || c = ' ' || c = ' '

def writeChar (c : Char) : List Char :=
  match shortEscape c with
  | some e => ['\\', e]
  | none =>
    if isCoded c then
      ['\\', 'u', Nat.digitChar (c.toNat / 4096), Nat.digitChar (c.toNat / 256 % 16),
        Nat.digitChar (c.toNat / 16 % 16), Nat.digitChar (c.toNat % 16)]
    else [c]

def writeString (s : String) : List Char := '"' :: (s.toList.flatMap writeChar ++ ['"'])

/-- What a written character is read as. -/
def pieceOf (c : Char) : Piece :=
  if shortEscape c = none ∧ isCoded c then .inr c.toNat else .inl c

theorem unescape_of_shortEscape {c e : Char} (h : shortEscape c = some e) :
    unescape e = some c ∧ e ≠ 'u' := by
  unfold shortEscape at h
  split at h
  · rename_i hc
    cases Option.some.inj h
    rcases hc with rfl | rfl
    · decide
    · decide
  repeat' split at h
  all_goals cases h
  all_goals subst_vars
  all_goals decide

theorem hexValue_digitChar : ∀ d < 16, hexValue (Nat.digitChar d) = some d := by decide

theorem hexCode_digits {n : ℕ} (h : n < 65536) :
    hexCode (Nat.digitChar (n / 4096)) (Nat.digitChar (n / 256 % 16))
      (Nat.digitChar (n / 16 % 16)) (Nat.digitChar (n % 16)) = some n := by
  unfold hexCode
  rw [hexValue_digitChar _ (by omega), hexValue_digitChar _ (by omega),
    hexValue_digitChar _ (by omega), hexValue_digitChar _ (by omega)]
  have hvalue : ((n / 4096 * 16 + n / 256 % 16) * 16 + n / 16 % 16) * 16 + n % 16 = n := by omega
  simpa using hvalue

theorem toNat_lt_of_isCoded {c : Char} (h : isCoded c = true) : c.toNat < 65536 := by
  simp only [isCoded, Bool.or_eq_true, decide_eq_true_eq] at h
  rcases h with (((((h | rfl) | rfl) | rfl) | rfl) | rfl)
  · omega
  all_goals decide

theorem readPieces_escape {e : Char} (h : e ≠ 'u') (cs : List Char) :
    readPieces ('\\' :: e :: cs) = do
      let c ← unescape e
      let (ps, rest) ← readPieces cs
      return (.inl c :: ps, rest) := by
  rw [readPieces.eq_3]
  intro a b c d cs he
  exact absurd he h

theorem readPieces_plain {c : Char} (hback : c ≠ '\\') (hquote : c ≠ '"') (hcode : 0x20 ≤ c.toNat)
    (cs : List Char) :
    readPieces (c :: cs) = (readPieces cs).map fun r => (.inl c :: r.1, r.2) := by
  rw [readPieces.eq_4, if_neg hquote, if_neg (by omega)]
  · cases readPieces cs with
    | none => rfl
    | some r => rfl
  · intro a b c d cs hc
    exact absurd hc hback
  · intro e cs hc
    exact absurd hc hback

/-- A written character is one piece. -/
theorem readPieces_writeChar (c : Char) (cs : List Char) :
    readPieces (writeChar c ++ cs) =
      (readPieces cs).map fun r => (pieceOf c :: r.1, r.2) := by
  unfold writeChar pieceOf
  cases hshort : shortEscape c with
  | some e =>
    obtain ⟨he, hu⟩ := unescape_of_shortEscape hshort
    simp only [List.cons_append, List.nil_append, reduceCtorEq, false_and, if_false]
    rw [readPieces_escape hu, he]
    cases readPieces cs with
    | none => rfl
    | some r => rfl
  | none =>
    cases hcoded : isCoded c with
    | true =>
      simp only [List.cons_append, List.nil_append, if_true, true_and]
      rw [readPieces.eq_2, hexCode_digits (toNat_lt_of_isCoded hcoded)]
      cases readPieces cs with
      | none => rfl
      | some r => rfl
    | false =>
      simp only [isCoded, Bool.or_eq_false_iff, decide_eq_false_iff_not] at hcoded
      have hplain : c ≠ '"' ∧ c ≠ '\\' := by
        constructor
        · rintro rfl
          exact absurd hshort (by decide)
        · rintro rfl
          exact absurd hshort (by decide)
      simp only [List.cons_append, List.nil_append, Bool.false_eq_true, if_false, and_false]
      exact readPieces_plain hplain.2 hplain.1 (by omega) cs

theorem readPieces_append (cs rest : List Char) :
    readPieces (cs.flatMap writeChar ++ '"' :: rest) = some (cs.map pieceOf, rest) := by
  induction cs with
  | nil =>
    rw [List.flatMap_nil, List.nil_append, readPieces.eq_4, if_pos rfl]
    · rfl
    · intro a b c d cs hc
      exact absurd hc (by decide)
    · intro e cs hc
      exact absurd hc (by decide)
  | cons c cs ih =>
    rw [List.flatMap_cons, List.append_assoc, readPieces_writeChar, ih]
    rfl

/-- No character is half of a pair. -/
theorem not_surrogate (c : Char) : ¬ (0xd800 ≤ c.toNat ∧ c.toNat < 0xe000) := by
  have hvalid := c.valid
  simp only [UInt32.isValidChar, Nat.isValidChar] at hvalid
  unfold Char.toNat
  omega

theorem codeChar_toNat (c : Char) : codeChar c.toNat = c := by
  unfold codeChar
  rw [if_neg (not_surrogate c), Char.ofNat_toNat]

theorem joinPieces_inr (c : Char) (ps : List Piece) :
    joinPieces (.inr c.toNat :: ps) = c :: joinPieces ps := by
  match ps with
  | [] => simp [joinPieces, codeChar_toNat]
  | .inl d :: ps => simp [joinPieces, codeChar_toNat]
  | .inr lo :: ps =>
    have hsingle := not_surrogate c
    rw [joinPieces, if_neg (by omega), codeChar_toNat]

theorem joinPieces_map (cs : List Char) : joinPieces (cs.map pieceOf) = cs := by
  induction cs with
  | nil => rfl
  | cons c cs ih =>
    rw [List.map_cons, pieceOf]
    split
    · rw [joinPieces_inr, ih]
    · rw [joinPieces, ih]

theorem readString_append (s : String) (rest : List Char) :
    readString (s.toList.flatMap writeChar ++ '"' :: rest) = some (s, rest) := by
  rw [readString, readPieces_append, Option.map_some, joinPieces_map, String.ofList_toList]

theorem readPieces_length {cs rest : List Char} {ps : List Piece}
    (h : readPieces cs = some (ps, rest)) : rest.length < cs.length := by
  induction cs using readPieces.induct generalizing ps rest with
  | case1 => cases h
  | case2 a b c d cs ih =>
    rw [readPieces.eq_2] at h
    obtain ⟨code, -, h⟩ := Option.bind_eq_some_iff.mp h
    obtain ⟨⟨ps', rest'⟩, hread, h⟩ := Option.bind_eq_some_iff.mp h
    cases h
    have hlt := ih hread
    simp only [List.length_cons]
    omega
  | case3 e cs hu ih =>
    rw [readPieces.eq_3 e cs hu] at h
    obtain ⟨c, -, h⟩ := Option.bind_eq_some_iff.mp h
    obtain ⟨⟨ps', rest'⟩, hread, h⟩ := Option.bind_eq_some_iff.mp h
    cases h
    have hlt := ih hread
    simp only [List.length_cons]
    omega
  | case4 cs hu he =>
    rw [readPieces.eq_4 _ _ hu he, if_pos rfl] at h
    cases h
    exact Nat.lt_succ_self _
  | case5 c cs hu he hquote hcode =>
    rw [readPieces.eq_4 _ _ hu he, if_neg hquote, if_pos hcode] at h
    cases h
  | case6 c cs hu he hquote hcode ih =>
    rw [readPieces.eq_4 _ _ hu he, if_neg hquote, if_neg hcode] at h
    obtain ⟨⟨ps', rest'⟩, hread, h⟩ := Option.bind_eq_some_iff.mp h
    cases h
    exact (ih hread).trans (Nat.lt_succ_self _)

theorem readString_length {cs rest : List Char} {s : String}
    (h : readString cs = some (s, rest)) : rest.length < cs.length := by
  obtain ⟨r, hr, heq⟩ := Option.map_eq_some_iff.mp h
  cases heq
  exact readPieces_length hr

end Strings

end Arcturus.JsonTokens
