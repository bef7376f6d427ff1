import Arcturus.JsonTokens

/-!
The texts of JSON values. The reader takes a value from the front of a text and leaves the
rest; blanks may stand between the parts of a value. The writer sets no blanks, and what it
writes is read back.
-/

namespace Arcturus.JsonText

open JsonTokens

inductive Json where
  | null
  | bool (b : Bool)
  | num (n : Number)
  | str (s : String)
  | arr (vs : List Json)
  | obj (ms : List (String × Json))

def isBlank (c : Char) : Bool := c = ' ' || c = '\t' || c = '\n' || c = '\r'

def skip (cs : List Char) : List Char := cs.dropWhile isBlank

/-- The rest behind a word. -/
def expect (word cs : List Char) : Option (List Char) :=
  if word <+: cs then some (cs.drop word.length) else none

mutual

/-- A value at the front of a text. -/
def readValue : ℕ → List Char → Option (Json × List Char)
  | 0, _ => none
  | n + 1, cs =>
    match skip cs with
    | [] => none
    | c :: cs =>
      if c = 'n' then (expect ['u', 'l', 'l'] cs).map fun rest => (.null, rest)
      else if c = 't' then (expect ['r', 'u', 'e'] cs).map fun rest => (.bool true, rest)
      else if c = 'f' then (expect ['a', 'l', 's', 'e'] cs).map fun rest => (.bool false, rest)
      else if c = '"' then (readString cs).map fun r => (.str r.1, r.2)
      else if c = '[' then
        match skip cs with
        | [] => none
        | d :: ds =>
          if d = ']' then some (.arr [], ds)
          else do
            let (v, rest) ← readValue n (d :: ds)
            let (vs, rest) ← readElements n rest
            return (.arr (v :: vs), rest)
      else if c = '\x7b' then
        match skip cs with
        | [] => none
        | d :: ds =>
          if d = '\x7d' then some (.obj [], ds)
          else do
            let (m, rest) ← readMember n (d :: ds)
            let (ms, rest) ← readMembers n rest
            return (.obj (m :: ms), rest)
      else (readNumber (c :: cs)).map fun r => (.num r.1, r.2)

/-- The elements of an array behind the first one. -/
def readElements : ℕ → List Char → Option (List Json × List Char)
  | 0, _ => none
  | n + 1, cs =>
    match skip cs with
    | [] => none
    | c :: cs =>
      if c = ']' then some ([], cs)
      else if c = ',' then do
        let (v, rest) ← readValue n cs
        let (vs, rest) ← readElements n rest
        return (v :: vs, rest)
      else none

def readMember : ℕ → List Char → Option ((String × Json) × List Char)
  | 0, _ => none
  | n + 1, cs =>
    match skip cs with
    | [] => none
    | c :: cs =>
      if c = '"' then do
        let (key, rest) ← readString cs
        let rest ← expect [':'] (skip rest)
        let (v, rest) ← readValue n rest
        return ((key, v), rest)
      else none

/-- The members of an object behind the first one. -/
def readMembers : ℕ → List Char → Option (List (String × Json) × List Char)
  | 0, _ => none
  | n + 1, cs =>
    match skip cs with
    | [] => none
    | c :: cs =>
      if c = '\x7d' then some ([], cs)
      else if c = ',' then do
        let (m, rest) ← readMember n cs
        let (ms, rest) ← readMembers n rest
        return (m :: ms, rest)
      else none

end

section Fuel

theorem length_skip_le (cs : List Char) : (skip cs).length ≤ cs.length :=
  List.length_dropWhile_le isBlank cs

theorem expect_length {word cs rest : List Char} (h : expect word cs = some rest) :
    rest.length ≤ cs.length := by
  unfold expect at h
  split at h
  · cases h
    rw [List.length_drop]
    omega
  · cases h

/-- What is read takes a character at least, and no more fuel than characters. -/
def Bounded {α : Type} (read : ℕ → List Char → Option (α × List Char)) (n : ℕ) : Prop :=
  ∀ cs a rest, read n cs = some (a, rest) →
    rest.length < cs.length ∧ ∀ m, cs.length ≤ m → read m cs = some (a, rest)

/-- One reader after the other. -/
def both {α β γ : Type} (k : α → β → γ) (f : ℕ → List Char → Option (α × List Char))
    (g : ℕ → List Char → Option (β × List Char)) (n : ℕ) (cs : List Char) :
    Option (γ × List Char) :=
  (f n cs).bind fun r => (g n r.2).bind fun q => some (k r.1 q.1, q.2)

theorem Bounded.both {α β γ : Type} {f : ℕ → List Char → Option (α × List Char)}
    {g : ℕ → List Char → Option (β × List Char)} {n : ℕ} (hf : Bounded f n) (hg : Bounded g n)
    (k : α → β → γ) : Bounded (both k f g) n := by
  intro cs a rest h
  obtain ⟨⟨x, rest₁⟩, hx, h⟩ := Option.bind_eq_some_iff.mp h
  obtain ⟨⟨y, rest₂⟩, hy, h⟩ := Option.bind_eq_some_iff.mp h
  dsimp only at h
  cases h
  obtain ⟨hlt, hmore⟩ := hf cs x rest₁ hx
  obtain ⟨hlt', hmore'⟩ := hg rest₁ y rest hy
  refine ⟨by omega, fun m hm => ?_⟩
  rw [JsonText.both, hmore m hm, Option.bind_some, hmore' m (by omega)]
  rfl

/-- A reader that looks at the first character behind the blanks. -/
theorem bounded_succ {α : Type} {read : ℕ → List Char → Option (α × List Char)}
    (body : ℕ → Char → List Char → Option (α × List Char)) {n : ℕ}
    (hread : ∀ n cs, read (n + 1) cs = match skip cs with
      | [] => none
      | c :: cs => body n c cs)
    (hbody : ∀ c cs a rest, body n c cs = some (a, rest) →
      rest.length ≤ cs.length ∧ ∀ m, cs.length ≤ m → body m c cs = some (a, rest)) :
    Bounded read (n + 1) := by
  intro cs a rest h
  rw [hread] at h
  have hskip := length_skip_le cs
  cases hcs : skip cs with
  | nil =>
    rw [hcs] at h
    cases h
  | cons c cs' =>
    rw [hcs] at h hskip
    obtain ⟨hle, hmore⟩ := hbody c cs' a rest h
    rw [List.length_cons] at hskip
    refine ⟨by omega, fun m hm => ?_⟩
    obtain ⟨m, rfl⟩ : ∃ m', m = m' + 1 := ⟨m - 1, by omega⟩
    rw [hread, hcs]
    exact hmore m (by omega)

variable {n : ℕ}

/-- What follows the first item of a list: items behind commas, up to the closing character. -/
theorem bounded_items {α : Type} {item : ℕ → List Char → Option (α × List Char)}
    {items : ℕ → List Char → Option (List α × List Char)} {close : Char}
    (hread : ∀ n cs, items (n + 1) cs = match skip cs with
      | [] => none
      | c :: cs => if c = close then some ([], cs)
        else if c = ',' then both List.cons item items n cs else none)
    (hitem : Bounded item n) (hitems : Bounded items n) : Bounded items (n + 1) := by
  refine bounded_succ _ hread ?_
  intro c cs a rest h
  split at h
  · rename_i hclose
    cases h
    exact ⟨le_rfl, fun _ _ => if_pos hclose⟩
  · rename_i hclose
    simp only [if_neg hclose]
    split at h
    · rename_i hcomma
      simp only [if_pos hcomma]
      exact (hitem.both hitems List.cons cs a rest h).imp_left le_of_lt
    · cases h

theorem bounded_readMember (hv : Bounded readValue n) : Bounded readMember (n + 1) := by
  refine bounded_succ (fun n c cs => if c = '"' then
      (readString cs).bind fun k => (expect [':'] (skip k.2)).bind fun rest =>
        (readValue n rest).bind fun r => some ((k.1, r.1), r.2)
    else none) (fun _ _ => by rw [readMember]; rfl) ?_
  intro c cs a rest h
  split at h
  · rename_i hquote
    obtain ⟨⟨key, rest₁⟩, hkey, h⟩ := Option.bind_eq_some_iff.mp h
    obtain ⟨rest₂, hcolon, h⟩ := Option.bind_eq_some_iff.mp h
    obtain ⟨⟨v, rest₃⟩, hvalue, h⟩ := Option.bind_eq_some_iff.mp h
    dsimp only at h
    cases h
    have hlt := readString_length hkey
    have hle := (expect_length hcolon).trans (length_skip_le rest₁)
    obtain ⟨hlt', hmore⟩ := hv rest₂ v rest hvalue
    refine ⟨by omega, fun m hm => ?_⟩
    simp only [if_pos hquote, hkey, Option.bind_some, hcolon, hmore m (by omega)]
  · cases h

/-- What stands between the brackets of an array or an object. -/
theorem bounded_brackets {α : Type} {item : ℕ → List Char → Option (α × List Char)}
    {items : ℕ → List Char → Option (List α × List Char)} (make : List α → Json) (close : Char)
    (hitem : Bounded item n) (hitems : Bounded items n) {cs rest : List Char} {v : Json}
    (h : (match skip cs with
      | [] => none
      | d :: ds => if d = close then some (make [], ds)
        else both (fun x xs => make (x :: xs)) item items n (d :: ds)) = some (v, rest)) :
    rest.length ≤ cs.length ∧ ∀ m, cs.length ≤ m → (match skip cs with
      | [] => none
      | d :: ds => if d = close then some (make [], ds)
        else both (fun x xs => make (x :: xs)) item items m (d :: ds)) = some (v, rest) := by
  have hskip := length_skip_le cs
  cases hcs : skip cs with
  | nil =>
    rw [hcs] at h
    cases h
  | cons d ds =>
    rw [hcs] at h hskip
    simp only at h ⊢
    split at h
    · rename_i hclose
      cases h
      rw [List.length_cons] at hskip
      exact ⟨by omega, fun m _ => if_pos hclose⟩
    · rename_i hclose
      simp only [if_neg hclose]
      obtain ⟨hlt, hmore⟩ := hitem.both hitems _ _ _ _ h
      exact ⟨by omega, fun m hm => hmore m (by omega)⟩

theorem bounded_readValue (hv : Bounded readValue n) (hvs : Bounded readElements n)
    (hm : Bounded readMember n) (hms : Bounded readMembers n) : Bounded readValue (n + 1) := by
  refine bounded_succ _ (fun _ _ => by rw [readValue]) ?_
  intro c cs v rest h
  have hword : ∀ word w, (expect word cs).map (fun rest => (w, rest)) = some (v, rest) →
      rest.length ≤ cs.length := by
    intro word w hw
    obtain ⟨rest', hrest, heq⟩ := Option.map_eq_some_iff.mp hw
    cases heq
    exact expect_length hrest
  by_cases hn : c = 'n'
  · simp only [if_pos hn] at h ⊢
    exact ⟨hword _ _ h, fun _ _ => h⟩
  by_cases ht : c = 't'
  · simp only [if_neg hn, if_pos ht] at h ⊢
    exact ⟨hword _ _ h, fun _ _ => h⟩
  by_cases hf : c = 'f'
  · simp only [if_neg hn, if_neg ht, if_pos hf] at h ⊢
    exact ⟨hword _ _ h, fun _ _ => h⟩
  by_cases hquote : c = '"'
  · simp only [if_neg hn, if_neg ht, if_neg hf, if_pos hquote] at h ⊢
    obtain ⟨r, hr, heq⟩ := Option.map_eq_some_iff.mp h
    cases heq
    exact ⟨(readString_length hr).le, fun _ _ => h⟩
  by_cases harray : c = '['
  · simp only [if_neg hn, if_neg ht, if_neg hf, if_neg hquote, if_pos harray] at h ⊢
    exact bounded_brackets .arr ']' hv hvs h
  by_cases hobject : c = '\x7b'
  · simp only [if_neg hn, if_neg ht, if_neg hf, if_neg hquote, if_neg harray, if_pos hobject] at h ⊢
    exact bounded_brackets .obj '\x7d' hm hms h
  simp only [if_neg hn, if_neg ht, if_neg hf, if_neg hquote, if_neg harray, if_neg hobject] at h ⊢
  obtain ⟨r, hr, heq⟩ := Option.map_eq_some_iff.mp h
  cases heq
  have hlt := readNumber_length hr
  rw [List.length_cons] at hlt
  exact ⟨by omega, fun _ _ => h⟩

/-- The induction is on the fuel, for all four readers together. -/
theorem bounded_readers (n : ℕ) : Bounded readValue n ∧ Bounded readElements n ∧
    Bounded readMember n ∧ Bounded readMembers n := by
  induction n with
  | zero =>
    refine ⟨?_, ?_, ?_, ?_⟩
    all_goals
      intro cs a rest h
      cases h
  | succ n ih =>
    obtain ⟨hv, hvs, hm, hms⟩ := ih
    exact ⟨bounded_readValue hv hvs hm hms,
      bounded_items (fun _ _ => by rw [readElements]; rfl) hv hvs, bounded_readMember hv,
      bounded_items (fun _ _ => by rw [readMembers]; rfl) hm hms⟩

end Fuel

/-- The value of a text, behind which only blanks may follow. -/
def parse (s : String) : Option Json :=
  match readValue s.toList.length s.toList with
  | none => none
  | some (v, rest) => if skip rest = [] then some v else none

/-- The first value of a text. -/
def parseFront (s : String) : Option Json :=
  (readValue s.toList.length s.toList).map Prod.fst

/-- The length of the text is fuel enough. -/
theorem readValue_length_eq_some {n : ℕ} {cs rest : List Char} {v : Json}
    (h : readValue n cs = some (v, rest)) : readValue cs.length cs = some (v, rest) :=
  ((bounded_readers n).1 cs v rest h).2 cs.length le_rfl

theorem parse_eq_some_iff {s : String} {v : Json} :
    parse s = some v ↔ ∃ n rest, readValue n s.toList = some (v, rest) ∧ skip rest = [] := by
  unfold parse
  constructor
  · intro h
    split at h
    · cases h
    · rename_i w rest hread
      split at h
      · rename_i hblank
        cases h
        exact ⟨_, rest, hread, hblank⟩
      · cases h
  · rintro ⟨n, rest, hread, hblank⟩
    rw [readValue_length_eq_some hread]
    exact if_pos hblank

mutual

def writeValue : Json → List Char
  | .null => ['n', 'u', 'l', 'l']
  | .bool true => ['t', 'r', 'u', 'e']
  | .bool false => ['f', 'a', 'l', 's', 'e']
  | .num n => writeNumber n
  | .str s => writeString s
  | .arr [] => ['[', ']']
  | .arr (v :: vs) => '[' :: (writeValue v ++ writeElements vs)
  | .obj [] => ['\x7b', '\x7d']
  | .obj ((key, v) :: ms) => '\x7b' :: (writeString key ++ (':' :: writeValue v ++ writeMembers ms))

def writeElements : List Json → List Char
  | [] => [']']
  | v :: vs => ',' :: (writeValue v ++ writeElements vs)

def writeMembers : List (String × Json) → List Char
  | [] => ['\x7d']
  | (key, v) :: ms => ',' :: (writeString key ++ (':' :: writeValue v ++ writeMembers ms))

end

def render (v : Json) : String := String.ofList (writeValue v)

theorem skip_cons {c : Char} (h : isBlank c = false) (cs : List Char) :
    skip (c :: cs) = c :: cs :=
  List.dropWhile_cons_of_neg (by simp [h])

theorem expect_append (word rest : List Char) : expect word (word ++ rest) = some rest := by
  rw [expect, if_pos (List.prefix_append _ _), List.drop_left]

/-- A written value begins with a character that is no blank and closes nothing. -/
theorem writeValue_cons (v : Json) :
    ∃ c cs, writeValue v = c :: cs ∧ isBlank c = false ∧ c ≠ ']' := by
  match v with
  | .null => exact ⟨_, _, writeValue.eq_1, by decide, by decide⟩
  | .bool true => exact ⟨_, _, writeValue.eq_2, by decide, by decide⟩
  | .bool false => exact ⟨_, _, writeValue.eq_3, by decide, by decide⟩
  | .num n =>
    obtain ⟨c, cs, hwrite, hc⟩ := writeNumber_cons n
    refine ⟨c, cs, by rw [writeValue, hwrite], ?_⟩
    rcases hc with rfl | hdigit
    · exact ⟨by decide, by decide⟩
    · have hblank : isBlank c = false := by
        simp [isBlank, isDigit_ne hdigit]
      exact ⟨hblank, isDigit_ne hdigit (by decide)⟩
  | .str s => exact ⟨_, _, writeValue.eq_5 .., by decide, by decide⟩
  | .arr [] => exact ⟨_, _, writeValue.eq_6, by decide, by decide⟩
  | .arr (v :: vs) => exact ⟨_, _, writeValue.eq_7 .., by decide, by decide⟩
  | .obj [] => exact ⟨_, _, writeValue.eq_8, by decide, by decide⟩
  | .obj ((key, v) :: ms) => exact ⟨_, _, writeValue.eq_9 .., by decide, by decide⟩

theorem ends_writeElements (vs : List Json) (rest : List Char) :
    Ends (writeElements vs ++ rest) := by
  cases vs with
  | nil => exact ends_cons (by decide) (by decide) _
  | cons v vs => exact ends_cons (by decide) (by decide) _

theorem ends_writeMembers (ms : List (String × Json)) (rest : List Char) :
    Ends (writeMembers ms ++ rest) := by
  cases ms with
  | nil => exact ends_cons (by decide) (by decide) _
  | cons m ms => exact ends_cons (by decide) (by decide) _

theorem readValue_number (n : Number) (fuel : ℕ) {rest : List Char} (hrest : Ends rest) :
    readValue (fuel + 1) (writeNumber n ++ rest) = some (.num n, rest) := by
  have hread := readNumber_append n hrest
  obtain ⟨c, cs, hwrite, hc⟩ := writeNumber_cons n
  rw [hwrite, List.cons_append] at hread ⊢
  have hother : ∀ d : Char, d.isDigit = false → d ≠ '-' → c ≠ d := by
    intro d hd hminus
    rcases hc with rfl | hdigit
    · exact hminus.symm
    · exact isDigit_ne hdigit hd
  have hblank : isBlank c = false := by
    simp [isBlank, hother]
  rw [readValue, skip_cons hblank]
  simp [hother, hread]

theorem readValue_array {v : Json} {vs : List Json} {n : ℕ} {rest : List Char}
    (hv : readValue n (writeValue v ++ (writeElements vs ++ rest)) =
      some (v, writeElements vs ++ rest))
    (hvs : readElements n (writeElements vs ++ rest) = some (vs, rest)) :
    readValue (n + 1) (writeValue (.arr (v :: vs)) ++ rest) = some (.arr (v :: vs), rest) := by
  obtain ⟨c, cs, hwrite, hblank, hc⟩ := writeValue_cons v
  rw [writeValue, List.cons_append, List.append_assoc, readValue, skip_cons (by decide)]
  rw [hwrite, List.cons_append] at hv ⊢
  simp [skip_cons hblank, hc, hv, hvs]

theorem readMember_append (key : String) {v : Json} {n : ℕ} {rest : List Char}
    (hv : readValue n (writeValue v ++ rest) = some (v, rest)) :
    readMember (n + 1) (writeString key ++ (':' :: writeValue v ++ rest)) =
      some ((key, v), rest) := by
  have hkey := readString_append key (':' :: (writeValue v ++ rest))
  have hcolon : expect [':'] (':' :: (writeValue v ++ rest)) = some (writeValue v ++ rest) :=
    expect_append [':'] _
  rw [writeString, List.cons_append, List.append_assoc, readMember, skip_cons (by decide)]
  simp [hkey, skip_cons (show isBlank ':' = false by decide), hcolon, hv]

theorem readValue_object {key : String} {v : Json} {ms : List (String × Json)} {n : ℕ}
    {rest : List Char}
    (hv : readValue n (writeValue v ++ (writeMembers ms ++ rest)) =
      some (v, writeMembers ms ++ rest))
    (hms : readMembers (n + 1) (writeMembers ms ++ rest) = some (ms, rest)) :
    readValue (n + 2) (writeValue (.obj ((key, v) :: ms)) ++ rest) =
      some (.obj ((key, v) :: ms), rest) := by
  have hmember := readMember_append key hv
  rw [writeValue, List.cons_append, readValue, skip_cons (by decide)]
  rw [writeString, List.cons_append] at hmember ⊢
  simp only [List.cons_append, List.nil_append, List.append_assoc] at hmember ⊢
  simp [skip_cons (show isBlank '"' = false by decide), hmember, hms]

mutual

/-- What is written is read back, whatever follows. -/
theorem readValue_append : ∀ (v : Json) (n : ℕ) (rest : List Char), (writeValue v).length ≤ n →
    Ends rest → readValue n (writeValue v ++ rest) = some (v, rest)
  | v, 0, rest, hn, _ => by
    obtain ⟨c, cs, hwrite, -⟩ := writeValue_cons v
    rw [hwrite] at hn
    simp at hn
  | .null, n + 1, rest, _, _ => rfl
  | .bool true, n + 1, rest, _, _ => rfl
  | .bool false, n + 1, rest, _, _ => rfl
  | .num m, n + 1, rest, _, hrest => readValue_number m n hrest
  | .str s, n + 1, rest, _, _ => by
    rw [writeValue, writeString, List.cons_append, List.append_assoc, readValue,
      skip_cons (by decide)]
    simp [readString_append]
  | .arr [], n + 1, rest, _, _ => rfl
  | .arr (v :: vs), n + 1, rest, hn, _ => by
    simp only [writeValue, List.length_cons, List.length_append] at hn
    exact readValue_array (readValue_append v n _ (by omega) (ends_writeElements vs rest))
      (readElements_append vs n rest (by omega))
  | .obj [], n + 1, rest, _, _ => rfl
  | .obj ((key, v) :: ms), 1, rest, hn, _ => by
    simp [writeValue] at hn
  | .obj ((key, v) :: ms), n + 2, rest, hn, _ => by
    simp only [writeValue, List.length_cons, List.length_append] at hn
    exact readValue_object (readValue_append v n _ (by omega) (ends_writeMembers ms rest))
      (readMembers_append ms (n + 1) rest (by omega))

theorem readElements_append : ∀ (vs : List Json) (n : ℕ) (rest : List Char),
    (writeElements vs).length ≤ n → readElements n (writeElements vs ++ rest) = some (vs, rest)
  | [], 0, rest, hn => by simp [writeElements] at hn
  | _ :: _, 0, rest, hn => by simp [writeElements] at hn
  | [], n + 1, rest, _ => rfl
  | v :: vs, n + 1, rest, hn => by
    simp only [writeElements, List.length_cons, List.length_append] at hn
    have hv := readValue_append v n _ (by omega) (ends_writeElements vs rest)
    have hvs := readElements_append vs n rest (by omega)
    rw [writeElements, List.cons_append, List.append_assoc, readElements, skip_cons (by decide)]
    simp [hv, hvs]

theorem readMembers_append : ∀ (ms : List (String × Json)) (n : ℕ) (rest : List Char),
    (writeMembers ms).length ≤ n → readMembers n (writeMembers ms ++ rest) = some (ms, rest)
  | [], 0, rest, hn => by simp [writeMembers] at hn
  | _ :: _, 0, rest, hn => by simp [writeMembers] at hn
  | [], n + 1, rest, _ => rfl
  | (key, v) :: ms, 1, rest, hn => by simp [writeMembers] at hn
  | (key, v) :: ms, n + 2, rest, hn => by
    simp only [writeMembers, List.length_cons, List.length_append] at hn
    have hv := readValue_append v n _ (by omega) (ends_writeMembers ms rest)
    have hm := readMember_append key hv
    have hms := readMembers_append ms (n + 1) rest (by omega)
    rw [writeMembers, List.cons_append, List.append_assoc, readMembers, skip_cons (by decide)]
    simp only [List.cons_append, List.append_assoc] at hm ⊢
    simp [hm, hms]

end

/-- A written value is read back. -/
theorem parse_render (v : Json) : parse (render v) = some v := by
  have hread := readValue_append v (writeValue v).length [] le_rfl ends_nil
  rw [List.append_nil] at hread
  refine parse_eq_some_iff.mpr ⟨(writeValue v).length, [], ?_, rfl⟩
  rw [render, String.toList_ofList, hread]

theorem render_ne_empty (v : Json) : render v ≠ "" := by
  obtain ⟨c, cs, hwrite, -⟩ := writeValue_cons v
  intro hempty
  have hnil := congrArg String.toList hempty
  rw [render, String.toList_ofList, hwrite] at hnil
  exact absurd hnil (List.cons_ne_nil c cs)

end Arcturus.JsonText
