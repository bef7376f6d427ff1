import Mathlib.Data.List.Basic

/-!
Byte strings read as UTF-8 and split at white space. A byte that starts no valid sequence
stands for itself, so every byte string can be read. A byte below 128 is never part of a
longer sequence, so reading can start again behind it.
-/

namespace Arcturus.ByteFields

/-- `unicode.IsSpace`. -/
def isSpace (r : ℕ) : Bool :=
  9 ≤ r && r ≤ 13 || 0x2000 ≤ r && r ≤ 0x200a ||
    [0x20, 0x85, 0xa0, 0x1680, 0x2028, 0x2029, 0x202f, 0x205f, 0x3000].contains r

/-- What the first byte of a sequence says: how many bytes follow, the bits that it contributes,
and the range of the byte behind it. -/
structure Lead where
  size : ℕ
  bits : ℕ
  low : ℕ
  high : ℕ

def lead (b : ℕ) : Option Lead :=
  if b < 0xc2 then none
  else if b < 0xe0 then some ⟨1, b % 32, 0x80, 0xbf⟩
  else if b = 0xe0 then some ⟨2, b % 16, 0xa0, 0xbf⟩
  else if b = 0xed then some ⟨2, b % 16, 0x80, 0x9f⟩
  else if b < 0xf0 then some ⟨2, b % 16, 0x80, 0xbf⟩
  else if b = 0xf0 then some ⟨3, b % 8, 0x90, 0xbf⟩
  else if b < 0xf4 then some ⟨3, b % 8, 0x80, 0xbf⟩
  else if b = 0xf4 then some ⟨3, b % 8, 0x80, 0x8f⟩
  else none

def continues (b : UInt8) : Bool := 0x80 ≤ b.toNat && b.toNat ≤ 0xbf

/-- `utf8.DecodeRune` on a byte and what follows it: the code and the number of bytes used
behind the first; `none` where the sequence is not valid. -/
def decode (b : UInt8) (s : List UInt8) : Option (ℕ × ℕ) :=
  if b.toNat < 0x80 then some (b.toNat, 0)
  else
    (lead b.toNat).bind fun l =>
      let tail := s.take l.size
      if tail.length = l.size ∧ tail.all continues ∧
          tail.head?.all fun c => l.low ≤ c.toNat && c.toNat ≤ l.high then
        some (tail.foldl (fun r c => 64 * r + c.toNat % 64) l.bits, l.size)
      else none

/-- A code, unless the bytes are not valid, and its bytes. -/
structure Rune where
  code : Option ℕ
  bytes : List UInt8

def Rune.isSpace (r : Rune) : Bool := r.code.any ByteFields.isSpace

/-- The runes of a string, as a range loop goes through them. -/
def runes : List UInt8 → List Rune
  | [] => []
  | b :: s =>
    let r := decode b s
    let used := r.elim 0 Prod.snd
    ⟨r.map Prod.fst, b :: s.take used⟩ :: runes (s.drop used)
termination_by s => s.length
decreasing_by
  rw [List.length_cons, List.length_drop]
  omega

/-- `strings.Fields`. -/
def fields (s : List UInt8) : List (List UInt8) :=
  (((runes s).splitOnP Rune.isSpace).map fun f => f.flatMap Rune.bytes).filter (· ≠ [])

section Runes

variable {b : UInt8} {s t : List UInt8}

theorem decode_used_le : (decode b s).elim 0 Prod.snd ≤ s.length := by
  unfold decode
  split
  · exact Nat.zero_le _
  · cases lead b.toNat with
    | none => exact Nat.zero_le _
    | some l =>
      dsimp only [Option.bind_some]
      split_ifs with h
      · have hlen := h.1
        rw [List.length_take] at hlen
        change l.size ≤ s.length
        omega
      · exact Nat.zero_le _

theorem decode_ascii (hb : b.toNat < 0x80) : decode b s = some (b.toNat, 0) := if_pos hb

/-- A byte below 128 ends every sequence, complete or not. -/
theorem decode_append {c : UInt8} (hc : c.toNat < 0x80) :
    decode b (s ++ c :: t) = decode b s := by
  unfold decode
  split
  · rfl
  · cases lead b.toNat with
    | none => rfl
    | some l =>
      dsimp only [Option.bind_some]
      rcases Nat.lt_or_ge s.length l.size with hlt | hle
      · have hmem : c ∈ (s ++ c :: t).take l.size := by
          rw [List.take_append, List.mem_append]
          obtain ⟨k, hk⟩ : ∃ k, l.size - s.length = k + 1 := ⟨l.size - s.length - 1, by omega⟩
          rw [hk, List.take_succ_cons]
          exact Or.inr List.mem_cons_self
        have hall : ¬ ((s ++ c :: t).take l.size).all continues = true := by
          intro hall
          have hcont := List.all_eq_true.mp hall c hmem
          simp only [continues, Bool.and_eq_true, decide_eq_true_eq] at hcont
          omega
        have hlen : ¬ (s.take l.size).length = l.size := by
          rw [List.length_take]
          omega
        rw [if_neg fun h => hall h.2.1, if_neg fun h => hlen h.1]
      · rw [List.take_append_of_le_length hle]

theorem runes_cons {c : UInt8} (hc : c.toNat < 0x80) :
    runes (c :: t) = ⟨some c.toNat, [c]⟩ :: runes t := by
  rw [runes, decode_ascii hc]
  rfl

theorem runes_append {c : UInt8} (hc : c.toNat < 0x80) (s t : List UInt8) :
    runes (s ++ c :: t) = runes s ++ ⟨some c.toNat, [c]⟩ :: runes t := by
  fun_induction runes s with
  | case1 => rw [List.nil_append, runes_cons hc, List.nil_append]
  | case2 b s r used ih =>
    have hused : used ≤ s.length := decode_used_le
    rw [List.cons_append, runes, decode_append hc, List.take_append_of_le_length hused,
      List.drop_append_of_le_length hused, ih]
    rfl

theorem flatMap_runes (s : List UInt8) : (runes s).flatMap Rune.bytes = s := by
  fun_induction runes s with
  | case1 => rfl
  | case2 b s r used ih => rw [List.flatMap_cons, ih, List.cons_append, List.take_append_drop]

end Runes

/-- The bytes of a text. -/
def encode (s : List Char) : List UInt8 := s.flatMap String.utf8EncodeChar

section Fields

variable {f t : List UInt8} {sep : UInt8}

/-- A field that is not split. -/
structure Word (f : List UInt8) : Prop where
  ne_nil : f ≠ []
  solid : ∀ r ∈ runes f, r.isSpace = false

theorem word_of_ascii (hne : f ≠ [])
    (h : ∀ c ∈ f, c.toNat < 0x80 ∧ isSpace c.toNat = false) : Word f := by
  refine ⟨hne, ?_⟩
  clear hne
  induction f with
  | nil => simp [runes]
  | cons c f ih =>
    obtain ⟨⟨hascii, hspace⟩, hrest⟩ := List.forall_mem_cons.mp h
    rw [runes_cons hascii]
    exact List.forall_mem_cons.mpr ⟨hspace, ih hrest⟩

theorem fields_word (hf : Word f) : fields f = [f] := by
  rw [fields, List.splitOnP_eq_singleton hf.solid]
  simp [flatMap_runes, hf.ne_nil]

theorem fields_word_append (hf : Word f) (hascii : sep.toNat < 0x80)
    (hsep : isSpace sep.toNat = true) : fields (f ++ sep :: t) = f :: fields t := by
  have hrune : Rune.isSpace ⟨some sep.toNat, [sep]⟩ = true := hsep
  rw [fields, runes_append hascii,
    List.splitOnP_append_cons_of_forall_mem hf.solid _ hrune]
  simp [flatMap_runes, hf.ne_nil, fields]

theorem fields_space (hascii : sep.toNat < 0x80) (hsep : isSpace sep.toNat = true) :
    fields (sep :: t) = fields t := by
  have hrune : Rune.isSpace ⟨some sep.toNat, [sep]⟩ = true := hsep
  rw [fields, runes_cons hascii, List.splitOnP_cons_eq_if_modifyHead, if_pos hrune]
  simp [fields]

theorem fields_blank {blank : List UInt8}
    (h : ∀ c ∈ blank, c.toNat < 0x80 ∧ isSpace c.toNat = true) : fields blank = [] := by
  induction blank with
  | nil => simp [fields, runes]
  | cons c blank ih =>
    obtain ⟨⟨hascii, hsep⟩, hrest⟩ := List.forall_mem_cons.mp h
    rw [fields_space hascii hsep, ih hrest]

/-- Words with single spaces between them, and white space behind them. -/
theorem fields_intercalate {fs : List (List UInt8)} {blank : List UInt8}
    (hfs : ∀ f ∈ fs, Word f)
    (hblank : ∀ c ∈ blank, c.toNat < 0x80 ∧ isSpace c.toNat = true) :
    fields (List.intercalate [32] fs ++ blank) = fs := by
  induction fs with
  | nil => simpa using fields_blank hblank
  | cons f fs ih =>
    obtain ⟨hf, hrest⟩ := List.forall_mem_cons.mp hfs
    cases fs with
    | nil =>
      rw [List.intercalate_singleton]
      cases blank with
      | nil => rw [List.append_nil, fields_word hf]
      | cons c blank =>
        obtain ⟨⟨hascii, hsep⟩, hblank⟩ := List.forall_mem_cons.mp hblank
        rw [fields_word_append hf hascii hsep, fields_blank hblank]
    | cons g fs =>
      rw [List.intercalate_cons_cons, List.append_assoc, List.append_assoc, List.singleton_append,
        fields_word_append hf (by decide) (by decide), ih hrest]

end Fields

end Arcturus.ByteFields
