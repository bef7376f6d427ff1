import Arcturus.GoStrings
import Mathlib.Algebra.Group.Nat.Defs

/-!
Addresses and ports in text form: dotted IPv4 addresses as thirty-two bit words,
the port after a colon, and the `host:port` form of an origin. The IPv6 forms that
`net.ParseIP` reads as well are left out.
-/

namespace Arcturus.Addresses

open GoStrings

/-- One decimal field of an address: no empty field, no leading zero, at most 255. -/
def parseOctet (field : String) : Option ℕ :=
  let cs := field.toList
  if cs = [] ∨ ¬ cs.all Char.isDigit ∨ 1 < cs.length ∧ cs.head? = some '0' then none
  else
    let val := Nat.ofDigitChars 10 cs 0
    if val > 255 then none else some val

/-- The address that `net.ParseIP` and `To4` give for a dotted string. -/
def hopIPToNet (ipStr : String) : Option UInt32 :=
  match (split ipStr ".").map parseOctet with
  | [some a, some b, some c, some d] =>
    some (UInt32.ofNat (a * 256 ^ 3 + b * 256 ^ 2 + c * 256 + d))
  | _ => none

/-- The four bytes of an address, most significant first. -/
def octets (ip : UInt32) : List ℕ :=
  [ip.toNat / 256 ^ 3 % 256, ip.toNat / 256 ^ 2 % 256, ip.toNat / 256 % 256, ip.toNat % 256]

/-- The text form of an address. -/
def ipString (ip : UInt32) : String := join ((octets ip).map toString) "."

def joinHostPort (host port : String) : String :=
  if Contains host ":" ∨ Contains host "%" then "[" ++ host ++ "]:" ++ port
  else host ++ ":" ++ port

/-- The digits of `strconv.ParseUint(s, 10, 16)` from the left; the error value is
ignored by the callers, so a bad character gives zero and too large a number the
largest one. -/
def parseUintLoop : ℕ → List Char → ℕ
  | n, [] => n
  | n, c :: cs =>
    if ¬ c.isDigit then 0
    else
      let n1 := n * 10 + (c.toNat - '0'.toNat)
      if n1 > 65535 then 65535 else parseUintLoop n1 cs

def parseUint16 (s : String) : UInt16 := UInt16.ofNat (parseUintLoop 0 s.toList)

theorem parseOctet_toString {n : ℕ} (h : n < 256) : parseOctet (toString n) = some n := by
  have hall : ∀ n : Fin 256, parseOctet (toString n.val) = some n.val := by decide +kernel
  exact hall ⟨n, h⟩

theorem isDigit_toString {n : ℕ} {c : Char} (h : c ∈ (toString n).toList) : c.isDigit = true := by
  rw [Nat.toString_eq_ofList_toDigits, String.toList_ofList] at h
  exact Nat.isDigit_of_mem_toDigits (by decide) (by decide) h

theorem contains_singleton_iff {s sub : String} {c : Char} (h : sub.toList = [c]) :
    Contains s sub ↔ c ∈ s.toList := by
  unfold Contains
  rw [h, List.singleton_infix_iff]

theorem not_contains_toString (n : ℕ) {sub : String} {c : Char} (h : sub.toList = [c])
    (hdigit : c.isDigit = false) : ¬ Contains (toString n) sub := by
  rw [contains_singleton_iff h]
  intro hc
  rw [isDigit_toString hc] at hdigit
  exact absurd hdigit (by decide)

theorem octets_lt (ip : UInt32) : ∀ n ∈ octets ip, n < 256 := by
  intro n hn
  simp only [octets, List.mem_cons, List.not_mem_nil, or_false] at hn
  rcases hn with rfl | rfl | rfl | rfl <;> exact Nat.mod_lt _ (by decide)

theorem dot_borderFree : BorderFree ".".toList := borderFree_singleton '.'

theorem colon_borderFree : BorderFree ":".toList := borderFree_singleton ':'

theorem comma_borderFree : BorderFree ",".toList := borderFree_singleton ','

/-- The text form of an address is read back as the same address. -/
theorem hopIPToNet_ipString (ip : UInt32) : hopIPToNet (ipString ip) = some ip := by
  have hsplit : split (ipString ip) "." = (octets ip).map toString := by
    apply split_join dot_borderFree _ (by simp [octets])
    intro p hp
    obtain ⟨n, -, rfl⟩ := List.mem_map.mp hp
    exact not_contains_toString n rfl rfl
  have hparse : ((octets ip).map toString).map parseOctet = (octets ip).map some := by
    rw [List.map_map]
    apply List.map_congr_left
    intro n hn
    exact parseOctet_toString (octets_lt ip n hn)
  have hsum : ip.toNat / 256 ^ 3 % 256 * 256 ^ 3 + ip.toNat / 256 ^ 2 % 256 * 256 ^ 2 +
      ip.toNat / 256 % 256 * 256 + ip.toNat % 256 = ip.toNat := by
    have hlt := ip.toNat_lt
    omega
  unfold hopIPToNet
  rw [hsplit, hparse]
  simp only [octets, List.map_cons, List.map_nil, hsum]
  rw [UInt32.ofNat_toNat]

theorem ipString_injective {a b : UInt32} (h : ipString a = ipString b) : a = b := by
  have heq := congrArg hopIPToNet h
  rw [hopIPToNet_ipString, hopIPToNet_ipString] at heq
  exact Option.some.inj heq

theorem ipString_eq_zero_iff {ip : UInt32} : ipString ip = "0.0.0.0" ↔ ip = 0 := by
  have hzero : ipString 0 = "0.0.0.0" := by decide +kernel
  constructor
  · intro h
    exact ipString_injective (h.trans hzero.symm)
  · intro heq
    subst heq
    exact hzero

theorem le_ofDigitChars (cs : List Char) (n : ℕ) : n ≤ Nat.ofDigitChars 10 cs n := by
  induction cs generalizing n with
  | nil => exact le_rfl
  | cons c cs ih =>
    rw [Nat.ofDigitChars_cons]
    have := ih (10 * n + (c.toNat - '0'.toNat))
    omega

/-- On the digits of a number of sixteen bits the loop does not stop early. -/
theorem parseUintLoop_eq {cs : List Char} (hdigits : ∀ c ∈ cs, c.isDigit = true) {n : ℕ}
    (h : Nat.ofDigitChars 10 cs n ≤ 65535) : parseUintLoop n cs = Nat.ofDigitChars 10 cs n := by
  induction cs generalizing n with
  | nil => rfl
  | cons c cs ih =>
    have hlow := le_ofDigitChars cs (10 * n + (c.toNat - '0'.toNat))
    rw [Nat.ofDigitChars_cons] at h ⊢
    unfold parseUintLoop
    rw [if_neg (by simp [hdigits c (List.mem_cons_self ..)]), Nat.mul_comm n 10]
    simp only
    rw [if_neg (by omega), ih (fun d hd => hdigits d (List.mem_cons_of_mem _ hd)) h]

theorem parseUint16_toString (port : UInt16) : parseUint16 (toString port.toNat) = port := by
  have hval : Nat.ofDigitChars 10 (toString port.toNat).toList 0 = port.toNat := by simp
  have hlt := port.toNat_lt
  rw [parseUint16, parseUintLoop_eq (fun _ hc => isDigit_toString hc) (by omega), hval,
    UInt16.ofNat_toNat]

theorem mem_ipString {ip : UInt32} {c : Char} (h : c ∈ (ipString ip).toList) :
    c.isDigit = true ∨ c = '.' := by
  have hdot : ".".toList = ['.'] := rfl
  unfold ipString at h
  rw [join, String.toList_intercalate, hdot] at h
  simp only [octets, List.map_cons, List.map_nil, List.intercalate_cons_cons,
    List.intercalate_singleton, List.mem_append, List.mem_singleton, or_assoc] at h
  rcases h with h | h | h | h | h | h | h
  all_goals first | exact Or.inr h | exact Or.inl (isDigit_toString h)

theorem not_contains_ipString (ip : UInt32) {sub : String} {c : Char} (h : sub.toList = [c])
    (hdigit : c.isDigit = false) (hdot : c ≠ '.') : ¬ Contains (ipString ip) sub := by
  rw [contains_singleton_iff h]
  intro hc
  rcases mem_ipString hc with hc | hc
  · rw [hdigit] at hc
    exact absurd hc (by decide)
  · exact hdot hc

theorem ipString_no_colon (ip : UInt32) : ¬ Contains (ipString ip) ":" :=
  not_contains_ipString ip rfl rfl (by decide)

theorem ipString_no_comma (ip : UInt32) : ¬ Contains (ipString ip) "," :=
  not_contains_ipString ip rfl rfl (by decide)

theorem toString_no_colon (n : ℕ) : ¬ Contains (toString n) ":" :=
  not_contains_toString n rfl rfl

theorem joinHostPort_ipString (ip : UInt32) (port : String) :
    joinHostPort (ipString ip) port = ipString ip ++ ":" ++ port := by
  have hpercent : ¬ Contains (ipString ip) "%" := not_contains_ipString ip rfl rfl (by decide)
  unfold joinHostPort
  rw [if_neg fun h => h.elim (ipString_no_colon ip) hpercent]

/-- Cutting `ip:port` at its colon gives the two parts. -/
theorem split_hostPort (ip : UInt32) (port : ℕ) :
    split (ipString ip ++ ":" ++ toString port) ":" = [ipString ip, toString port] := by
  have hjoin : ipString ip ++ ":" ++ toString port = join [ipString ip, toString port] ":" := rfl
  rw [hjoin]
  apply split_join colon_borderFree _ (by simp)
  intro p hp
  rcases List.mem_pair.mp hp with rfl | rfl
  · exact ipString_no_colon ip
  · exact toString_no_colon port

end Arcturus.Addresses
