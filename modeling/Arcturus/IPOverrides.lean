import Arcturus.GoMaps

/-!
The place of an address, with the overrides of the operator. A range loop over the table
takes the first key that is a prefix of the address, so that which override is used depends
on the order of the loop unless all of them that match say the same. Texts that are compared
byte by byte are lists of bytes. Log records are left out.
-/

namespace Arcturus.IPOverrides

open GoMaps

structure IPOverride where
  country : String
  continent : String
  province : String
  city : String
  deriving DecidableEq, Repr, Inhabited

abbrev Overrides := GoMap (List UInt8) IPOverride

/-- What the database has for an address. -/
structure DbRecord where
  countryShort : String
  region : String
  city : String
  deriving DecidableEq, Repr

structure IPInfoResult where
  ip : List UInt8
  country : String
  continent : String
  province : String
  city : String
  deriving DecidableEq, Repr

/-- `order` is the order of the range loop, which is only reached without an exact match. -/
def findIPOverride (ipOverrides : Overrides) (order : ipOverrides.Range) (ip : List UInt8) :
    Option IPOverride :=
  if ip ∈ ipOverrides.keys then some (ipOverrides.val ip)
  else (order.keys.find? fun key => key.isPrefixOf ip).map ipOverrides.val

/-- Only fields that are not empty override. -/
def IPOverride.apply (ov : IPOverride) (result : IPInfoResult) : IPInfoResult :=
  { result with
    country := if ov.country ≠ "" then ov.country else result.country
    continent := if ov.continent ≠ "" then ov.continent else result.continent
    province := if ov.province ≠ "" then ov.province else result.province
    city := if ov.city ≠ "" then ov.city else result.city }

/-- The place of an address as the database has it. -/
def DbRecord.info (res : DbRecord) (getContinentByCountry : String → String) (ip : List UInt8) :
    IPInfoResult where
  ip := ip
  country := res.countryShort
  continent := getContinentByCountry res.countryShort
  province := res.region
  city := res.city

/-- The database may not have been opened. -/
def getIPInfo (ipDb : Option (List UInt8 → Except String DbRecord))
    (getContinentByCountry : String → String) (ipOverrides : Overrides)
    (order : ipOverrides.Range) (ip : List UInt8) : Except String IPInfoResult :=
  match ipDb with
  | none => .error "ipDb is nil"
  | some getAll => do
    let res ← getAll ip
    match findIPOverride ipOverrides order ip with
    | some ov => return ov.apply (res.info getContinentByCountry ip)
    | none => return res.info getContinentByCountry ip

section Lookup
variable {table : Overrides} {ip key : List UInt8} {order : table.Range}

/-- A key of the table that the address begins with. -/
def Matches (table : Overrides) (ip key : List UInt8) : Prop := key ∈ table.keys ∧ key <+: ip

/-- No longer key matches. -/
def Longest (table : Overrides) (ip key : List UInt8) : Prop :=
  Matches table ip key ∧ ∀ other, Matches table ip other → other.length ≤ key.length

theorem findIPOverride_exact (h : ip ∈ table.keys) (order : table.Range) :
    findIPOverride table order ip = some (table.val ip) := if_pos h

/-- The loop takes the override of some key that matches. -/
theorem findIPOverride_matches {ov : IPOverride} (hip : ip ∉ table.keys)
    (h : findIPOverride table order ip = some ov) :
    ∃ key, Matches table ip key ∧ table.val key = ov := by
  rw [findIPOverride, if_neg hip, Option.map_eq_some_iff] at h
  obtain ⟨key, hfind, hval⟩ := h
  have hmem := order.perm.mem_iff.mp (List.mem_of_find?_eq_some hfind)
  have hpre := List.find?_some (p := fun key => List.isPrefixOf key ip) hfind
  exact ⟨key, ⟨hmem, List.isPrefixOf_iff_prefix.mp hpre⟩, hval⟩

theorem findIPOverride_eq_none_iff (order : table.Range) :
    findIPOverride table order ip = none ↔ ∀ key, ¬ Matches table ip key := by
  by_cases hip : ip ∈ table.keys
  · rw [findIPOverride_exact hip]
    refine iff_of_false (Option.some_ne_none _) fun hnone => ?_
    exact hnone ip ⟨hip, List.prefix_refl ip⟩
  · rw [findIPOverride, if_neg hip, Option.map_eq_none_iff, List.find?_eq_none]
    simp only [order.perm.mem_iff, List.isPrefixOf_iff_prefix, Matches, not_and]

/-- Each key that matches is the one taken in some order. -/
theorem exists_order (hip : ip ∉ table.keys) (h : Matches table ip key) :
    ∃ order, findIPOverride table order ip = some (table.val key) := by
  refine ⟨table.rangeFrom h.1, ?_⟩
  have hfirst : key.isPrefixOf ip = true := List.isPrefixOf_iff_prefix.mpr h.2
  have hfind : (table.rangeFrom h.1).keys.find? (fun key => key.isPrefixOf ip) = some key :=
    List.find?_cons_of_pos hfirst
  rw [findIPOverride, if_neg hip, hfind, Option.map_some]

/-- What is made of the override is the same for all orders exactly if it is the same for all
keys that match, or if the address itself is a key. -/
theorem findIPOverride_orderFree_iff (table : Overrides) (ip : List UInt8) {β : Type*}
    (f : IPOverride → β) :
    (∀ order order' : table.Range, (findIPOverride table order ip).map f =
        (findIPOverride table order' ip).map f) ↔
      ip ∈ table.keys ∨ ∀ key key', Matches table ip key → Matches table ip key' →
        f (table.val key) = f (table.val key') := by
  constructor
  · intro hfree
    refine or_iff_not_imp_left.mpr fun hip key key' hkey hkey' => ?_
    obtain ⟨order, horder⟩ := exists_order hip hkey
    obtain ⟨order', horder'⟩ := exists_order hip hkey'
    have heq := hfree order order'
    rw [horder, horder'] at heq
    exact Option.some.inj heq
  · rintro (hip | hsame) order order'
    · rw [findIPOverride_exact hip, findIPOverride_exact hip]
    · by_cases hip : ip ∈ table.keys
      · rw [findIPOverride_exact hip, findIPOverride_exact hip]
      cases hfind : findIPOverride table order ip with
      | none =>
        have hnone := (findIPOverride_eq_none_iff order).mp hfind
        rw [(findIPOverride_eq_none_iff order').mpr hnone]
      | some ov =>
        cases hfind' : findIPOverride table order' ip with
        | none =>
          have hnone := (findIPOverride_eq_none_iff order').mp hfind'
          rw [(findIPOverride_eq_none_iff order).mpr hnone] at hfind
          cases hfind
        | some ov' =>
          obtain ⟨key, hkey, rfl⟩ := findIPOverride_matches hip hfind
          obtain ⟨key', hkey', rfl⟩ := findIPOverride_matches hip hfind'
          exact congrArg some (hsame key key' hkey hkey')

end Lookup

/-- The address itself wins, then the longest key, and there is no override only if no key
matches; the order of the loop does not matter. -/
structure LongestWins (table : Overrides) (ip : List UInt8) : Prop where
  exact : ip ∈ table.keys → ∀ order, findIPOverride table order ip = some (table.val ip)
  longest : ∀ key, Longest table ip key → ip ∉ table.keys →
    ∀ order, findIPOverride table order ip = some (table.val key)
  nil : ∀ order, findIPOverride table order ip = none ↔ ∀ key, ¬ Matches table ip key
  orderFree : ∀ order order', findIPOverride table order ip = findIPOverride table order' ip

/-- The longest key wins exactly if the address itself is in the table or all keys that match
have the same override. -/
theorem longestWins_iff (table : Overrides) (ip : List UInt8) :
    LongestWins table ip ↔ ip ∈ table.keys ∨ ∀ key key', Matches table ip key →
      Matches table ip key' → table.val key = table.val key' := by
  have hfree := findIPOverride_orderFree_iff table ip id
  simp only [Option.map_id, id_eq] at hfree
  rw [← hfree]
  refine ⟨LongestWins.orderFree, fun h => ⟨fun hip order => findIPOverride_exact hip order, ?_,
    findIPOverride_eq_none_iff, h⟩⟩
  intro key hkey hip order
  obtain ⟨order', horder'⟩ := exists_order hip hkey.1
  rw [h order order', horder']

section Info
variable {getAll : List UInt8 → Except String DbRecord} {res : DbRecord} {ip : List UInt8}

theorem getIPInfo_eq (continent : String → String) (table : Overrides) (order : table.Range)
    (hres : getAll ip = .ok res) :
    getIPInfo (some getAll) continent table order ip =
      .ok (((findIPOverride table order ip).map (·.apply (res.info continent ip))).getD
        (res.info continent ip)) := by
  simp only [getIPInfo, hres]
  cases findIPOverride table order ip with
  | none => rfl
  | some ov => rfl

/-- What `GetIPInfo` says of an address is the same for all orders exactly if each override
that matches makes the same of what the database says. -/
theorem getIPInfo_orderFree_iff (continent : String → String) (table : Overrides)
    (hres : getAll ip = .ok res) :
    (∀ order order', getIPInfo (some getAll) continent table order ip =
        getIPInfo (some getAll) continent table order' ip) ↔
      ip ∈ table.keys ∨ ∀ key key', Matches table ip key → Matches table ip key' →
        (table.val key).apply (res.info continent ip) =
          (table.val key').apply (res.info continent ip) := by
  rw [← findIPOverride_orderFree_iff table ip fun ov => ov.apply (res.info continent ip)]
  refine forall_congr' fun order => forall_congr' fun order' => ?_
  rw [getIPInfo_eq continent table order hres, getIPInfo_eq continent table order' hres,
    Except.ok.injEq]
  -- whether there is an override does not depend on the order
  have hnone : findIPOverride table order ip = none ↔ findIPOverride table order' ip = none := by
    rw [findIPOverride_eq_none_iff, findIPOverride_eq_none_iff]
  cases hfind : findIPOverride table order ip with
  | none => simp [hnone.mp hfind]
  | some ov =>
    cases hfind' : findIPOverride table order' ip with
    | none =>
      rw [hnone.mpr hfind'] at hfind
      cases hfind
    | some ov' => simp

end Info

/-- The overrides of "47" and "47.86", which name different cities. -/
def twoCities : Overrides :=
  (GoMap.empty.set [52, 55] ⟨"", "", "", "Tokyo"⟩).set [52, 55, 46, 56, 54] ⟨"", "", "", "Osaka"⟩

/-- Of "47.9.0.1" only the shorter key is the beginning, whatever the order. -/
theorem getIPInfo_orderFree_twoCities : [52, 55, 46, 57, 46, 48, 46, 49] ∉ twoCities.keys ∧
    ∀ order order',
      getIPInfo (some fun _ => .ok ⟨"JP", "", "Nara"⟩) id twoCities order
          [52, 55, 46, 57, 46, 48, 46, 49] =
        getIPInfo (some fun _ => .ok ⟨"JP", "", "Nara"⟩) id twoCities order'
          [52, 55, 46, 57, 46, 48, 46, 49] := by
  refine ⟨by decide, (getIPInfo_orderFree_iff id twoCities rfl).mpr (Or.inr ?_)⟩
  have honly : ∀ key, Matches twoCities [52, 55, 46, 57, 46, 48, 46, 49] key → key = [52, 55] := by
    rintro key ⟨hmem, hstarts⟩
    revert key
    decide
  intro key key' hkey hkey'
  rw [honly key hkey, honly key' hkey']

/-- "47.86.0.1" begins with both keys, and the shorter one can be met first. -/
theorem shorter_key_wins :
    Longest twoCities [52, 55, 46, 56, 54, 46, 48, 46, 49] [52, 55, 46, 56, 54] ∧
      twoCities.val [52, 55, 46, 56, 54] = ⟨"", "", "", "Osaka"⟩ ∧
      ∃ order, findIPOverride twoCities order [52, 55, 46, 56, 54, 46, 48, 46, 49] =
        some ⟨"", "", "", "Tokyo"⟩ := by
  refine ⟨⟨⟨by decide, by decide⟩, ?_⟩, rfl, twoCities.range, by decide⟩
  rintro other ⟨hmem, -⟩
  revert other
  decide

end Arcturus.IPOverrides
