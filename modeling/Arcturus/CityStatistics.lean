import Arcturus.Doubles
import Arcturus.OrderStatistics
import Arcturus.Upserts
import Mathlib.Algebra.BigOperators.Ring.Finset
import Mathlib.Data.List.GetD

/-!
The statistics by city as `calculateLastCongestion` computes them: sums in one map, latencies in
another, and a second loop over the first map that reads the second one. A read outside of a
slice panics. The result is a summary of the records that are kept, whatever their order; sums
and averages are exact.
-/

namespace Arcturus.CityStatistics

open GoMaps Upserts OrderStatistics Doubles

structure Record where
  ts : ℤ
  clientIP : List UInt8
  connRT : ℤ
  country : String
  province : String
  city : String
  deriving DecidableEq, Repr

/-- Ten seconds. -/
def window : ℤ := 10000000000

/-- The records within the window, or all of them if there is none. -/
def recent (records : List Record) (now : ℤ) : List Record :=
  let valid := records.filter fun r => now - r.ts ≤ window
  if valid.length = 0 ∧ 0 < records.length then records else valid

structure LastCongestion where
  count : ℕ
  sumRT : ℚ
  avgRT : ℚ
  p95RT : ℤ
  deriving DecidableEq, Repr

abbrev Agg := GoMap String (Option LastCongestion)

abbrev Rts := GoMap String (List ℤ)

/-- What a record adds to the entry of its city. -/
def addRT (o : Option LastCongestion) (r : Record) : LastCongestion :=
  let s := o.getD ⟨0, 0, 0, 0⟩
  { s with count := s.count + 1, sumRT := s.sumRT + r.connRT }

def addRecord (m : Agg × Rts) (r : Record) : Agg × Rts :=
  let key := r.city
  (m.1.set key (some (addRT (m.1.val key) r)), m.2.set key (m.2.val key ++ [r.connRT]))

/-- The first loop. -/
def accumulate (valid : List Record) : Agg × Rts :=
  valid.foldl addRecord (GoMap.empty, GoMap.empty)

def p95Idx (n : ℕ) : ℕ :=
  let p95Idx := n * 95 / 100
  if n ≤ p95Idx then n - 1 else p95Idx

def finish (rts : List ℤ) (s : LastCongestion) : Option LastCongestion :=
  let avgRT := s.sumRT / s.count
  let s := { s with avgRT := if avgRT ≤ 0 then 1 else avgRT }
  if rts.length = 0 then some s
  else
    let rtList := ExchangeSort.sort id rts
    rtList[p95Idx rtList.length]?.map fun p95RT =>
      { s with p95RT := if p95RT ≤ 0 then 1 else p95RT }

/-- One round of the second loop. -/
def finishCity (rts : Rts) (agg : Agg) (k : String) : Option Agg :=
  (agg.val k).bind fun s => (finish (rts.val k) s).map fun s => agg.set k (some s)

/-- The records that stay, and the entries of the cities. -/
def calculateLastCongestion (records : List Record) (now : ℤ)
    (order : (accumulate (recent records now)).1.Range) : Option (List Record × Agg) :=
  let valid := recent records now
  let m := accumulate valid
  (order.keys.foldlM (finishCity m.2) m.1).map fun agg => (valid, agg)

/-- The latencies of a city. -/
def rtsOf (kept : List Record) (city : String) : List ℤ :=
  (kept.filter fun r => r.city = city).map Record.connRT

/-- An entry that sums up these latencies. At the index of its percentile the sorted latencies
have a value, which is replaced by one if it is not positive. -/
structure Summary (rts : List ℤ) (c : LastCongestion) : Prop where
  count : c.count = rts.length
  sumRT : c.sumRT = rts.sum
  avgRT : c.avgRT = if (rts.sum : ℚ) / rts.length ≤ 0 then 1 else (rts.sum : ℚ) / rts.length
  p95RT : ∃ i < rts.length, ∃ x, OrderStatistic rts i x ∧ 95 * rts.length ≤
    100 * rts.countP (· ≤ x) ∧ c.p95RT = if x ≤ 0 then 1 else x
  covers : 95 * rts.length ≤ 100 * rts.countP (· ≤ c.p95RT)

/-- One entry for each city with records, and all records counted. -/
structure Summarises (kept : List Record) (agg : Agg) : Prop where
  nodup : agg.keys.Nodup
  cities : ∀ city, city ∈ agg.keys ↔ ∃ r ∈ kept, r.city = city
  entry : ∀ city ∈ agg.keys, ∃ c, agg.val city = some c ∧ Summary (rtsOf kept city) c
  total : (agg.keys.map fun city => (agg.val city).elim 0 LastCongestion.count).sum = kept.length

/-- What is kept: the records within the window, or all of them if there is none. -/
def Kept (records : List Record) (now : ℤ) (kept : List Record) : Prop :=
  ((∃ r ∈ records, now - r.ts ≤ window) →
      kept = records.filter fun r => now - r.ts ≤ window) ∧
    ((∀ r ∈ records, ¬ now - r.ts ≤ window) → kept = records)

theorem kept_recent (records : List Record) (now : ℤ) :
    Kept records now (recent records now) := by
  unfold Kept recent
  dsimp only
  constructor
  · rintro ⟨r, hr, hts⟩
    have hmem : r ∈ records.filter fun r => now - r.ts ≤ window :=
      List.mem_filter.mpr ⟨hr, decide_eq_true hts⟩
    have hpos := List.length_pos_of_mem hmem
    rw [if_neg (by omega)]
  · intro hold
    have hnil : (records.filter fun r => now - r.ts ≤ window) = [] := by
      rw [List.filter_eq_nil_iff]
      intro r hr
      rw [decide_eq_true_eq]
      exact hold r hr
    rw [hnil]
    split
    · rfl
    · rename_i hempty
      have hlen : records.length = 0 := by
        rw [List.length_nil] at hempty
        omega
      exact (List.length_eq_zero_iff.mp hlen).symm

theorem recent_perm {records records' : List Record} (h : records.Perm records') (now : ℤ) :
    (recent records now).Perm (recent records' now) := by
  have hfilter := h.filter fun r => now - r.ts ≤ window
  unfold recent
  dsimp only
  rw [hfilter.length_eq, h.length_eq]
  split
  · exact h
  · exact hfilter

theorem rtsOf_perm {kept kept' : List Record} (h : kept.Perm kept') (city : String) :
    (rtsOf kept city).Perm (rtsOf kept' city) := (h.filter _).map _

/-! ### The first loop -/

theorem foldl_addRecord (l : List Record) (m : Agg × Rts) :
    l.foldl addRecord m = (l.foldl (upsert Record.city addRT) m.1,
      l.foldl (fun rts r => rts.set r.city (rts.val r.city ++ [r.connRT])) m.2) := by
  induction l generalizing m with
  | nil => rfl
  | cons r l ih => exact ih (addRecord m r)

theorem combined_addRT (l : List Record) (s : LastCongestion) :
    combined addRT l (some s) = some { s with
      count := s.count + l.length
      sumRT := s.sumRT + ((l.map Record.connRT).sum : ℤ) } := by
  induction l generalizing s with
  | nil => simp [combined]
  | cons r l ih =>
    change combined addRT l (some (addRT (some s) r)) = _
    rw [ih]
    simp only [addRT, Option.getD_some, List.length_cons, List.map_cons, List.sum_cons,
      Int.cast_add, add_assoc, Nat.add_comm 1]

/-- The entry of a city before the second loop. -/
theorem accumulate_agg (valid : List Record) (city : String) :
    (accumulate valid).1.val city = if rtsOf valid city = [] then none
      else some ⟨(rtsOf valid city).length, (rtsOf valid city).sum, 0, 0⟩ := by
  unfold accumulate rtsOf
  rw [foldl_addRecord, foldl_upsert_val]
  cases hl : valid.filter fun r => r.city = city with
  | nil => rfl
  | cons r l =>
    rw [if_neg (by simp)]
    change combined addRT l (some (addRT none r)) = _
    rw [combined_addRT]
    simp only [addRT, Option.getD_none, List.length_map, List.length_cons, List.map_cons,
      List.sum_cons, Int.cast_add, zero_add, Nat.add_comm 1]

theorem accumulate_rts (valid : List Record) (city : String) :
    (accumulate valid).2.val city = rtsOf valid city := by
  unfold accumulate rtsOf
  rw [foldl_addRecord, GoMap.foldl_collect_val]
  simp [GoMap.empty]
  rfl

theorem mem_accumulate_keys {valid : List Record} {city : String} :
    city ∈ (accumulate valid).1.keys ↔ ∃ r ∈ valid, r.city = city := by
  unfold accumulate
  rw [foldl_addRecord, mem_foldl_upsert_keys]
  simp [GoMap.empty]

theorem nodup_accumulate_keys (valid : List Record) : (accumulate valid).1.keys.Nodup := by
  unfold accumulate
  rw [foldl_addRecord]
  exact nodup_foldl_upsert_keys _ _ _ List.nodup_nil

/-! ### The second loop -/

theorem p95Idx_eq {n : ℕ} (hn : n ≠ 0) : p95Idx n = n * 95 / 100 := by
  have hlt : n * 95 / 100 < n := by omega
  exact if_neg (by omega)

theorem p95Idx_lt {n : ℕ} (hn : n ≠ 0) : p95Idx n < n := by
  rw [p95Idx_eq hn]
  omega

/-- The constant of the source is almost nineteen twentieths. -/
theorem abs_sub_le_of_nearest {c : ℚ} (hc : Nearest (19 / 20) c) :
    |c - 19 / 20| ≤ 2 / 5 / (significand : ℤ) := by
  have hdouble : IsDouble (8556839292003942 / 9007199254740992) := by
    refine ⟨8556839292003942, 53, by norm_num [significand], Or.inr ?_⟩
    norm_num
  refine (hc.2 _ hdouble).trans (le_of_eq ?_)
  norm_num [significand, abs_of_nonpos, abs]

theorem product_near {c : ℚ} (hc : Nearest (19 / 20) c) (n : ℕ) :
    |n * c - n * (19 / 20)| ≤ n * (2 / 5 / (significand : ℤ)) := by
  have hn : (0 : ℚ) ≤ n := Nat.cast_nonneg n
  rw [← mul_sub, abs_mul, abs_of_nonneg hn]
  exact mul_le_mul_of_nonneg_left (abs_sub_le_of_nearest hc) hn

/-- Where the exact product is whole, the doubles give it. -/
theorem floor_of_whole {n q : ℕ} (hq : n * 95 = 100 * q) (hn : n < 281474976710656) {c y : ℚ}
    (hc : Nearest (19 / 20) c) (hy : Nearest (n * c) y) : ⌊y⌋ = q := by
  have hsig : ((significand : ℤ) : ℚ) = 9007199254740992 := by norm_num [significand]
  have hexact : (n : ℚ) * 95 = 100 * q := by exact_mod_cast hq
  have hprod := product_near hc n
  rcases Nat.eq_zero_or_pos n with rfl | hpos
  · obtain rfl : q = 0 := by omega
    refine hy.floor_eq_of_between (by omega) (by norm_num [significand]) ?_ ?_
    · push_cast
      linarith
    · push_cast
      linarith
  · have hposQ : (0 : ℚ) < n := by exact_mod_cast hpos
    have hqQ : ((q : ℤ) : ℚ) = n * (19 / 20) := by
      push_cast
      linarith
    refine hy.floor_eq_of_near (by omega) (by rw [significand]; omega) ?_
    rw [hsig] at hprod
    rw [hqQ, hsig]
    linarith

/-- Otherwise it is at least a twentieth away from both neighbours. -/
theorem floor_of_fraction {n q : ℕ} (hlow : 100 * q + 5 ≤ n * 95) (hhigh : n * 95 ≤ 100 * q + 95)
    (hn : n < 281474976710656) {c y : ℚ} (hc : Nearest (19 / 20) c) (hy : Nearest (n * c) y) :
    ⌊y⌋ = q := by
  have hsig : ((significand : ℤ) : ℚ) = 9007199254740992 := by norm_num [significand]
  have hn' : (n : ℚ) < 281474976710656 := by exact_mod_cast hn
  have hbelow : (100 : ℚ) * q + 5 ≤ n * 95 := by exact_mod_cast hlow
  have habove : (n : ℚ) * 95 ≤ 100 * q + 95 := by exact_mod_cast hhigh
  obtain ⟨hfrom, hto⟩ := abs_le.mp (product_near hc n)
  rw [hsig] at hfrom hto
  refine hy.floor_eq_of_between (by omega) (by rw [significand]; omega) ?_ ?_
  · push_cast
    linarith
  · push_cast
    linarith

/-- The index is the one that the product of two doubles is cut to, for every slice that has
room in memory. -/
theorem floor_of_nearest {n : ℕ} (hn : n < 281474976710656) {c y : ℚ}
    (hc : Nearest (19 / 20) c) (hy : Nearest (n * c) y) : ⌊y⌋ = (n * 95 / 100 : ℕ) := by
  rcases Nat.eq_zero_or_pos (n * 95 % 100) with hrem | hrem
  · exact floor_of_whole (by omega) hn hc hy
  · exact floor_of_fraction (by omega) (by omega) hn hc hy

/-- The entries up to the index are enough. -/
theorem p95_covers {rts : List ℤ} (hne : rts ≠ []) {x y : ℤ}
    (h : OrderStatistic rts (p95Idx rts.length) x) (hxy : x ≤ y) :
    95 * rts.length ≤ 100 * rts.countP (· ≤ y) := by
  have hcount := h.lt_countP
  have hmono : rts.countP (· ≤ x) ≤ rts.countP (· ≤ y) := by
    refine List.countP_mono_left ?_
    intro z _ hz
    rw [decide_eq_true_eq] at hz ⊢
    exact hz.trans hxy
  rw [p95Idx_eq (List.length_eq_zero_iff.not.mpr hne)] at hcount
  omega

/-- What the second loop makes of the entry of a city. -/
theorem finish_eq {rts : List ℤ} (hne : rts ≠ []) :
    ∃ c, finish rts ⟨rts.length, rts.sum, 0, 0⟩ = some c ∧ Summary rts c := by
  have hlen : rts.length ≠ 0 := List.length_eq_zero_iff.not.mpr hne
  obtain ⟨x, hx⟩ := exists_orderStatistic (p95Idx_lt hlen)
  have hget := orderStatistic_iff.mp hx
  rw [← (ExchangeSort.sort_perm id rts).length_eq] at hget
  have hone : x ≤ if x ≤ 0 then 1 else x := by
    split
    · omega
    · exact le_rfl
  refine ⟨⟨rts.length, rts.sum,
    if (rts.sum : ℚ) / rts.length ≤ 0 then 1 else (rts.sum : ℚ) / rts.length,
    if x ≤ 0 then 1 else x⟩, ?_, rfl, rfl, rfl, ?_, p95_covers hne hx hone⟩
  · simp only [finish, if_neg hlen, hget, Option.map_some]
  · exact ⟨_, p95Idx_lt hlen, x, hx, p95_covers hne hx le_rfl, rfl⟩

theorem finish_perm {rts rts' : List ℤ} (h : rts.Perm rts') (s : LastCongestion) :
    finish rts s = finish rts' s := by
  unfold finish
  rw [sort_eq_of_perm h, h.length_eq]

/-- Every city is finished once, with its own latencies. -/
theorem foldlM_finishCity {rts : Rts} {keys : List String} (hnodup : keys.Nodup) {agg : Agg}
    (h : ∀ k ∈ keys, ((agg.val k).bind (finish (rts.val k))).isSome) :
    ∃ agg', keys.foldlM (finishCity rts) agg = some agg' ∧ agg'.keys = agg.keys ∧
      (∀ k ∈ keys, agg'.val k = (agg.val k).bind (finish (rts.val k))) ∧
      ∀ k ∉ keys, agg'.val k = agg.val k := by
  induction keys generalizing agg with
  | nil => exact ⟨agg, rfl, rfl, fun k hk => absurd hk List.not_mem_nil, fun k _ => rfl⟩
  | cons a keys ih =>
    obtain ⟨ha, hkeys⟩ := List.nodup_cons.mp hnodup
    obtain ⟨c, hc⟩ := Option.isSome_iff_exists.mp (h a List.mem_cons_self)
    obtain ⟨s, hs, hfinish⟩ := Option.bind_eq_some_iff.mp hc
    have hmem : a ∈ agg.keys := by
      by_contra hnot
      rw [agg.absent a hnot] at hs
      cases hs
    have hother : ∀ k ∈ keys, (agg.set a (some c)).val k = agg.val k := by
      intro k hk
      exact GoMap.set_val_of_ne _ _ fun heq => ha (heq ▸ hk)
    have hnext : ∀ k ∈ keys, (((agg.set a (some c)).val k).bind (finish (rts.val k))).isSome := by
      intro k hk
      rw [hother k hk]
      exact h k (List.mem_cons_of_mem a hk)
    obtain ⟨agg', hrun, hkept, hdone, hrest⟩ := ih hkeys hnext
    refine ⟨agg', ?_, hkept.trans (GoMap.set_keys_of_mem _ _ hmem), ?_, ?_⟩
    · rw [List.foldlM_cons, finishCity, hs, Option.bind_some, hfinish]
      exact hrun
    · intro k hk
      rcases List.mem_cons.mp hk with rfl | hk
      · rw [hrest k ha, GoMap.set_val_same, hc]
      · rw [hdone k hk, hother k hk]
    · intro k hk
      rw [List.mem_cons, not_or] at hk
      rw [hrest k hk.2, GoMap.set_val_of_ne _ _ hk.1]

/-- The entry of a city in the result. -/
def entryOf (kept : List Record) (city : String) : Option LastCongestion :=
  if rtsOf kept city = [] then none
  else finish (rtsOf kept city) ⟨(rtsOf kept city).length, (rtsOf kept city).sum, 0, 0⟩

theorem rtsOf_ne_nil_iff {kept : List Record} {city : String} :
    rtsOf kept city ≠ [] ↔ ∃ r ∈ kept, r.city = city := by
  simp [rtsOf, List.filter_eq_nil_iff]

theorem entryOf_perm {kept kept' : List Record} (h : kept.Perm kept') (city : String) :
    entryOf kept city = entryOf kept' city := by
  have hrts := rtsOf_perm h city
  unfold entryOf
  rw [finish_perm hrts, hrts.length_eq, hrts.sum_eq]
  simp only [← List.length_eq_zero_iff, hrts.length_eq]

theorem accumulate_bind (valid : List Record) (city : String) :
    ((accumulate valid).1.val city).bind (finish ((accumulate valid).2.val city)) =
      entryOf valid city := by
  rw [accumulate_agg, accumulate_rts, entryOf]
  split <;> rfl

/-- In whatever order the second loop goes, it ends with the entries of the cities. -/
theorem calculateLastCongestion_eq (records : List Record) (now : ℤ)
    (order : (accumulate (recent records now)).1.Range) :
    ∃ agg, calculateLastCongestion records now order = some (recent records now, agg) ∧
      agg.keys = (accumulate (recent records now)).1.keys ∧
      ∀ city, agg.val city = entryOf (recent records now) city := by
  have hsome : ∀ k ∈ order.keys, (((accumulate (recent records now)).1.val k).bind
      (finish ((accumulate (recent records now)).2.val k))).isSome := by
    intro k hk
    rw [order.perm.mem_iff, mem_accumulate_keys, ← rtsOf_ne_nil_iff] at hk
    obtain ⟨c, hc, -⟩ := finish_eq hk
    rw [accumulate_bind, entryOf, if_neg hk, hc]
    rfl
  obtain ⟨agg, hrun, hkeys, hdone, hrest⟩ :=
    foldlM_finishCity (order.perm.nodup_iff.mpr (nodup_accumulate_keys _)) hsome
  refine ⟨agg, by simp only [calculateLastCongestion, hrun, Option.map_some], hkeys, ?_⟩
  intro city
  by_cases hcity : city ∈ order.keys
  · rw [hdone city hcity, accumulate_bind]
  · rw [hrest city hcity, accumulate_agg, entryOf]
    rw [order.perm.mem_iff, mem_accumulate_keys, ← rtsOf_ne_nil_iff, not_not] at hcity
    rw [if_pos hcity, if_pos hcity]

/-- Cities with one entry each account for all records. -/
theorem sum_rtsOf_length {kept : List Record} {cities : List String} (hnodup : cities.Nodup)
    (hcities : ∀ city, city ∈ cities ↔ ∃ r ∈ kept, r.city = city) :
    (cities.map fun city => (rtsOf kept city).length).sum = kept.length := by
  have hperm : cities.Perm (kept.map Record.city).dedup := by
    refine (List.perm_ext_iff_of_nodup hnodup (List.nodup_dedup _)).mpr ?_
    intro city
    rw [hcities, List.mem_dedup, List.mem_map]
  have hcount : ∀ city, (rtsOf kept city).length = (kept.map Record.city).count city := by
    intro city
    rw [rtsOf, List.length_map, ← List.countP_eq_length_filter, List.count, List.countP_map]
    refine List.countP_congr ?_
    intro r _
    simp
  rw [(hperm.map _).sum_eq]
  simp only [hcount]
  rw [List.sum_map_count_dedup_eq_length, List.length_map]

theorem summarises_of_eq {kept : List Record} {agg : Agg}
    (hkeys : agg.keys = (accumulate kept).1.keys)
    (hval : ∀ city, agg.val city = entryOf kept city) : Summarises kept agg := by
  have hnodup : agg.keys.Nodup := hkeys ▸ nodup_accumulate_keys kept
  have hcities : ∀ city, city ∈ agg.keys ↔ ∃ r ∈ kept, r.city = city := by
    intro city
    rw [hkeys, mem_accumulate_keys]
  have hentry : ∀ city ∈ agg.keys, ∃ c, agg.val city = some c ∧
      Summary (rtsOf kept city) c := by
    intro city hcity
    rw [hcities, ← rtsOf_ne_nil_iff] at hcity
    rw [hval, entryOf, if_neg hcity]
    exact finish_eq hcity
  refine ⟨hnodup, hcities, hentry, ?_⟩
  rw [← sum_rtsOf_length hnodup hcities]
  refine congrArg List.sum (List.map_congr_left ?_)
  intro city hcity
  obtain ⟨c, hc, hsummary⟩ := hentry city hcity
  rw [hc, ← hsummary.count]
  rfl

/-- The sum is also what additions with rounding give, as long as the sizes stay below the
significand. -/
theorem sumRT_of_rounded {kept : List Record} {agg : Agg} (h : Summarises kept agg)
    {city : String} {c : LastCongestion} (hcity : city ∈ agg.keys) (hc : agg.val city = some c)
    {y : ℚ} (hy : RoundedSum 0 (rtsOf kept city) y)
    (hsize : ((rtsOf kept city).map (|·|)).sum < significand) : c.sumRT = y := by
  obtain ⟨c', hc', hsummary⟩ := h.entry city hcity
  cases Option.some.inj (hc.symm.trans hc')
  have hy' : RoundedSum ((0 : ℤ) : ℚ) (rtsOf kept city) y := by simpa using hy
  rw [hsummary.sumRT, hy'.eq_sum (by simpa using hsize), zero_add]

/-- The statistics sum up the records that are kept, and they are the same for every order of
the records and of the loop over the cities. -/
theorem statistics_summarise (records : List Record) (now : ℤ)
    (order : (accumulate (recent records now)).1.Range) :
    ∃ kept agg, calculateLastCongestion records now order = some (kept, agg) ∧
      Kept records now kept ∧ Summarises kept agg ∧
      ∀ records', records.Perm records' →
        ∀ order' : (accumulate (recent records' now)).1.Range, ∃ kept' agg',
          calculateLastCongestion records' now order' = some (kept', agg') ∧
          kept'.Perm kept ∧ agg'.keys.Perm agg.keys ∧ agg'.val = agg.val := by
  obtain ⟨agg, hrun, hkeys, hval⟩ := calculateLastCongestion_eq records now order
  have hsum := summarises_of_eq hkeys hval
  refine ⟨recent records now, agg, hrun, kept_recent records now, hsum, ?_⟩
  intro records' hperm order'
  obtain ⟨agg', hrun', hkeys', hval'⟩ := calculateLastCongestion_eq records' now order'
  have hkept := recent_perm hperm now
  have hsum' := summarises_of_eq hkeys' hval'
  refine ⟨recent records' now, agg', hrun', hkept.symm, ?_, ?_⟩
  · refine (List.perm_ext_iff_of_nodup hsum'.nodup hsum.nodup).mpr ?_
    intro city
    rw [hsum'.cities, hsum.cities]
    simp only [hkept.mem_iff]
  · funext city
    rw [hval', hval]
    exact entryOf_perm hkept.symm city

/-- A request that took less than half a millisecond. -/
def sampleFast : Record := ⟨0, [], 0, "Japan", "Tokyo", "Tokyo"⟩

/-- The percentile of a city with this request alone is none of its latencies. -/
theorem sampleFast_p95 : ∃ kept agg c,
    calculateLastCongestion [sampleFast] 0 (GoMap.range _) = some (kept, agg) ∧
      agg.val "Tokyo" = some c ∧ ∀ i, ¬ OrderStatistic (rtsOf kept "Tokyo") i c.p95RT := by
  refine ⟨_, _, ⟨1, 0, 1, 1⟩, rfl, by decide +kernel, ?_⟩
  intro i h
  exact absurd h.mem (by decide +kernel)

end Arcturus.CityStatistics
