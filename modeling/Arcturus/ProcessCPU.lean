import Arcturus.ProcStat
import Mathlib.Algebra.BigOperators.Ring.List
import Mathlib.Algebra.Order.BigOperators.Group.List
import Mathlib.Algebra.Order.Field.Basic
import Mathlib.Algebra.Order.Floor.Ring
import Mathlib.Data.List.Induction
import Mathlib.Data.Rat.Floor
import Mathlib.Tactic.FieldSimp
import Mathlib.Tactic.Linarith
import Mathlib.Tactic.Positivity

/-!
The CPU usage of the proxy processes, from the tick counters in `/proc`. The last reading is
kept for each process id while the id is cached; the next one is subtracted from it in
unsigned words of sixty-four bits. An id can pass to another process between two readings.
Times are in seconds, usages are exact.
-/

namespace Arcturus.ProcessCPU

open ProcStat

def clkTck : ℚ := 100

def processName : String := "data-proxy"

/-- The last reading of a process id. -/
structure Sample where
  utime : UInt64
  stime : UInt64
  ts : ℚ
deriving DecidableEq

structure Sampler where
  procPIDs : List ℤ
  procLast : ℤ → Option Sample

def start : Sampler := ⟨[], fun _ => none⟩

/-- What a call of `getProcessCPU` meets: the time, the processes that a search by name finds,
and the files. Beside them stands what the files are about: the process that has an id, and
the ticks that a process has used so far. -/
structure Call where
  now : ℚ
  found : List ℤ
  nodup : found.Nodup
  file : ℤ → Except String (List UInt8)
  owner : ℤ → Option ℕ
  used : ℕ → ℕ
  read : ∀ pid utime stime, readProcStat pid (file pid) = some (.ok (utime, stime)) →
    ∃ q, owner pid = some q ∧ used q = utime.toNat + stime.toNat

def deltaTicks (utime stime : UInt64) (prev : Sample) : UInt64 :=
  (utime + stime) - (prev.utime + prev.stime)

def cpuPct (now : ℚ) (utime stime : UInt64) : Option Sample → ℚ
  | none => 0
  | some prev =>
    if 0 < ⌊prev.ts⌋ then
      let deltaSec := now - prev.ts
      if 0 < deltaSec then (deltaTicks utime stime prev).toNat / deltaSec / clkTck * 100 else 0
    else 0

/-- The variables of the loop over the cached ids. -/
structure Loop where
  alive : List ℤ
  procLast : ℤ → Option Sample
  totalCPU : ℚ

def visit (c : Call) (l : Loop) (pid : ℤ) : Option Loop :=
  match readProcStat pid (c.file pid) with
  | none => none
  | some (.error _) => some { l with procLast := Function.update l.procLast pid none }
  | some (.ok (utime, stime)) =>
    some ⟨l.alive ++ [pid], Function.update l.procLast pid (some ⟨utime, stime, c.now⟩),
      l.totalCPU + cpuPct c.now utime stime (l.procLast pid)⟩

def getProcessCPU (s : Sampler) (c : Call) : Option (Sampler × Except String ℚ) :=
  let pids := if s.procPIDs = [] then c.found else s.procPIDs
  if pids = [] then some (⟨[], s.procLast⟩, .error s!"process {processName} not found")
  else
    (pids.foldlM (visit c) ⟨[], s.procLast, 0⟩).map fun l => (⟨l.alive, l.procLast⟩, .ok l.totalCPU)

/-- The state after some calls, unless one of them panics. -/
def run (calls : List Call) : Option Sampler :=
  calls.foldlM (fun s c => (getProcessCPU s c).map Prod.fst) start

/-- Calls at increasing times. The counters of a process do not decrease, and a process that
has an id now and did not have it before was not there before. -/
structure History where
  calls : List Call
  increasing : calls.Pairwise (·.now < ·.now)
  nondecreasing : calls.Pairwise fun c c' => ∀ q, c.used q ≤ c'.used q
  fresh : calls.Pairwise fun c c' => ∀ p q, c'.owner p = some q → c.owner p ≠ some q → c.used q = 0

/-- The reading of an id, if it has one. -/
def Call.sample (c : Call) (p : ℤ) : Option Sample :=
  match readProcStat p (c.file p) with
  | some (.ok (utime, stime)) => some ⟨utime, stime, c.now⟩
  | _ => none

def Call.readable (c : Call) (p : ℤ) : Bool := (c.sample p).isSome

def Sample.total (x : Sample) : ℕ := x.utime.toNat + x.stime.toNat

/-- The difference is that of the numbers. -/
def Exact (x prev : Sample) : Prop :=
  ((deltaTicks x.utime x.stime prev).toNat : ℤ) = x.total - prev.total

/-- The ticks that the processes behind the ids have used between two calls. -/
def accumulated (c c' : Call) (pids : List ℤ) : ℚ :=
  (pids.map fun p => (((c'.owner p).elim 0 c'.used : ℕ) : ℚ) -
    ((c'.owner p).elim 0 c.used : ℕ)).sum

structure AccountedCall (c c' : Call) (s s' : Sampler) (r : Except String ℚ) : Prop where
  exact : ∀ p ∈ s'.procPIDs, ∀ x prev, c'.sample p = some x → s.procLast p = some prev →
    0 < ⌊prev.ts⌋ → Exact x prev
  bound : ∀ pct, r = .ok pct →
    pct ≤ 100 * accumulated c c' s'.procPIDs / (clkTck * (c'.now - c.now))

/-- Every call after the first one accounts for the ticks since the call before. -/
def Accounted (calls : List Call) : Prop :=
  ∀ pre c c' post, calls = pre ++ c :: c' :: post → ∀ s s' r, run (pre ++ [c]) = some s →
    getProcessCPU s c' = some (s', r) → AccountedCall c c' s s' r

/-- An id that is sampled in two calls in a row does not pass to a process with fewer ticks. -/
def NeverLower (calls : List Call) : Prop :=
  ∀ pre c c' post, calls = pre ++ c :: c' :: post → ∀ s s' r, run (pre ++ [c]) = some s →
    getProcessCPU s c' = some (s', r) → 0 < ⌊c.now⌋ → ∀ p ∈ s.procPIDs, p ∈ s'.procPIDs →
    ∀ q q', c.owner p = some q → c'.owner p = some q' →
      c.used q ≤ c'.used q' ∧ c'.used q' < c.used q + 2 ^ 64

section Visits
variable {c : Call} {l l' : Loop} {pid : ℤ} {pids : List ℤ}

/-- What one round of the loop adds to the usage. -/
def Call.share (c : Call) (prev : Option Sample) (p : ℤ) : ℚ :=
  (c.sample p).elim 0 fun x => cpuPct c.now x.utime x.stime prev

theorem visit_eq (h : visit c l pid = some l') :
    l'.alive = l.alive ++ [pid].filter c.readable ∧
      l'.procLast = Function.update l.procLast pid (c.sample pid) ∧
      l'.totalCPU = l.totalCPU + c.share (l.procLast pid) pid := by
  unfold visit at h
  unfold Call.share Call.readable Call.sample
  split at h
  · cases h
  · rename_i hread
    cases h
    simp [hread]
  · rename_i hread
    cases h
    simp [hread]

theorem share_of_not_readable (h : ¬ c.readable pid) (prev : Option Sample) :
    c.share prev pid = 0 := by
  unfold Call.readable at h
  rw [Option.not_isSome_iff_eq_none] at h
  unfold Call.share
  rw [h]
  rfl

/-- The loop visits each id once, so that it meets the readings of the calls before. -/
theorem foldlM_visit (hpids : pids.Nodup) (h : pids.foldlM (visit c) l = some l') :
    l'.alive = l.alive ++ pids.filter c.readable ∧
      (∀ p, l'.procLast p = if p ∈ pids then c.sample p else l.procLast p) ∧
      l'.totalCPU = l.totalCPU +
        ((pids.filter c.readable).map fun p => c.share (l.procLast p) p).sum := by
  induction pids generalizing l with
  | nil =>
    cases h
    simp
  | cons pid pids ih =>
    rw [List.foldlM_cons] at h
    obtain ⟨l₁, hvisit, hrest⟩ := Option.bind_eq_some_iff.mp h
    obtain ⟨halive, hlast, htotal⟩ := visit_eq hvisit
    obtain ⟨hnew, hpids⟩ := List.nodup_cons.mp hpids
    obtain ⟨halive', hlast', htotal'⟩ := ih hpids hrest
    refine ⟨?_, fun p => ?_, ?_⟩
    · rw [halive', halive, List.append_assoc, ← List.filter_append, List.singleton_append]
    · rw [hlast', hlast]
      by_cases hp : p = pid
      · subst hp
        simp [hnew]
      · simp [hp]
    · have hsame : (pids.filter c.readable).map (fun p => c.share (l₁.procLast p) p) =
          (pids.filter c.readable).map fun p => c.share (l.procLast p) p := by
        refine List.map_congr_left fun p hp => ?_
        rw [hlast, Function.update_of_ne (ne_of_mem_of_not_mem (List.mem_of_mem_filter hp) hnew)]
      rw [htotal', htotal, hsame]
      by_cases hread : c.readable pid
      · rw [List.filter_cons_of_pos hread, List.map_cons, List.sum_cons, add_assoc]
      · rw [List.filter_cons_of_neg hread, share_of_not_readable hread, add_zero]

end Visits

section Calls
variable {s s' : Sampler} {c c' : Call} {r : Except String ℚ} {calls : List Call}

/-- The cached ids are those that have a reading, all of the last call. -/
structure Kept (sample : ℤ → Option Sample) (s : Sampler) : Prop where
  nodup : s.procPIDs.Nodup
  alive : ∀ p ∈ s.procPIDs, (sample p).isSome
  last : ∀ p, s.procLast p = if p ∈ s.procPIDs then sample p else none

theorem kept_start (sample : ℤ → Option Sample) : Kept sample start where
  nodup := List.nodup_nil
  alive := by simp [start]
  last := by simp [start]

theorem Kept.getProcessCPU {sample : ℤ → Option Sample} (h : Kept sample s)
    (hcall : getProcessCPU s c = some (s', r)) : Kept c.sample s' ∧
      ∀ pct, r = .ok pct → pct = (s'.procPIDs.map fun p => c.share (s.procLast p) p).sum := by
  unfold ProcessCPU.getProcessCPU at hcall
  dsimp only at hcall
  generalize hpids : (if s.procPIDs = [] then c.found else s.procPIDs) = pids at hcall
  have hnodup : pids.Nodup := by
    rw [← hpids]
    split
    · exact c.nodup
    · exact h.nodup
  have hout : ∀ p ∉ pids, s.procLast p = none := by
    intro p hp
    rw [h.last, if_neg]
    intro hmem
    rw [if_neg (List.ne_nil_of_mem hmem)] at hpids
    exact hp (hpids ▸ hmem)
  split at hcall
  · rename_i hnil
    cases hcall
    refine ⟨⟨List.nodup_nil, by simp, fun p => ?_⟩, fun pct hpct => by cases hpct⟩
    rw [if_neg List.not_mem_nil]
    exact hout p (hnil ▸ List.not_mem_nil)
  · obtain ⟨l, hloop, hl⟩ := Option.map_eq_some_iff.mp hcall
    cases hl
    obtain ⟨halive, hlast, htotal⟩ := foldlM_visit hnodup hloop
    rw [List.nil_append] at halive
    refine ⟨⟨?_, fun p hp => ?_, fun p => ?_⟩, fun pct hpct => ?_⟩
    · exact halive ▸ hnodup.filter _
    · exact (List.mem_filter (p := c.readable)).mp (halive ▸ hp) |>.2
    · change l.procLast p = if p ∈ l.alive then c.sample p else none
      rw [hlast, halive]
      simp only [List.mem_filter]
      by_cases hp : p ∈ pids
      · by_cases hread : c.readable p
        · simp [hp, hread]
        · simp only [hp, hread, Bool.false_eq_true, and_false, if_true, if_false]
          exact Option.not_isSome_iff_eq_none.mp hread
      · simp [hp, hout p hp]
    · cases hpct
      rw [htotal, zero_add, ← halive]

theorem run_concat {s : Sampler} (h : run (calls ++ [c]) = some s) :
    ∃ s₀ r, run calls = some s₀ ∧ getProcessCPU s₀ c = some (s, r) := by
  unfold run at h
  rw [List.foldlM_append] at h
  obtain ⟨s₀, hrun, hlast⟩ := Option.bind_eq_some_iff.mp h
  rw [List.foldlM_cons] at hlast
  obtain ⟨s₁, hcall, hs⟩ := Option.bind_eq_some_iff.mp hlast
  obtain ⟨⟨s₂, r⟩, hstep, rfl⟩ := Option.map_eq_some_iff.mp hcall
  cases hs
  exact ⟨s₀, r, hrun, hstep⟩

theorem exists_kept_run (h : run calls = some s) : ∃ sample, Kept sample s := by
  induction calls using List.reverseRecOn generalizing s with
  | nil =>
    cases h
    exact ⟨fun _ => none, kept_start _⟩
  | append_singleton calls c ih =>
    obtain ⟨s₀, r, hrun, hcall⟩ := run_concat h
    obtain ⟨sample, hkept⟩ := ih hrun
    exact ⟨c.sample, (hkept.getProcessCPU hcall).1⟩

theorem kept_run (h : run (calls ++ [c]) = some s) : Kept c.sample s := by
  obtain ⟨s₀, r, hrun, hcall⟩ := run_concat h
  obtain ⟨sample, hkept⟩ := exists_kept_run hrun
  exact (hkept.getProcessCPU hcall).1

theorem Call.sample_eq_some {x : Sample} {p : ℤ} (h : c.sample p = some x) :
    x.ts = c.now ∧ ∃ q, c.owner p = some q ∧ c.used q = x.total := by
  unfold Call.sample at h
  split at h
  · rename_i utime stime hread
    cases h
    exact ⟨rfl, c.read p utime stime hread⟩
  · cases h

theorem exact_iff (x prev : Sample) :
    Exact x prev ↔ prev.total ≤ x.total ∧ x.total < prev.total + 2 ^ 64 := by
  unfold Exact deltaTicks Sample.total
  rw [UInt64.toNat_sub, UInt64.toNat_add, UInt64.toNat_add]
  omega

/-- What an id adds to the usage, if its ticks were subtracted without wrapping around. -/
theorem share_le {p : ℤ} (hnow : c.now < c'.now) (hused : ∀ q, c.used q ≤ c'.used q)
    (hfresh : ∀ q, c'.owner p = some q → c.owner p ≠ some q → c.used q = 0)
    {x : Sample} (hx : c'.sample p = some x) {prev : Option Sample}
    (hprev : ∀ y, prev = some y → c.sample p = some y)
    (hexact : ∀ y, prev = some y → 0 < ⌊y.ts⌋ → Exact x y) :
    c'.share prev p ≤ 100 / (clkTck * (c'.now - c.now)) *
      ((((c'.owner p).elim 0 c'.used : ℕ) : ℚ) - ((c'.owner p).elim 0 c.used : ℕ)) := by
  obtain ⟨-, q', hq', hused'⟩ := Call.sample_eq_some hx
  have helapsed : 0 < c'.now - c.now := sub_pos.mpr hnow
  have hfactor : 0 ≤ 100 / (clkTck * (c'.now - c.now)) := by
    unfold clkTck
    positivity
  have hmono : (c.used q' : ℚ) ≤ c'.used q' := by exact_mod_cast hused q'
  have hzero : 0 ≤ 100 / (clkTck * (c'.now - c.now)) * ((c'.used q' : ℚ) - c.used q') :=
    mul_nonneg hfactor (sub_nonneg.mpr hmono)
  unfold Call.share
  rw [hx, hq']
  change cpuPct c'.now x.utime x.stime prev ≤
    100 / (clkTck * (c'.now - c.now)) * ((c'.used q' : ℚ) - c.used q')
  cases prev with
  | none => exact hzero
  | some y =>
    obtain ⟨hts, q, hq, husedq⟩ := Call.sample_eq_some (hprev y rfl)
    simp only [cpuPct]
    split
    · rename_i hpos
      rw [hts, if_pos helapsed]
      have hdelta : ((deltaTicks x.utime x.stime y).toNat : ℚ) = x.total - y.total := by
        have hint : ((deltaTicks x.utime x.stime y).toNat : ℤ) = x.total - y.total :=
          hexact y rfl hpos
        exact_mod_cast congrArg (Int.cast : ℤ → ℚ) hint
      -- an id with a new process is that of a process without ticks at the call before
      have hold : (c.used q' : ℚ) ≤ y.total := by
        by_cases hsame : q = q'
        · rw [← husedq, hsame]
        · have hnone := hfresh q' hq' (by rw [hq]; simpa using hsame)
          rw [hnone]
          exact_mod_cast Nat.zero_le _
      have hticks : ((deltaTicks x.utime x.stime y).toNat : ℚ) ≤ c'.used q' - c.used q' := by
        rw [hdelta, hused']
        linarith
      calc ((deltaTicks x.utime x.stime y).toNat : ℚ) / (c'.now - c.now) / clkTck * 100
          = 100 / (clkTck * (c'.now - c.now)) * (deltaTicks x.utime x.stime y).toNat := by
            have hne := helapsed.ne'
            unfold clkTck
            field_simp
        _ ≤ _ := mul_le_mul_of_nonneg_left hticks hfactor
    · exact hzero

/-- One call accounts for the ticks exactly if no cached id has passed to a process with
fewer ticks. -/
theorem accountedCall_iff (hkept : Kept c.sample s) (hcall : getProcessCPU s c' = some (s', r))
    (hnow : c.now < c'.now) (hused : ∀ q, c.used q ≤ c'.used q)
    (hfresh : ∀ p q, c'.owner p = some q → c.owner p ≠ some q → c.used q = 0) :
    AccountedCall c c' s s' r ↔ (0 < ⌊c.now⌋ → ∀ p ∈ s.procPIDs, p ∈ s'.procPIDs →
      ∀ q q', c.owner p = some q → c'.owner p = some q' →
        c.used q ≤ c'.used q' ∧ c'.used q' < c.used q + 2 ^ 64) := by
  obtain ⟨hkept', hpct⟩ := hkept.getProcessCPU hcall
  constructor
  · intro h hpos p hp hp' q q' hq hq'
    obtain ⟨prev, hprev⟩ := Option.isSome_iff_exists.mp (hkept.alive p hp)
    obtain ⟨x, hx⟩ := Option.isSome_iff_exists.mp (hkept'.alive p hp')
    obtain ⟨hts, q₁, hq₁, hprevTotal⟩ := Call.sample_eq_some hprev
    obtain ⟨-, q₂, hq₂, hxTotal⟩ := Call.sample_eq_some hx
    obtain rfl : q₁ = q := Option.some.inj (hq₁.symm.trans hq)
    obtain rfl : q₂ = q' := Option.some.inj (hq₂.symm.trans hq')
    have hlast : s.procLast p = some prev := by rw [hkept.last, if_pos hp, hprev]
    have hexact := h.exact p hp' x prev hx hlast (hts ▸ hpos)
    rw [hprevTotal, hxTotal]
    exact (exact_iff x prev).mp hexact
  · intro h
    have hsample : ∀ p prev, s.procLast p = some prev →
        p ∈ s.procPIDs ∧ c.sample p = some prev := by
      intro p prev hprev
      rw [hkept.last] at hprev
      split at hprev
      · exact ⟨‹_›, hprev⟩
      · cases hprev
    have hexact : ∀ p ∈ s'.procPIDs, ∀ x prev, c'.sample p = some x → s.procLast p = some prev →
        0 < ⌊prev.ts⌋ → Exact x prev := by
      intro p hp' x prev hx hlast hpos
      obtain ⟨hp, hprev⟩ := hsample p prev hlast
      obtain ⟨hts, q, hq, hprevTotal⟩ := Call.sample_eq_some hprev
      obtain ⟨-, q', hq', hxTotal⟩ := Call.sample_eq_some hx
      rw [exact_iff, ← hprevTotal, ← hxTotal]
      exact h (hts ▸ hpos) p hp hp' q q' hq hq'
    refine ⟨hexact, fun pct hok => ?_⟩
    rw [hpct pct hok]
    calc (s'.procPIDs.map fun p => c'.share (s.procLast p) p).sum
        ≤ (s'.procPIDs.map fun p => 100 / (clkTck * (c'.now - c.now)) *
            ((((c'.owner p).elim 0 c'.used : ℕ) : ℚ) - ((c'.owner p).elim 0 c.used : ℕ))).sum := by
          refine List.sum_le_sum fun p hp => ?_
          obtain ⟨x, hx⟩ := Option.isSome_iff_exists.mp (hkept'.alive p hp)
          exact share_le hnow hused (hfresh p) hx (fun y hy => (hsample p y hy).2)
            fun y hy => hexact p hp x y hx hy
      _ = 100 * accumulated c c' s'.procPIDs / (clkTck * (c'.now - c.now)) := by
          rw [List.sum_map_mul_left, accumulated, div_mul_eq_mul_div]

/-- The ticks are accounted for in all calls exactly if no id that is sampled in two calls in
a row passes to a process with fewer ticks in between. -/
theorem accounted_iff (H : History) : Accounted H.calls ↔ NeverLower H.calls := by
  have hcall : ∀ pre c c' post, H.calls = pre ++ c :: c' :: post → c.now < c'.now ∧
      (∀ q, c.used q ≤ c'.used q) ∧
      ∀ p q, c'.owner p = some q → c.owner p ≠ some q → c.used q = 0 := by
    intro pre c c' post heq
    have hpair : [c, c'].Sublist H.calls := by
      rw [heq]
      exact (((List.nil_sublist post).cons_cons c').cons_cons c).trans
        (List.sublist_append_right pre _)
    have hmem : c' ∈ [c'] := List.mem_singleton_self c'
    exact ⟨List.rel_of_pairwise_cons (H.increasing.sublist hpair) hmem,
      List.rel_of_pairwise_cons (H.nondecreasing.sublist hpair) hmem,
      List.rel_of_pairwise_cons (H.fresh.sublist hpair) hmem⟩
  refine forall_congr' fun pre => forall_congr' fun c => forall_congr' fun c' =>
    forall_congr' fun post => forall_congr' fun heq => forall_congr' fun s =>
    forall_congr' fun s' => forall_congr' fun r => forall_congr' fun hrun =>
    forall_congr' fun hstep => ?_
  obtain ⟨hnow, hused, hfresh⟩ := hcall pre c c' post heq
  exact accountedCall_iff (kept_run hrun) hstep hnow hused hfresh

end Calls

/-- A call that finds process `q` under id 7, with these counters. -/
def callOn7 (now : ℚ) (q : ℕ) (used : ℕ → ℕ) (text : String) (utime stime : UInt64)
    (hread : readProcStat 7 (.ok (ByteFields.encode text.toList)) = some (.ok (utime, stime)))
    (hused : used q = utime.toNat + stime.toNat) : Call where
  now := now
  found := [7]
  nodup := List.nodup_singleton 7
  file p :=
    if p = 7 then .ok (ByteFields.encode text.toList) else .error "no such file or directory"
  owner p := if p = 7 then some q else none
  used := used
  read p u v h := by
    by_cases hp : p = 7
    · subst hp
      rw [if_pos rfl, hread] at h
      cases h
      exact ⟨q, if_pos rfl, hused⟩
    · rw [if_neg hp] at h
      cases h

/-- The proxy has used 600 ticks. -/
def beforeReuse : Call :=
  callOn7 100 0 (fun q => if q = 0 then 600 else 0)
    "7 (data-proxy) S 1 7 7 0 -1 4194560 900 0 0 0 500 100 0 0 20 0 8 0" 500 100
    (by decide +kernel) rfl

/-- It has ended; a new one has its id and has used three ticks. -/
def afterReuse : Call :=
  callOn7 101 1 (fun q => if q = 0 then 600 else if q = 1 then 3 else 0)
    "7 (data-proxy) S 1 7 7 0 -1 4194560 90 0 0 0 2 1 0 0 20 0 8 0" 2 1
    (by decide +kernel) rfl

def reusedId : History where
  calls := [beforeReuse, afterReuse]
  increasing := by
    have hnow : beforeReuse.now < afterReuse.now := by
      change (100 : ℚ) < 101
      norm_num
    exact List.pairwise_pair.mpr hnow
  nondecreasing := by
    have hused : ∀ q, beforeReuse.used q ≤ afterReuse.used q := by
      intro q
      change (if q = 0 then 600 else 0) ≤ if q = 0 then 600 else if q = 1 then 3 else 0
      split
      · exact le_rfl
      · exact Nat.zero_le _
    exact List.pairwise_pair.mpr hused
  fresh := by
    have howner : ∀ p q, afterReuse.owner p = some q → beforeReuse.owner p ≠ some q →
        beforeReuse.used q = 0 := by
      intro p q hq _
      change (if p = 7 then some 1 else none) = some q at hq
      split at hq
      · cases hq
        rfl
      · cases hq
    exact List.pairwise_pair.mpr howner

theorem reused_id_load : ((run [beforeReuse]).bind fun s =>
    (getProcessCPU s afterReuse).map fun r => (r.1.procPIDs, r.2.toOption)) =
      some ([7], some 18446744073709551019) := by
  decide +kernel

/-- The second call reports a load of more than 10¹⁹ per cent, where three ticks were used in
a second. -/
theorem reused_id_not_accounted :
    accumulated beforeReuse afterReuse [7] = 3 ∧ ¬ Accounted reusedId.calls := by
  have hticks : accumulated beforeReuse afterReuse [7] = 3 := by decide +kernel
  refine ⟨hticks, fun h => ?_⟩
  obtain ⟨s, hrun, hload⟩ := Option.bind_eq_some_iff.mp reused_id_load
  obtain ⟨⟨s', r⟩, hcall, hr⟩ := Option.map_eq_some_iff.mp hload
  obtain ⟨hpids, hpct⟩ := Prod.mk.inj hr
  have hok : r = .ok 18446744073709551019 := by
    cases r with
    | error e => cases hpct
    | ok pct => exact congrArg Except.ok (Option.some.inj hpct)
  have hbound := (h [] beforeReuse afterReuse [] rfl s s' r hrun hcall).bound _ hok
  rw [show s'.procPIDs = [7] from hpids, hticks] at hbound
  change (18446744073709551019 : ℚ) ≤ 100 * 3 / (100 * (101 - 100)) at hbound
  norm_num at hbound

end Arcturus.ProcessCPU
