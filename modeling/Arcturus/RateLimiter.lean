import Arcturus.GoMaps
import Arcturus.TokenBucket
import Mathlib.Data.Rat.Cast.Order
import Mathlib.Tactic.FieldSimp
import Mathlib.Tactic.Positivity

/-!
The limits on the requests of one address at one port. Each pair has a token bucket of its
own, made when it is first needed and deleted again when it was idle for long. A new bucket is
full, so that the deletion cannot be seen as long as an old one would be full by then. Times
are in nanoseconds; the bucket is that of the rate package.
-/

namespace Arcturus.RateLimiter

open GoMaps TokenBucket

structure RateLimit where
  qps : ℤ
  burst : ℤ
  cleanInterval : ℤ

/-- `time.Duration(CleanInterval) * time.Minute` has sixty-four bits. -/
def RateLimit.interval (cfg : RateLimit) : ℤ := (cfg.cleanInterval * 60000000000).bmod (2 ^ 64)

/-- Tokens in a nanosecond. -/
def RateLimit.rate (cfg : RateLimit) : ℚ := cfg.qps / 1000000000

structure IPLimiter where
  limiter : Bucket ℚ
  lastSeen : ℚ

structure PortLimiters where
  limiters : GoMap String (Option IPLimiter)

structure GlobalRateLimiter where
  portLimiters : GoMap ℤ (Option PortLimiters)
  config : RateLimit

def initRateLimiter (cfg : RateLimit) : GlobalRateLimiter := ⟨GoMap.empty, cfg⟩

namespace GlobalRateLimiter

/-- The limiters of a port; `GetLimiter` makes them and starts the clean-up loop. -/
def port (g : GlobalRateLimiter) (port : ℤ) : PortLimiters :=
  (g.portLimiters.val port).getD ⟨GoMap.empty⟩

def getLimiter (g : GlobalRateLimiter) (t : ℚ) (port : ℤ) (ip : String) : Bucket ℚ :=
  match (g.port port).limiters.val ip with
  | some il => il.limiter
  | none => Bucket.full g.config.burst t

def setLimiter (g : GlobalRateLimiter) (port : ℤ) (ip : String) (il : IPLimiter) :
    GlobalRateLimiter :=
  { g with portLimiters :=
    g.portLimiters.set port (some ⟨(g.port port).limiters.set ip (some il)⟩) }

/-- `GetLimiter` and the call of `Allow` on what it returns. -/
def allow (g : GlobalRateLimiter) (t : ℚ) (port : ℤ) (ip : String) : Bool × GlobalRateLimiter :=
  let r := (g.getLimiter t port ip).allow g.config.rate g.config.burst t
  (r.1, g.setLimiter port ip ⟨r.2, t⟩)

def idle (cfg : RateLimit) (now : ℚ) : Option IPLimiter → Bool
  | some il => now - il.lastSeen > cfg.interval
  | none => false

/-- The loop body of `cleanupLoop`. -/
def cleanup (g : GlobalRateLimiter) (now : ℚ) (port : ℤ) : GlobalRateLimiter :=
  match g.portLimiters.val port with
  | none => g
  | some pl =>
    { g with portLimiters :=
      g.portLimiters.set port (some ⟨pl.limiters.eraseWhere (idle g.config now)⟩) }

end GlobalRateLimiter

/-- A request comes in, or the clean-up loop of a port gets to its next tick. -/
inductive Action where
  | allow (t : ℚ) (port : ℤ) (ip : String)
  | tick (t : ℚ) (port : ℤ)

def Action.time : Action → ℚ
  | .allow t _ _ => t
  | .tick t _ => t

def Action.isAllow : Action → Bool
  | .allow _ _ _ => true
  | .tick _ _ => false

structure Sys where
  limiter : GlobalRateLimiter
  crashed : Bool
  answers : List Bool

def start (cfg : RateLimit) : Sys := ⟨initRateLimiter cfg, false, []⟩

/-- Without a positive interval the clean-up loop of a port panics before its first tick. -/
def step (s : Sys) : Action → Sys
  | .allow t port ip =>
    if s.crashed then s
    else
      let r := s.limiter.allow t port ip
      { s with limiter := r.2, answers := s.answers ++ [r.1] }
  | .tick t port =>
    if s.crashed then s
    else if (s.limiter.portLimiters.val port).isNone then s
    else if s.limiter.config.interval ≤ 0 then { s with crashed := true }
    else { s with limiter := s.limiter.cleanup t port }

def run (s : Sys) (actions : List Action) : Sys := actions.foldl step s

/-- The clock does not go back. -/
def Timed (actions : List Action) : Prop := (actions.map Action.time).Pairwise (· ≤ ·)

/-- Clean-up makes no difference to the answers. -/
def Unobservable (cfg : RateLimit) : Prop :=
  ∀ actions, Timed actions →
    (run (start cfg) actions).answers = (run (start cfg) (actions.filter Action.isAllow)).answers

namespace GlobalRateLimiter
variable {g : GlobalRateLimiter} {t now : ℚ} {port port' : ℤ} {ip ip' : String}

/-- The limiter of a pair, if there is one. -/
def limiter? (g : GlobalRateLimiter) (port : ℤ) (ip : String) : Option IPLimiter :=
  (g.port port).limiters.val ip

theorem limiter?_set (il : IPLimiter) :
    (g.setLimiter port ip il).limiter? port' ip' =
      if port' = port ∧ ip' = ip then some il else g.limiter? port' ip' := by
  unfold limiter? setLimiter GlobalRateLimiter.port
  by_cases hport : port' = port
  · subst hport
    by_cases hip : ip' = ip
    · subst hip
      simp
    · simp [hip, GoMap.set_val_of_ne _ _ hip]
  · simp [hport, GoMap.set_val_of_ne _ _ hport]

theorem limiter?_cleanup :
    (g.cleanup now port).limiter? port' ip' =
      if port' = port ∧ idle g.config now (g.limiter? port' ip') then none
      else g.limiter? port' ip' := by
  unfold cleanup
  split
  · rename_i hnone
    split
    · rename_i hidle
      obtain ⟨rfl, hidle⟩ := hidle
      have hempty : g.limiter? port' ip' = none := by
        unfold limiter? GlobalRateLimiter.port
        rw [hnone]
        rfl
      exact hempty
    · rfl
  · rename_i pl hpl
    unfold limiter? GlobalRateLimiter.port
    by_cases hport : port' = port
    · subst hport
      simp only [hpl, GoMap.set_val_same, Option.getD_some, GoMap.eraseWhere_val, true_and]
      rfl
    · simp [hport, GoMap.set_val_of_ne _ _ hport]

/-- The tokens that a call at this time finds. -/
def level (g : GlobalRateLimiter) (port : ℤ) (ip : String) (t : ℚ) : ℚ :=
  match g.limiter? port ip with
  | some il => il.limiter.level g.config.rate g.config.burst t
  | none => g.config.burst

theorem level_le : g.level port ip t ≤ g.config.burst := by
  unfold level
  split
  · exact Bucket.level_le
  · exact le_rfl

/-- A call sees the level of its bucket and leaves one token less. -/
theorem allow_eq (hrate : 0 ≤ g.config.rate) :
    g.allow t port ip = (decide (1 ≤ g.level port ip t),
      g.setLimiter port ip ⟨⟨rest (g.level port ip t), t⟩, t⟩) := by
  have hlevel : (g.getLimiter t port ip).level g.config.rate g.config.burst t =
      g.level port ip t := by
    unfold getLimiter level limiter?
    cases (g.port port).limiters.val ip with
    | none => exact Bucket.level_full hrate le_rfl
    | some il => rfl
  unfold allow
  rw [Bucket.allow_eq, hlevel]

theorem level_allow (hrate : 0 ≤ g.config.rate) {t' : ℚ} :
    (g.allow t port ip).2.level port' ip' t' =
      if port' = port ∧ ip' = ip then
        Bucket.level g.config.rate g.config.burst ⟨rest (g.level port ip t), t⟩ t'
      else g.level port' ip' t' := by
  rw [allow_eq hrate]
  conv_lhs => unfold level
  rw [limiter?_set]
  by_cases h : port' = port ∧ ip' = ip
  · rw [if_pos h, if_pos h]
    rfl
  · rw [if_neg h, if_neg h]
    rfl

/-- No later call can tell the two apart. -/
structure Agree (now : ℚ) (g g' : GlobalRateLimiter) : Prop where
  config : g.config = g'.config
  level : ∀ port ip t, now ≤ t → g.level port ip t = g'.level port ip t

theorem Agree.allow {g' : GlobalRateLimiter} (h : Agree now g g') (hrate : 0 ≤ g.config.rate)
    (ht : now ≤ t) : (g.allow t port ip).1 = (g'.allow t port ip).1 ∧
      Agree t (g.allow t port ip).2 (g'.allow t port ip).2 := by
  have hrate' : 0 ≤ g'.config.rate := h.config ▸ hrate
  have hlevel := h.level port ip t ht
  refine ⟨?_, ?_, ?_⟩
  · rw [allow_eq hrate, allow_eq hrate', hlevel]
  · rw [allow_eq hrate, allow_eq hrate']
    exact h.config
  · intro port' ip' t' ht'
    rw [level_allow hrate, level_allow hrate', hlevel, h.config,
      h.level port' ip' t' (ht.trans ht')]

/-- No bucket is in debt, and each was last seen when it was last used. -/
def Settled (now : ℚ) (g : GlobalRateLimiter) : Prop :=
  ∀ port ip il, g.limiter? port ip = some il →
    0 ≤ il.limiter.tokens ∧ il.limiter.last = il.lastSeen ∧ il.lastSeen ≤ now

theorem Settled.level_nonneg (h : Settled now g) (hrate : 0 ≤ g.config.rate)
    (hburst : 0 ≤ g.config.burst) (ht : now ≤ t) : 0 ≤ g.level port ip t := by
  unfold level
  split
  · rename_i il hil
    obtain ⟨htokens, hlast, hseen⟩ := h port ip il hil
    exact Bucket.level_nonneg (by exact_mod_cast hburst) hrate htokens
      (hlast.trans_le (hseen.trans ht))
  · exact_mod_cast hburst

theorem Settled.allow (h : Settled now g) (hrate : 0 ≤ g.config.rate)
    (hburst : 0 ≤ g.config.burst) (ht : now ≤ t) : Settled t (g.allow t port ip).2 := by
  intro port' ip' il hil
  rw [allow_eq hrate, limiter?_set] at hil
  split at hil
  · cases Option.some.inj hil
    exact ⟨rest_nonneg (h.level_nonneg hrate hburst ht), rfl, le_rfl⟩
  · obtain ⟨htokens, hlast, hseen⟩ := h port' ip' il hil
    exact ⟨htokens, hlast, hseen.trans ht⟩

theorem cleanup_config : (g.cleanup now port).config = g.config := by
  unfold cleanup
  split
  · rfl
  · rfl

theorem Settled.cleanup (h : Settled now g) (ht : now ≤ t) : Settled t (g.cleanup t port) := by
  intro port' ip' il hil
  rw [limiter?_cleanup] at hil
  split at hil
  · cases hil
  · obtain ⟨htokens, hlast, hseen⟩ := h port' ip' il hil
    exact ⟨htokens, hlast, hseen.trans ht⟩

/-- A bucket that is deleted would be full from then on. -/
theorem Settled.level_cleanup (h : Settled now g) (hrate : 0 ≤ g.config.rate)
    (hwait : (g.config.burst : ℚ) ≤ g.config.interval * g.config.rate) {t' : ℚ} (ht' : t ≤ t') :
    (g.cleanup t port).level port' ip' t' = g.level port' ip' t' := by
  unfold level
  rw [limiter?_cleanup, cleanup_config]
  by_cases hidle : port' = port ∧ idle g.config t (g.limiter? port' ip')
  · rw [if_pos hidle]
    cases hil : g.limiter? port' ip' with
    | none => rfl
    | some il =>
      rw [hil] at hidle
      obtain ⟨htokens, hlast, -⟩ := h port' ip' il hil
      have hlong : (g.config.interval : ℚ) < t - il.lastSeen := of_decide_eq_true hidle.2
      refine (Bucket.level_of_wait ?_).symm
      have hmul : (g.config.interval : ℚ) * g.config.rate ≤
          (t' - il.limiter.last) * g.config.rate :=
        mul_le_mul_of_nonneg_right (by rw [hlast]; linarith) hrate
      linarith
  · rw [if_neg hidle]

end GlobalRateLimiter

section Runs
open GlobalRateLimiter
variable {cfg : RateLimit} {now t : ℚ} {s s' : Sys} {port : ℤ} {ip : String}

/-- The system with clean-up against the one without. -/
structure Simulates (cfg : RateLimit) (now : ℚ) (s s' : Sys) : Prop where
  config : s.limiter.config = cfg
  running : s.crashed = false
  running' : s'.crashed = false
  answers : s.answers = s'.answers
  agree : Agree now s.limiter s'.limiter
  settled : Settled now s.limiter

theorem simulates_start (cfg : RateLimit) (now : ℚ) :
    Simulates cfg now (start cfg) (start cfg) where
  config := rfl
  running := rfl
  running' := rfl
  answers := rfl
  agree := ⟨rfl, fun _ _ _ _ => rfl⟩
  settled := fun port ip il hil => by cases hil

theorem step_allow (h : s.crashed = false) : step s (.allow t port ip) =
    ⟨(s.limiter.allow t port ip).2, s.crashed, s.answers ++ [(s.limiter.allow t port ip).1]⟩ := by
  simp [step, h]

theorem Simulates.allow (h : Simulates cfg now s s') (hrate : 0 ≤ cfg.rate)
    (hburst : 0 ≤ cfg.burst) (ht : now ≤ t) :
    Simulates cfg t (step s (.allow t port ip)) (step s' (.allow t port ip)) := by
  obtain ⟨hanswer, hagree⟩ := Agree.allow h.agree (h.config ▸ hrate) ht
  rw [step_allow h.running, step_allow h.running']
  refine ⟨?_, h.running, h.running', ?_, hagree, ?_⟩
  · exact h.config
  · change s.answers ++ _ = s'.answers ++ _
    rw [h.answers, hanswer]
  · exact h.settled.allow (h.config ▸ hrate) (h.config ▸ hburst) ht

theorem Simulates.tick (h : Simulates cfg now s s') (hrate : 0 ≤ cfg.rate)
    (hpos : 0 < cfg.interval) (hwait : (cfg.burst : ℚ) ≤ cfg.interval * cfg.rate) (ht : now ≤ t) :
    Simulates cfg t (step s (.tick t port)) s' := by
  have hlater : Simulates cfg t s s' := by
    refine ⟨h.config, h.running, h.running', h.answers, ⟨h.agree.config, ?_⟩, ?_⟩
    · exact fun port ip t' ht' => h.agree.level port ip t' (ht.trans ht')
    · intro port ip il hil
      obtain ⟨htokens, hlast, hseen⟩ := h.settled port ip il hil
      exact ⟨htokens, hlast, hseen.trans ht⟩
  unfold step
  rw [h.running, h.config]
  simp only [Bool.false_eq_true, if_false, if_neg (not_le.mpr hpos)]
  split
  · exact hlater
  · refine ⟨?_, rfl, h.running', h.answers, ⟨?_, ?_⟩, h.settled.cleanup ht⟩
    · exact cleanup_config.trans h.config
    · exact cleanup_config.trans h.agree.config
    · intro port' ip' t' ht'
      exact (h.settled.level_cleanup (h.config ▸ hrate) (h.config ▸ hwait) ht').trans
        (h.agree.level port' ip' t' (ht.trans ht'))

/-- Whole runs with and without the ticks give the same answers. -/
theorem Simulates.run (h : Simulates cfg now s s') (hrate : 0 ≤ cfg.rate) (hburst : 0 ≤ cfg.burst)
    (hpos : 0 < cfg.interval) (hwait : (cfg.burst : ℚ) ≤ cfg.interval * cfg.rate)
    {actions : List Action} (htimed : Timed actions) (hnow : ∀ a ∈ actions, now ≤ a.time) :
    (run s actions).answers = (run s' (actions.filter Action.isAllow)).answers := by
  induction actions generalizing now s s' with
  | nil => exact h.answers
  | cons a actions ih =>
    unfold Timed at htimed
    rw [List.map_cons, List.pairwise_cons] at htimed
    have hlater : ∀ b ∈ actions, a.time ≤ b.time :=
      fun b hb => htimed.1 _ (List.mem_map_of_mem hb)
    have ha := hnow a List.mem_cons_self
    cases a with
    | allow t port ip => exact ih (h.allow hrate hburst ha) htimed.2 hlater
    | tick t port => exact ih (h.tick hrate hpos hwait ha) htimed.2 hlater

section Replicate
variable (hrate : 0 ≤ s.limiter.config.rate) (h : s.crashed = false)
include hrate h

theorem step_allow_eq (t : ℚ) (port : ℤ) (ip : String) : step s (.allow t port ip) =
    ⟨s.limiter.setLimiter port ip ⟨⟨rest (s.limiter.level port ip t), t⟩, t⟩, false,
      s.answers ++ [decide (1 ≤ s.limiter.level port ip t)]⟩ := by
  rw [step_allow h, allow_eq hrate, h]

theorem level_step_allow :
    (step s (.allow t port ip)).limiter.level port ip t = rest (s.limiter.level port ip t) := by
  rw [step_allow h]
  change (s.limiter.allow t port ip).2.level port ip t = _
  rw [level_allow hrate, if_pos ⟨rfl, rfl⟩]
  exact level_rest level_le

/-- Calls for one pair at one time: as many are let through as there are tokens. -/
theorem answers_replicate (t : ℚ) (port : ℤ) (ip : String) (n : ℕ) :
    (run s (List.replicate n (.allow t port ip))).answers = s.answers ++
      (List.range n).map (fun i : ℕ => decide ((i + 1 : ℚ) ≤ s.limiter.level port ip t)) := by
  induction n generalizing s with
  | zero => exact (List.append_nil _).symm
  | succ n ih =>
    have hstep := step_allow_eq hrate h t port ip
    calc (run s (List.replicate (n + 1) (.allow t port ip))).answers
        = (run (step s (.allow t port ip)) (List.replicate n (.allow t port ip))).answers := rfl
      _ = (step s (.allow t port ip)).answers ++ (List.range n).map (fun i : ℕ =>
            decide ((i + 1 : ℚ) ≤ rest (s.limiter.level port ip t))) := by
          rw [ih (by rw [hstep]; exact hrate) (by rw [hstep]), level_step_allow hrate h]
      _ = _ := by
          rw [hstep, List.range_succ_eq_map, List.map_cons, List.map_map, List.append_assoc]
          simp [Function.comp_def, le_rest_iff]

/-- They leave one limiter, with the tokens that are left. -/
theorem run_replicate (t : ℚ) (port : ℤ) (ip : String) (n : ℕ) :
    (run s (List.replicate (n + 1) (.allow t port ip))).crashed = false ∧
      (run s (List.replicate (n + 1) (.allow t port ip))).limiter.config = s.limiter.config ∧
      (run s (List.replicate (n + 1) (.allow t port ip))).limiter.limiter? port ip =
        some ⟨⟨rest^[n + 1] (s.limiter.level port ip t), t⟩, t⟩ := by
  induction n generalizing s with
  | zero =>
    have hone : run s (List.replicate 1 (.allow t port ip)) = step s (.allow t port ip) := rfl
    rw [Nat.zero_add, hone, step_allow_eq hrate h]
    exact ⟨rfl, rfl, by rw [limiter?_set, if_pos ⟨rfl, rfl⟩]; rfl⟩
  | succ n ih =>
    have hstep := step_allow_eq hrate h t port ip
    have hrun : run s (List.replicate (n + 1 + 1) (.allow t port ip)) =
        run (step s (.allow t port ip)) (List.replicate (n + 1) (.allow t port ip)) := rfl
    obtain ⟨hgo, hcfg, hlim⟩ := ih (s := step s (.allow t port ip))
      (by rw [hstep]; exact hrate) (by rw [hstep])
    rw [level_step_allow hrate h] at hlim
    rw [hrun]
    exact ⟨hgo, hcfg.trans (by rw [hstep]; rfl), hlim⟩

end Replicate

theorem run_append (s : Sys) (as bs : List Action) : run s (as ++ bs) = run (run s as) bs :=
  List.foldl_append

theorem run_of_crashed (h : s.crashed = true) (actions : List Action) : run s actions = s := by
  induction actions with
  | nil => rfl
  | cons a actions ih =>
    have hstep : step s a = s := by cases a <;> simp [step, h]
    change run (step s a) actions = s
    rw [hstep, ih]

theorem step_tick {il : IPLimiter} (h : s.crashed = false)
    (hil : s.limiter.limiter? port ip = some il) :
    step s (.tick t port) = if s.limiter.config.interval ≤ 0 then { s with crashed := true }
      else { s with limiter := s.limiter.cleanup t port } := by
  have hport : (s.limiter.portLimiters.val port).isNone = false := by
    unfold limiter? GlobalRateLimiter.port at hil
    cases hval : s.limiter.portLimiters.val port with
    | none =>
      rw [hval] at hil
      cases hil
    | some pl => rfl
  simp only [step, h, hport, Bool.false_eq_true, if_false]

/-- All tokens are taken at the start and again after a tick. -/
def drainTwice (n : ℕ) (t : ℚ) (port : ℤ) (ip : String) : List Action :=
  List.replicate n (.allow 0 port ip) ++ .tick t port :: List.replicate n (.allow t port ip)

theorem timed_drainTwice (n : ℕ) (port : ℤ) (ip : String) (ht : 0 ≤ t) :
    Timed (drainTwice n t port ip) := by
  unfold Timed drainTwice
  simp [List.pairwise_append, List.pairwise_replicate, Action.time, ht]

theorem filter_drainTwice (n : ℕ) : (drainTwice n t port ip).filter Action.isAllow =
    List.replicate n (.allow 0 port ip) ++ List.replicate n (.allow t port ip) := by
  unfold drainTwice
  rw [List.filter_append, List.filter_cons_of_neg (by simp [Action.isAllow])]
  simp [List.filter_replicate, Action.isAllow]

/-- The calls after a tick that deletes the limiter find a full bucket. -/
theorem answers_tick {il : IPLimiter} (hrate : 0 ≤ s.limiter.config.rate)
    (h : s.crashed = false) (hil : s.limiter.limiter? port ip = some il)
    (hidle : (s.limiter.config.interval : ℚ) < t - il.lastSeen) (n : ℕ) :
    (run (step s (.tick t port)) (List.replicate n (.allow t port ip))).answers =
      if s.limiter.config.interval ≤ 0 then s.answers
      else s.answers ++
        (List.range n).map (fun i : ℕ => decide ((i + 1 : ℚ) ≤ s.limiter.config.burst)) := by
  rw [step_tick h hil]
  by_cases hpanic : s.limiter.config.interval ≤ 0
  · rw [if_pos hpanic, if_pos hpanic, run_of_crashed rfl]
  · rw [if_neg hpanic, if_neg hpanic]
    have hlevel : (s.limiter.cleanup t port).level port ip t = s.limiter.config.burst := by
      unfold level
      rw [limiter?_cleanup, if_pos ⟨rfl, by rw [hil]; exact decide_eq_true hidle⟩,
        cleanup_config]
    have hcalls := answers_replicate (s := ⟨s.limiter.cleanup t port, s.crashed, s.answers⟩)
      (by rw [cleanup_config]; exact hrate) h t port ip n
    rw [hcalls, hlevel]

/-- If a bucket can be deleted before it is full again, the calls after the tick tell. -/
theorem le_of_unobservable (hrate : 0 < cfg.rate) (hburst : 0 < cfg.burst)
    (h : Unobservable cfg) : (cfg.burst : ℚ) ≤ cfg.interval * cfg.rate := by
  obtain ⟨n, hn⟩ : ∃ n : ℕ, cfg.burst = (n + 1 : ℕ) := ⟨(cfg.burst - 1).toNat, by omega⟩
  by_contra! hlt
  -- a time after the idle interval at which the drained bucket is not full
  obtain ⟨t, hidle, ht, hfull⟩ : ∃ t : ℚ, cfg.interval < t ∧ 0 ≤ t ∧ t * cfg.rate < cfg.burst := by
    rcases lt_or_ge cfg.interval 0 with hneg | hpos
    · refine ⟨0, by exact_mod_cast hneg, le_rfl, ?_⟩
      rw [zero_mul]
      exact_mod_cast hburst
    · obtain ⟨t, hidle, ht⟩ := exists_between ((lt_div_iff₀ hrate).mpr hlt)
      exact ⟨t, hidle, le_trans (by exact_mod_cast hpos) hidle.le, (lt_div_iff₀ hrate).mp ht⟩
  have hsame := h _ (timed_drainTwice (n + 1) 0 "" ht)
  rw [filter_drainTwice, drainTwice, run_append, run_append] at hsame
  obtain ⟨hgo, hcfg, hlim⟩ := run_replicate (s := start cfg) hrate.le rfl 0 0 "" n
  generalize run (start cfg) (List.replicate (n + 1) (.allow 0 0 "")) = s at hsame hgo hcfg hlim
  have hempty : rest^[n + 1] ((start cfg).limiter.level 0 "" 0) = 0 := by
    change rest^[n + 1] (cfg.burst : ℚ) = 0
    rw [hn]
    exact_mod_cast rest_iterate (K := ℚ) (n + 1)
  have hlevel : s.limiter.level 0 "" t ≤ t * cfg.rate := by
    unfold level
    rw [hlim, hcfg, hempty]
    refine (min_le_right _ _).trans_eq ?_
    change 0 + (t - 0) * cfg.rate = _
    rw [sub_zero, zero_add]
  have hrate' : 0 ≤ s.limiter.config.rate := hcfg ▸ hrate.le
  change (run (step s (.tick t 0)) _).answers = _ at hsame
  rw [answers_tick hrate' hgo hlim (by rw [hcfg, sub_zero]; exact hidle),
    answers_replicate hrate' hgo, hcfg] at hsame
  split at hsame
  · simpa using congrArg List.length hsame
  · have hlast := List.append_cancel_left hsame
    rw [List.map_inj_left] at hlast
    have hn' : (cfg.burst : ℚ) = n + 1 := by exact_mod_cast hn
    have hiff := decide_eq_decide.mp (hlast n (List.self_mem_range_succ))
    change (n + 1 : ℚ) ≤ cfg.burst ↔ _ at hiff
    linarith [hiff.mp hn'.ge]

end Runs

theorem rate_pos {cfg : RateLimit} (hqps : 0 < cfg.qps) : 0 < cfg.rate := by
  have hqps' : (0 : ℚ) < cfg.qps := by exact_mod_cast hqps
  exact div_pos hqps' (by norm_num)

theorem refills_iff (cfg : RateLimit) : (cfg.burst : ℚ) ≤ cfg.interval * cfg.rate ↔
    cfg.burst * 1000000000 ≤ cfg.qps * cfg.interval := by
  unfold RateLimit.rate
  rw [← mul_div_assoc, le_div_iff₀ (by norm_num), mul_comm (cfg.interval : ℚ)]
  exact_mod_cast Iff.rfl

theorem unobservable_of_le {cfg : RateLimit} (hqps : 0 < cfg.qps) (hburst : 0 < cfg.burst)
    (h : cfg.burst * 1000000000 ≤ cfg.qps * cfg.interval) : Unobservable cfg := by
  have hpos : 0 < cfg.interval := by
    by_contra! hneg
    have hmul : cfg.qps * cfg.interval ≤ 0 := mul_nonpos_of_nonneg_of_nonpos hqps.le hneg
    omega
  intro actions htimed
  cases actions with
  | nil => rfl
  | cons a actions =>
    refine (simulates_start cfg a.time).run (rate_pos hqps).le hburst.le hpos
      ((refills_iff cfg).mpr h) htimed ?_
    unfold Timed at htimed
    rw [List.map_cons, List.pairwise_cons] at htimed
    intro b hb
    rcases List.mem_cons.mp hb with rfl | hb
    · exact le_rfl
    · exact htimed.1 _ (List.mem_map_of_mem hb)

theorem interval_eq {cfg : RateLimit} (hclean : 0 < cfg.cleanInterval)
    (h : cfg.cleanInterval * 60000000000 < 2 ^ 63) :
    cfg.interval = cfg.cleanInterval * 60000000000 := by
  unfold RateLimit.interval
  exact Int.bmod_eq_of_le (by omega) (by omega)

/-- Clean-up cannot be seen exactly if a bucket fills up in the interval as it is computed; an
interval of less than 292 years is computed as it is written. -/
theorem unobservable_iff (cfg : RateLimit) (hqps : 0 < cfg.qps) (hburst : 0 < cfg.burst)
    (hclean : 0 < cfg.cleanInterval) (hfill : cfg.burst ≤ cfg.qps * 60 * cfg.cleanInterval) :
    (Unobservable cfg ↔ cfg.burst * 1000000000 ≤ cfg.qps * cfg.interval) ∧
      (cfg.cleanInterval * 60000000000 < 2 ^ 63 → Unobservable cfg) := by
  refine ⟨⟨fun h => ?_, unobservable_of_le hqps hburst⟩, fun hsmall => ?_⟩
  · exact (refills_iff cfg).mp (le_of_unobservable (rate_pos hqps) hburst h)
  · refine unobservable_of_le hqps hburst ?_
    rw [interval_eq hclean hsmall]
    nlinarith

/-- The limits of the configuration file. -/
theorem unobservable_default : Unobservable ⟨1000, 2000, 5⟩ :=
  (unobservable_iff ⟨1000, 2000, 5⟩ (by decide) (by decide) (by decide) (by decide)).2 (by decide)

/-- An interval of 585 years is computed as 26.3 seconds. -/
theorem long_interval_observable :
    RateLimit.interval ⟨1, 30, 307445735⟩ = 26290448384 ∧
      (run (start ⟨1, 30, 307445735⟩) (drainTwice 30 27000000000 8080 "10.0.0.1")).answers ≠
        (run (start ⟨1, 30, 307445735⟩) ((drainTwice 30 27000000000 8080 "10.0.0.1").filter
          Action.isAllow)).answers := by
  decide +kernel

end Arcturus.RateLimiter
