import Arcturus.ConnPool

/-!
How old a connection in the pool can be. Beside the pool stand the clock and the time at which
each connection was dialled; every operation reads the clock, which does not go back. Any
connection that was dialled may be put under any address. The time of creation in an entry is
that of the last `Put`, so that `cleanup` bounds the age of the entry and not that of the
connection.
-/

namespace Arcturus.ConnectionAges

open GoMaps StepRuns ConnPool

structure Timed where
  pool : Pool
  dialling : List String
  now : ℤ
  dialled : List ℤ

def start (now : ℤ) : Timed := ⟨Pool.empty, [], now, []⟩

/-- The times are what the operation reads from the clock, and for `get` and `dial` the time
at which it is over. -/
inductive TimedAction where
  | get (addr : String) (reads : List ℤ) (t : ℤ)
  | dial (addr : String) (ok : Bool) (t : ℤ)
  | put (addr : String) (c : ℕ) (healthy : Bool) (created lastUsed : ℤ)
  | cleanup (t : ℤ)

def step (cfg : Config) (s : Timed) : TimedAction → Option Timed
  | .get addr reads t =>
    if (s.now :: (reads ++ [t])).Pairwise (· ≤ ·) then
      let r := s.pool.get cfg addr fun k => reads.getD k t
      some ⟨r.2, if r.1.isSome then s.dialling else addr :: s.dialling, t, s.dialled⟩
    else none
  | .dial addr ok t =>
    if addr ∈ s.dialling ∧ s.now ≤ t then
      let waiting := s.dialling.erase addr
      if ok then some ⟨(s.pool.dial addr).2, waiting, t, s.dialled ++ [t]⟩
      else some { s with dialling := waiting, now := t }
    else none
  | .put addr c healthy created lastUsed =>
    if c < s.dialled.length ∧ s.now ≤ created ∧ created ≤ lastUsed then
      some { s with pool := s.pool.put cfg addr c healthy created lastUsed, now := lastUsed }
    else none
  | .cleanup t =>
    if s.now ≤ t then some { s with pool := s.pool.cleanup cfg t, now := t } else none

/-- No connection in the pool was dialled more than two lifetimes before. -/
def BoundedAges (cfg : Config) (t : ℤ) (s : Timed) : Prop :=
  ∀ addr, ∀ pc ∈ s.pool.pools.val addr, ∀ d, s.dialled[pc.conn]? = some d →
    t - 2 * cfg.maxLifetime.toInt ≤ d

/-- `Put` takes the connection into the list. -/
def Accepts (cfg : Config) (p : Pool) (addr : String) (healthy : Bool) : Prop :=
  addr ∈ p.pools.keys ∧ healthy ∧ ((p.pools.val addr).length : ℤ) < cfg.maxIdle

/-- The entry is made no later than one lifetime after its connection was dialled, or at the
same time. -/
def Early (cfg : Config) (pc : PooledConn) (d : ℤ) : Prop :=
  min pc.created (pc.lastUsed - cfg.maxLifetime.toInt) ≤ d

/-- A connection that is taken into a list, with an entry that does not expire at once, comes
early. -/
def ReturnedEarly (cfg : Config) (s : Timed) : TimedAction → Prop
  | .put addr c healthy created lastUsed =>
    Accepts cfg s.pool addr healthy → ¬ expired cfg lastUsed ⟨c, created, lastUsed⟩ →
      ∀ d, s.dialled[c]? = some d → Early cfg ⟨c, created, lastUsed⟩ d
  | _ => True

section Entries
variable {cfg : Config} {p : Pool} {addr a : String} {t : ℤ} {pc : PooledConn}

/-- Twice the lifetime, as the code computes it. Where the product does not wrap around it is
right; otherwise it is below zero for every lifetime that is not. -/
theorem toInt_two_mul (x : Int64) (hx : 0 ≤ x.toInt) :
    (x * 2).toInt = 2 * x.toInt ∨ (x * 2).toInt < 0 ∧ (x * 2).toInt ≤ 2 * x.toInt := by
  have hlt := x.toInt_lt
  have hmul : (x * 2).toInt = (x.toInt * 2).bmod (2 ^ 64) := Int64.toInt_mul x 2
  rw [hmul, Int.bmod_def]
  split <;> omega

theorem not_expired_iff : ¬ expired cfg t pc ↔
    t ≤ pc.lastUsed + cfg.maxLifetime.toInt ∧ t ≤ pc.created + (cfg.maxLifetime * 2).toInt := by
  simp only [expired, Bool.or_eq_true, decide_eq_true_eq, not_or]
  omega

/-- The clean-up leaves what has not expired. -/
theorem mem_cleanup : pc ∈ (p.cleanup cfg t).pools.val a ↔
    pc ∈ p.pools.val a ∧ ¬ expired cfg t pc := by
  have hloop : ∀ (addrs : List String) (q : Pool),
      pc ∈ (addrs.foldl (Pool.sweep cfg t) q).pools.val a ↔
        pc ∈ q.pools.val a ∧ (a ∈ addrs → ¬ expired cfg t pc) := by
    intro addrs
    induction addrs with
    | nil => simp
    | cons addr addrs ih =>
      intro q
      rw [List.foldl_cons, ih, Pool.sweep_val]
      by_cases ha : a = addr
      · rw [if_pos ha, List.mem_filter]
        simp only [ha, List.mem_cons, true_or, forall_const, Bool.not_eq_true', Bool.not_eq_true]
        tauto
      · rw [if_neg ha]
        simp [ha]
  unfold Pool.cleanup
  rw [hloop]
  refine and_congr_right fun hpc => ⟨fun h => h ?_, fun h _ => h⟩
  by_contra hkey
  rw [p.pools.absent a hkey] at hpc
  cases hpc

theorem put_of_accepts {healthy : Bool} (h : Accepts cfg p addr healthy) (c : ℕ)
    (created lastUsed : ℤ) :
    p.put cfg addr c healthy created lastUsed = p.pushFront addr ⟨c, created, lastUsed⟩ := by
  obtain ⟨hkey, hhealthy, hroom⟩ := h
  unfold Pool.put
  rw [if_neg (not_not.mpr hkey), if_neg]
  simp only [hhealthy, Bool.not_true, Bool.false_eq_true, false_or, not_le]
  exact hroom

theorem put_of_not_accepts {healthy : Bool} (h : ¬ Accepts cfg p addr healthy) (c : ℕ)
    (created lastUsed : ℤ) :
    (p.put cfg addr c healthy created lastUsed).pools = p.pools := by
  unfold Pool.put
  split
  · rfl
  · split
    · rfl
    · rename_i hkey hroom
      simp only [Bool.not_eq_true', not_or, Bool.not_eq_false, not_le] at hroom
      exact absurd ⟨not_not.mp hkey, hroom.1, hroom.2⟩ h

theorem mem_pushFront {new : PooledConn} :
    pc ∈ (p.pushFront addr new).pools.val a ↔ (a = addr ∧ pc = new) ∨ pc ∈ p.pools.val a := by
  unfold Pool.pushFront
  by_cases ha : a = addr
  · subst ha
    simp [GoMap.set_val_same]
  · simp [GoMap.set_val_of_ne _ _ ha, ha]

/-- `Get` only takes entries out. -/
theorem mem_of_mem_get {now : ℕ → ℤ} (h : pc ∈ (p.get cfg addr now).2.pools.val a) :
    pc ∈ p.pools.val a := by
  by_cases ha : a = addr
  · subst ha
    rw [show (p.get cfg a now).2.pools.val a = _ from GoMap.set_val_same _ _ _] at h
    exact (Pool.takeIdle_split cfg.maxLifetime now (p.pools.val a)).2.subset h
  · rwa [show (p.get cfg addr now).2.pools.val a = _ from GoMap.set_val_of_ne _ _ ha] at h

end Entries

/-- Every entry was made before now, for a connection that was dialled, and early. -/
def Inv (cfg : Config) (s : Timed) : Prop :=
  ∀ addr, ∀ pc ∈ s.pool.pools.val addr, pc.lastUsed ≤ s.now ∧ pc.conn < s.dialled.length ∧
    (¬ expired cfg pc.lastUsed pc → ∀ d, s.dialled[pc.conn]? = some d → Early cfg pc d)

section Steps
variable {cfg : Config} {s s' : Timed} {a : TimedAction}

/-- What holds of the entries is left by operations that only take entries out, later on. -/
theorem Inv.later (h : Inv cfg s) (hnow : s.now ≤ s'.now) (hdialled : s'.dialled = s.dialled)
    (hpools : ∀ addr, ∀ pc ∈ s'.pool.pools.val addr, pc ∈ s.pool.pools.val addr) :
    Inv cfg s' := by
  intro addr pc hpc
  obtain ⟨hused, hconn, hearly⟩ := h addr pc (hpools addr pc hpc)
  rw [hdialled]
  exact ⟨le_trans hused hnow, hconn, hearly⟩

theorem Inv.dial (h : Inv cfg s) {addr : String} {t : ℤ} {waiting : List String}
    (hnow : s.now ≤ t) : Inv cfg ⟨(s.pool.dial addr).2, waiting, t, s.dialled ++ [t]⟩ := by
  intro a pc hpc
  obtain ⟨hused, hconn, hearly⟩ := h a pc hpc
  refine ⟨le_trans hused hnow, ?_, ?_⟩
  · rw [List.length_append]
    omega
  · intro hfresh d hd
    rw [List.getElem?_append_left hconn] at hd
    exact hearly hfresh d hd

theorem Inv.put (h : Inv cfg s) {addr : String} {c : ℕ} {healthy : Bool} {created lastUsed : ℤ}
    (hc : c < s.dialled.length) (hnow : s.now ≤ lastUsed)
    (hearly : ReturnedEarly cfg s (.put addr c healthy created lastUsed)) :
    Inv cfg { s with
      pool := s.pool.put cfg addr c healthy created lastUsed
      now := lastUsed } := by
  by_cases hacc : Accepts cfg s.pool addr healthy
  · intro a pc hpc
    rw [put_of_accepts hacc] at hpc
    rcases mem_pushFront.mp hpc with ⟨-, rfl⟩ | hold
    · exact ⟨le_rfl, hc, hearly hacc⟩
    · obtain ⟨hused, hconn, hold⟩ := h a pc hold
      exact ⟨le_trans hused hnow, hconn, hold⟩
  · refine h.later hnow rfl ?_
    intro a pc hpc
    rwa [put_of_not_accepts hacc] at hpc

theorem step_inv (hs : Inv cfg s) (ha : ReturnedEarly cfg s a) (h : step cfg s a = some s') :
    Inv cfg s' := by
  cases a with
  | get addr reads t =>
    obtain ⟨hreads, h⟩ := Option.ite_none_right_eq_some.mp h
    cases h
    refine hs.later ?_ rfl fun a pc hpc => mem_of_mem_get hpc
    exact (List.pairwise_cons.mp hreads).1 t (List.mem_append_right _ (List.mem_singleton_self t))
  | dial addr ok t =>
    obtain ⟨⟨-, hnow⟩, h⟩ := Option.ite_none_right_eq_some.mp h
    split at h
    · cases h
      exact hs.dial hnow
    · cases h
      exact hs.later hnow rfl fun a pc hpc => hpc
  | put addr c healthy created lastUsed =>
    obtain ⟨⟨hc, hcreated, hused⟩, h⟩ := Option.ite_none_right_eq_some.mp h
    cases h
    exact hs.put hc (le_trans hcreated hused) ha
  | cleanup t =>
    obtain ⟨hnow, h⟩ := Option.ite_none_right_eq_some.mp h
    cases h
    exact hs.later hnow rfl fun a pc hpc => (mem_cleanup.mp hpc).1

/-- Early entries that are left by a clean-up are for connections that are not too old. -/
theorem Inv.cleanup (hs : Inv cfg s) {t : ℤ} (h : step cfg s (.cleanup t) = some s') :
    BoundedAges cfg t s' := by
  obtain ⟨hnow, h⟩ := Option.ite_none_right_eq_some.mp h
  cases h
  intro addr pc hpc d hd
  obtain ⟨hmem, hfresh⟩ := mem_cleanup.mp hpc
  obtain ⟨hused, -, hearly⟩ := hs addr pc hmem
  rw [not_expired_iff] at hfresh
  have hmade : ¬ expired cfg pc.lastUsed pc := by
    rw [not_expired_iff]
    omega
  have hd' := hearly hmade d hd
  have htwice := toInt_two_mul cfg.maxLifetime (by omega)
  unfold Early at hd'
  omega

/-- An entry that is not early is left by a clean-up at the last time before it expires. -/
theorem exists_cleanup {addr : String} {c : ℕ} {healthy : Bool} {created lastUsed : ℤ}
    (h : step cfg s (.put addr c healthy created lastUsed) = some s')
    (hacc : Accepts cfg s.pool addr healthy)
    (hfresh : ¬ expired cfg lastUsed ⟨c, created, lastUsed⟩) {d : ℤ}
    (hd : s.dialled[c]? = some d) (hlate : ¬ Early cfg ⟨c, created, lastUsed⟩ d) :
    ∃ t next, step cfg s' (.cleanup t) = some next ∧ ¬ BoundedAges cfg t next := by
  obtain ⟨⟨-, -, hcreated⟩, h⟩ := Option.ite_none_right_eq_some.mp h
  cases h
  rw [not_expired_iff] at hfresh
  dsimp only at hfresh
  have hlast : lastUsed ≤
      min (lastUsed + cfg.maxLifetime.toInt) (created + (cfg.maxLifetime * 2).toInt) := by
    omega
  have htwice := toInt_two_mul cfg.maxLifetime (by omega)
  refine ⟨_, _, if_pos hlast, ?_⟩
  intro hbound
  have hpc : (⟨c, created, lastUsed⟩ : PooledConn) ∈
      (Pool.cleanup cfg
        (min (lastUsed + cfg.maxLifetime.toInt) (created + (cfg.maxLifetime * 2).toInt))
        (s.pool.put cfg addr c healthy created lastUsed)).pools.val addr := by
    refine mem_cleanup.mpr ⟨?_, ?_⟩
    · rw [put_of_accepts hacc]
      exact mem_pushFront.mpr (Or.inl ⟨rfl, rfl⟩)
    · rw [not_expired_iff]
      exact ⟨min_le_left _ _, min_le_right _ _⟩
  have hage := hbound addr _ hpc d hd
  unfold Early at hlate
  dsimp only at hlate
  omega

end Steps

theorem inv_start (cfg : Config) (now : ℤ) : Inv cfg (start now) := by
  intro addr pc hpc
  cases hpc

/-- Whatever part of a run a clean-up comes after, it leaves no connection that was dialled
more than two lifetimes before, if and only if the connections that are put back in the run
come early. -/
theorem cleanup_bounds_ages_iff (cfg : Config) (now : ℤ) (actions : List TimedAction) (s : Timed)
    (hrun : run (step cfg) (start now) actions = some s) :
    (∀ front back, actions = front ++ back → ∀ t s',
        run (step cfg) (start now) (front ++ [.cleanup t]) = some s' → BoundedAges cfg t s') ↔
      AllSteps (step cfg) (ReturnedEarly cfg) (start now) actions := by
  constructor
  · intro hall
    refine allSteps_of_run hrun ?_
    intro front a back mid next heq hmid hnext
    cases a with
    | put addr c healthy created lastUsed =>
      intro hacc hfresh d hd
      by_contra hlate
      obtain ⟨t, last, hlast, hold⟩ := exists_cleanup hnext hacc hfresh hd hlate
      refine hold (hall (front ++ [.put addr c healthy created lastUsed]) back ?_ t last ?_)
      · rw [heq, List.append_assoc, List.singleton_append]
      · exact run_concat_eq_some.mpr ⟨next, run_concat_eq_some.mpr ⟨mid, hmid, hnext⟩, hlast⟩
    | _ => trivial
  · intro hearly front back heq t s' hrun'
    obtain ⟨mid, hmid, hlast⟩ := run_concat_eq_some.mp hrun'
    rw [heq] at hearly
    have hinv : Inv cfg mid := run_invariant (fun _ _ _ hs ha h => step_inv hs ha h)
      (inv_start cfg now) hearly.of_append hmid
    exact hinv.cleanup hlast

/-- A connection is dialled, put back once and then waits for a clean-up. -/
def sampleReturn : List TimedAction :=
  [.get "origin:80" [] 0, .dial "origin:80" true 0, .put "origin:80" 0 true 50 50]

theorem sampleReturn_bounds_ages : (∃ s, run (step ⟨2, 60⟩) (start 0) sampleReturn = some s) ∧
    ∀ t s', run (step ⟨2, 60⟩) (start 0) (sampleReturn ++ [.cleanup t]) = some s' →
      BoundedAges ⟨2, 60⟩ t s' := by
  have hearly : AllSteps (step ⟨2, 60⟩) (ReturnedEarly ⟨2, 60⟩) (start 0) sampleReturn := by
    refine AllSteps.cons trivial rfl (AllSteps.cons trivial rfl (AllSteps.cons ?_ rfl trivial))
    intro _ _ d hd
    cases hd
    unfold Early
    decide
  refine ⟨⟨_, rfl⟩, ?_⟩
  exact (cleanup_bounds_ages_iff ⟨2, 60⟩ 0 sampleReturn _ rfl).mpr hearly sampleReturn []
    (List.append_nil _).symm

/-- The connection is taken once more and put back after two and a half lifetimes. -/
def sampleSecondReturn : List TimedAction :=
  sampleReturn ++ [.get "origin:80" [100] 100, .put "origin:80" 0 true 150 150, .cleanup 150]

theorem second_return_kept : ∃ s,
    run (step ⟨2, 60⟩) (start 0) sampleSecondReturn = some s ∧ ¬ BoundedAges ⟨2, 60⟩ 150 s := by
  refine ⟨_, rfl, ?_⟩
  intro hbound
  have hage := hbound "origin:80" ⟨0, 150, 150⟩ (by decide) 0 rfl
  revert hage
  decide

end Arcturus.ConnectionAges
