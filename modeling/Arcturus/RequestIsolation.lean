import Arcturus.RequestIds

/-!
Requests do not meet each other. While fewer than 2²⁴ ids are drawn in the life of a
registration, every id that is registered belongs to one handler: the registration
finds its place free, the clean-up finds its own channel there, and what a handler
receives was delivered under its id while it was registered.
-/

namespace Arcturus.RequestIsolation

open GoMaps StepRuns RequestIds
open Disaggregation hiding Action step

/-- Every open registration stands under its id, and nothing else does; a channel belongs
to one handler. -/
structure Registered (s : Servers) : Prop where
  live : ∀ c reqID born ch, s.reg c = some (reqID, born, ch) →
    s.disagg.waiters.val reqID = some ch ∧ s.disagg.userIDs[ch]? = some reqID
  entry : ∀ reqID ch, s.disagg.waiters.val reqID = some ch →
    ∃ c born, s.reg c = some (reqID, born, ch)
  owner : ∀ c c' r r', s.reg c = some r → s.reg c' = some r' → r.2.2 = r'.2.2 → c = c'

theorem registered_start (seq₀ : UInt64) : Registered (Servers.start seq₀) where
  live := by simp [Servers.start, Servers.reg, Conn.registration]
  entry := by simp [Servers.start, newDisaggregator, GoMap.empty]
  owner := by simp [Servers.start, Servers.reg, Conn.registration]

variable {to4 : String → Option UInt32} {seq₀ : UInt64} {s s' : Servers}

/-- What a step does to the registrations: it leaves them, it opens one on a new channel,
or it closes one. The data in the channels is from before, or was looked up just now. -/
inductive Change (s s' : Servers) : Action → Prop
  | keep {a : Action} (hreg : s'.reg = s.reg) (hmoves : Moves s.disagg s'.disagg) : Change s s' a
  | lookup (userID : UInt32) (data : List UInt8) (hreg : s'.reg = s.reg)
      (hd : s'.disagg = s.disagg.lookup userID data) : Change s s' (.lookup userID data)
  | register (c : ℕ) (reqID : UInt32) (born : ℕ) (hc : s.conns c = .holding reqID born)
      (hreg : s'.reg = Function.update s.reg c (some (reqID, born, s.disagg.userIDs.length)))
      (hgen : s'.generated = s.generated)
      (hd : s'.disagg = s.disagg.register reqID) : Change s s' (.register c)
  | cleanup (c : ℕ) (reqID : UInt32) (born ch : ℕ) (hc : s.reg c = some (reqID, born, ch))
      (hreg : s'.reg = Function.update s.reg c none)
      (hd : s.disagg.cleanup ch = some s'.disagg) : Change s s' (.cleanup c)

theorem reg_update (s : Servers) (c : ℕ) (x : Conn) :
    (fun i => (Function.update s.conns c x i).registration) =
      Function.update s.reg c x.registration := by
  funext i
  by_cases hi : i = c
  · subst hi
    simp
  · simp [hi, Servers.reg]

theorem reg_update_same {c : ℕ} {x : Conn} (hx : x.registration = (s.conns c).registration) :
    (fun i => (Function.update s.conns c x i).registration) = s.reg := by
  rw [reg_update, hx]
  exact Function.update_eq_self c s.reg

theorem moves_refl (d : Disaggregator) : Moves d d := ⟨rfl, rfl, fun _ _ h => h⟩

theorem change_of_step {a : Action} (hs : stepRunning to4 s a = some s') : Change s s' a := by
  cases a with
  | generate c clientIP =>
    simp only [stepRunning] at hs
    split at hs
    · rename_i hc
      cases Option.some.inj hs
      exact .keep (reg_update_same (by rw [hc]; rfl)) (moves_refl _)
    · contradiction
  | abandon c =>
    simp only [stepRunning] at hs
    split at hs
    · rename_i hc
      cases Option.some.inj hs
      exact .keep (reg_update_same (by rw [hc]; rfl)) (moves_refl _)
    · contradiction
  | register c =>
    simp only [stepRunning] at hs
    split at hs
    · rename_i reqID born hc
      cases Option.some.inj hs
      have hlen : s.disagg.userIDs.length = s.disagg.chans.length := List.length_map _
      refine .register c reqID born hc ?_ rfl rfl
      rw [hlen]
      exact reg_update s c (.waiting reqID born s.disagg.chans.length)
    · contradiction
  | receive c =>
    simp only [stepRunning] at hs
    split at hs
    · rename_i reqID born ch hc
      obtain ⟨⟨data, d⟩, hr, rfl⟩ := Option.map_eq_some_iff.mp hs
      exact .keep (reg_update_same (by rw [hc]; rfl)) (moves_receive hr)
    · contradiction
  | cleanup c =>
    simp only [stepRunning] at hs
    split at hs
    · rename_i reqID born ch hc
      obtain ⟨d, hd, rfl⟩ := Option.map_eq_some_iff.mp hs
      exact .cleanup c reqID born ch hc (reg_update s c .idle) hd
    · contradiction
  | lookup userID data =>
    cases Option.some.inj hs
    exact .lookup userID data rfl rfl
  | send k =>
    obtain ⟨d, hd, rfl⟩ := Option.map_eq_some_iff.mp hs
    exact .keep rfl (moves_send hd)

theorem Registered.ch_lt (h : Registered s) {c : ℕ} {r : UInt32 × ℕ × ℕ} (hc : s.reg c = some r) :
    r.2.2 < s.disagg.userIDs.length :=
  (List.getElem?_eq_some_iff.mp (h.live c r.1 r.2.1 r.2.2 hc).2).1

theorem Registered.keep (h : Registered s) (hreg : s'.reg = s.reg)
    (hwait : s'.disagg.waiters = s.disagg.waiters) (hids : s'.disagg.userIDs = s.disagg.userIDs) :
    Registered s' where
  live := by
    rw [hreg, hwait, hids]
    exact h.live
  entry := by
    rw [hreg, hwait]
    exact h.entry
  owner := by
    rw [hreg]
    exact h.owner

/-- A registration under an id that nobody waits under. -/
theorem Registered.register (h : Registered s) {c : ℕ} {reqID : UInt32} {born : ℕ}
    (hnone : s.reg c = none) (hfree : s.disagg.waiters.val reqID = none)
    (hreg : s'.reg = Function.update s.reg c (some (reqID, born, s.disagg.userIDs.length)))
    (hd : s'.disagg = s.disagg.register reqID) : Registered s' where
  live := by
    intro i u b ch hi
    rw [hreg] at hi
    rw [hd, userIDs_register]
    by_cases hic : i = c
    · subst hic
      simp only [Function.update_self, Option.some.injEq, Prod.mk.injEq] at hi
      obtain ⟨rfl, -, rfl⟩ := hi
      simp [Disaggregator.register, Disaggregator.userIDs]
    · rw [Function.update_of_ne hic] at hi
      obtain ⟨hval, hid⟩ := h.live i u b ch hi
      have hne : u ≠ reqID := by
        intro heq
        rw [heq, hfree] at hval
        contradiction
      refine ⟨(GoMap.set_val_of_ne _ _ hne).trans hval, ?_⟩
      rw [List.getElem?_append_left (h.ch_lt hi)]
      exact hid
  entry := by
    intro u ch hu
    rw [hreg]
    rw [hd] at hu
    by_cases hne : u = reqID
    · subst hne
      simp only [Disaggregator.register, GoMap.set_val_same, Option.some.injEq] at hu
      exact ⟨c, born, by simp [Disaggregator.userIDs, hu]⟩
    · simp only [Disaggregator.register, GoMap.set_val_of_ne _ _ hne] at hu
      obtain ⟨i, b, hi⟩ := h.entry u ch hu
      refine ⟨i, b, ?_⟩
      rw [Function.update_of_ne]
      · exact hi
      · intro hic
        rw [hic, hnone] at hi
        contradiction
  owner := by
    intro i j r r' hi hj hch
    rw [hreg] at hi hj
    by_cases hic : i = c
    · by_cases hjc : j = c
      · exact hic.trans hjc.symm
      · subst hic
        rw [Function.update_self] at hi
        rw [Function.update_of_ne hjc] at hj
        have hlt := h.ch_lt hj
        cases Option.some.inj hi
        exact absurd hch (show s.disagg.userIDs.length ≠ r'.2.2 by omega)
    · by_cases hjc : j = c
      · subst hjc
        rw [Function.update_self] at hj
        rw [Function.update_of_ne hic] at hi
        have hlt := h.ch_lt hi
        cases Option.some.inj hj
        exact absurd hch (show r.2.2 ≠ s.disagg.userIDs.length by omega)
      · rw [Function.update_of_ne hic] at hi
        rw [Function.update_of_ne hjc] at hj
        exact h.owner i j r r' hi hj hch

theorem Registered.cleanup (h : Registered s) {c : ℕ} {reqID : UInt32} {born ch : ℕ}
    (hc : s.reg c = some (reqID, born, ch)) (hreg : s'.reg = Function.update s.reg c none)
    (hd : s.disagg.cleanup ch = some s'.disagg) : Registered s' := by
  obtain ⟨u, hu, hwait, hids, -⟩ := cleanup_effect hd
  obtain ⟨hown, hid⟩ := h.live c reqID born ch hc
  cases Option.some.inj (hid.symm.trans hu)
  have hother : ∀ i r, s'.reg i = some r → s.reg i = some r ∧ i ≠ c := by
    intro i r hi
    rw [hreg] at hi
    by_cases hic : i = c
    · subst hic
      simp at hi
    · rw [Function.update_of_ne hic] at hi
      exact ⟨hi, hic⟩
  constructor
  · intro i v b ch' hi
    obtain ⟨hold, hic⟩ := hother i _ hi
    obtain ⟨hval, hid'⟩ := h.live i v b ch' hold
    have hne : v ≠ reqID := by
      intro heq
      subst heq
      have hch : ch' = ch := Option.some.inj (hval.symm.trans hown)
      exact hic (h.owner i c _ _ hold hc hch)
    rw [hwait, hids, GoMap.erase_val_of_ne _ hne]
    exact ⟨hval, hid'⟩
  · intro v ch' hv
    rw [hwait] at hv
    by_cases hne : v = reqID
    · subst hne
      simp at hv
    · rw [GoMap.erase_val_of_ne _ hne] at hv
      obtain ⟨i, b, hi⟩ := h.entry v ch' hv
      refine ⟨i, b, ?_⟩
      rw [hreg, Function.update_of_ne]
      · exact hi
      · intro hic
        subst hic
        cases Option.some.inj (hi.symm.trans hc)
        exact hne rfl
  · intro i j r r' hi hj hch
    exact h.owner i j r r' (hother i r hi).1 (hother j r' hj).1 hch

/-- Fewer than 2²⁴ ids have been drawn since that of any open registration. -/
def Recent (s : Servers) : Prop :=
  ∀ c reqID born ch, s.reg c = some (reqID, born, ch) → s.generated - born < 2 ^ 24

/-- In every state of the run, fewer than 2²⁴ ids have been drawn since that of any
registration that is not cleaned up. -/
def Spaced (to4 : String → Option UInt32) (seq₀ : UInt64) (actions : List Action) : Prop :=
  ∀ front s, front <+: actions → run (step to4) (.start seq₀) front = some s → Recent s

theorem issued_of_reg {c : ℕ} {reqID : UInt32} {born ch : ℕ}
    (h : s.reg c = some (reqID, born, ch)) : (s.conns c).issued = some (reqID, born) := by
  unfold Servers.reg at h
  cases hc : s.conns c <;> simp_all [Conn.registration, Conn.issued]

/-- Two ids drawn within 2²⁴ of each other differ. -/
theorem free_of_recent (hn : Numbered seq₀ s) (hrecent : Recent s) {c : ℕ} {reqID : UInt32}
    {born : ℕ} (hc : s.conns c = .holding reqID born) (hborn : s.generated - born < 2 ^ 24) :
    ∀ c' born' ch', s.reg c' ≠ some (reqID, born', ch') := by
  intro c' born' ch' hc'
  have hiss : (s.conns c).issued = some (reqID, born) := by rw [hc]; rfl
  have hiss' := issued_of_reg hc'
  obtain ⟨hle, hlow⟩ := hn.low c reqID born hiss
  obtain ⟨hle', hlow'⟩ := hn.low c' reqID born' hiss'
  have hrec' := hrecent c' reqID born' ch' hc'
  have hne : born ≠ born' := by
    intro heq
    subst heq
    have hcc := hn.distinct c c' reqID reqID born hiss hiss'
    subst hcc
    unfold Servers.reg at hc'
    rw [hc] at hc'
    contradiction
  omega

theorem born_recent {c : ℕ} {reqID : UInt32} {born : ℕ} (hc : s.conns c = .holding reqID born)
    (hs : step to4 s (.register c) = some s') (hrecent : Recent s') :
    s.generated - born < 2 ^ 24 := by
  unfold RequestIds.step at hs
  split at hs
  · contradiction
  · simp only [stepRunning, hc, Option.some.injEq] at hs
    subst hs
    apply hrecent c reqID born s.disagg.chans.length
    simp [Servers.reg, Conn.registration]

/-- The data was handed to `Deliver` under the id of the one registration that the
channel belongs to, while this registration was open. -/
def Passed (to4 : String → Option UInt32) (seq₀ : UInt64) (actions : List Action) (s : Servers)
    (ch : ℕ) (data : List UInt8) : Prop :=
  ch < s.disagg.userIDs.length ∧ ∃ front back s₁ c reqID born,
    actions = front ++ .lookup reqID data :: back ∧
    run (step to4) (.start seq₀) front = some s₁ ∧ s₁.reg c = some (reqID, born, ch) ∧
    ∀ c' r, s.reg c' = some r → r.2.2 = ch → c' = c ∧ r = (reqID, born, ch)

/-- No step opens a registration on a channel that exists. -/
theorem Change.reg_old {a : Action} (h : Change s s' a) :
    s.disagg.userIDs.length ≤ s'.disagg.userIDs.length ∧
      ∀ c r, s'.reg c = some r → r.2.2 < s.disagg.userIDs.length → s.reg c = some r := by
  cases h with
  | keep hreg hmoves =>
    rw [hreg, hmoves.userIDs]
    exact ⟨le_rfl, fun _ _ h _ => h⟩
  | lookup userID data hreg hd =>
    rw [hreg, hd, userIDs_lookup]
    exact ⟨le_rfl, fun _ _ h _ => h⟩
  | register c reqID born hc hreg hgen hd =>
    rw [hreg, hd, userIDs_register]
    refine ⟨by simp, ?_⟩
    intro i r hi hlt
    by_cases hic : i = c
    · subst hic
      rw [Function.update_self] at hi
      cases Option.some.inj hi
      exact absurd hlt (lt_irrefl _)
    · rwa [Function.update_of_ne hic] at hi
  | cleanup c reqID born ch hc hreg hd =>
    obtain ⟨-, -, -, hids, -⟩ := cleanup_effect hd
    rw [hreg, hids]
    refine ⟨le_rfl, ?_⟩
    intro i r hi _
    by_cases hic : i = c
    · subst hic
      simp at hi
    · rwa [Function.update_of_ne hic] at hi

theorem Change.holds {a : Action} (h : Change s s' a) {ch : ℕ} {data : List UInt8}
    (hholds : Holds s'.disagg ch data) : Holds s.disagg ch data ∨
      ∃ userID, a = .lookup userID data ∧ s.disagg.waiters.val userID = some ch := by
  cases h with
  | keep hreg hmoves => exact Or.inl (hmoves.holds ch data hholds)
  | lookup userID data' hreg hd =>
    rw [hd] at hholds
    rcases hholds.of_lookup with hold | ⟨hval, rfl⟩
    · exact Or.inl hold
    · exact Or.inr ⟨userID, rfl, hval⟩
  | register c reqID born hc hreg hgen hd =>
    rw [hd] at hholds
    exact Or.inl hholds.of_register
  | cleanup c reqID born ch' hc hreg hd =>
    obtain ⟨-, -, -, -, hkeep⟩ := cleanup_effect hd
    exact Or.inl (hkeep ch data hholds)

structure Inv (to4 : String → Option UInt32) (seq₀ : UInt64) (actions : List Action)
    (s : Servers) : Prop where
  numbered : Numbered seq₀ s
  registered : Registered s
  passed : ∀ ch data, Holds s.disagg ch data → Passed to4 seq₀ actions s ch data

theorem Registered.waiters_none (h : Registered s) {reqID : UInt32}
    (hfree : ∀ c born ch, s.reg c ≠ some (reqID, born, ch)) :
    s.disagg.waiters.val reqID = none := by
  cases hval : s.disagg.waiters.val reqID with
  | none => rfl
  | some ch =>
    obtain ⟨c, born, hc⟩ := h.entry reqID ch hval
    exact absurd hc (hfree c born ch)

theorem Registered.change {a : Action} (h : Registered s) (hn : Numbered seq₀ s)
    (hrecent : Recent s) (hrecent' : Recent s') (hc : Change s s' a) : Registered s' := by
  cases hc with
  | keep hreg hmoves => exact h.keep hreg hmoves.waiters hmoves.userIDs
  | lookup userID data hreg hd =>
    apply h.keep hreg
    · rw [hd, waiters_lookup]
    · rw [hd, userIDs_lookup]
  | register c reqID born hc hreg hgen hd =>
    have hborn : s.generated - born < 2 ^ 24 := by
      rw [← hgen]
      apply hrecent' c reqID born s.disagg.userIDs.length
      rw [hreg, Function.update_self]
    have hfree := h.waiters_none (free_of_recent hn hrecent hc hborn)
    exact h.register (by simp [Servers.reg, hc, Conn.registration]) hfree hreg hd
  | cleanup c reqID born ch hc hreg hd => exact h.cleanup hc hreg hd

theorem inv_step {actions : List Action} {a : Action} (h : Inv to4 seq₀ actions s)
    (hrun : run (step to4) (.start seq₀) actions = some s) (hs : step to4 s a = some s')
    (hrecent : Recent s) (hrecent' : Recent s') : Inv to4 seq₀ (actions ++ [a]) s' := by
  unfold RequestIds.step at hs
  split at hs
  · contradiction
  have hchange := change_of_step hs
  refine ⟨h.numbered.step hs, h.registered.change h.numbered hrecent hrecent' hchange, ?_⟩
  intro ch data hholds
  obtain ⟨hlen, hold⟩ := hchange.reg_old
  rcases hchange.holds hholds with hbefore | ⟨userID, rfl, hval⟩
  · obtain ⟨hlt, front, back, s₁, c, reqID, born, rfl, hfront, hreg, huniq⟩ :=
      h.passed ch data hbefore
    refine ⟨hlt.trans_le hlen, front, back ++ [a], s₁, c, reqID, born, by simp, hfront, hreg, ?_⟩
    intro c' r hc' hr
    exact huniq c' r (hold c' r hc' (by rw [hr]; exact hlt)) hr
  · obtain ⟨c, born, hc⟩ := h.registered.entry userID ch hval
    have hlt : ch < s.disagg.userIDs.length := h.registered.ch_lt hc
    refine ⟨hlt.trans_le hlen, actions, [], s, c, userID, born, rfl, hrun, hc, ?_⟩
    intro c' r hc' hr
    have hc'' := hold c' r hc' (by rw [hr]; exact hlt)
    have heq := h.registered.owner c' c r _ hc'' hc hr
    subst heq
    exact ⟨rfl, Option.some.inj (hc''.symm.trans hc)⟩

theorem Spaced.of_append {front back : List Action} (h : Spaced to4 seq₀ (front ++ back)) :
    Spaced to4 seq₀ front := by
  intro pre s hpre hs
  exact h pre s (hpre.trans (List.prefix_append front back)) hs

theorem inv_run {actions : List Action} (hspaced : Spaced to4 seq₀ actions)
    (hrun : run (step to4) (.start seq₀) actions = some s) : Inv to4 seq₀ actions s := by
  revert hspaced
  apply run_induction (motive := fun actions s => Spaced to4 seq₀ actions →
    Inv to4 seq₀ actions s) ?_ ?_ hrun
  · intro _
    refine ⟨numbered_start seq₀, registered_start seq₀, ?_⟩
    intro ch data h
    simp [Holds, Servers.start, newDisaggregator] at h
  · intro front s a s' hfront ih hs hspaced
    exact inv_step (ih hspaced.of_append) hfront hs
      (hspaced front s (List.prefix_append front [a]) hfront)
      (hspaced (front ++ [a]) s' (List.prefix_refl _) (run_concat_eq_some.mpr ⟨s, hfront, hs⟩))

/-- The run takes the action `a` after the actions `front`, which lead to `s`. -/
def Taken (to4 : String → Option UInt32) (seq₀ : UInt64) (actions front : List Action) (a : Action)
    (s : Servers) : Prop :=
  front ++ [a] <+: actions ∧ run (step to4) (.start seq₀) front = some s ∧
    (step to4 s a).isSome

theorem Taken.inv {actions front : List Action} {a : Action} (hspaced : Spaced to4 seq₀ actions)
    (h : Taken to4 seq₀ actions front a s) : Inv to4 seq₀ front s := by
  obtain ⟨⟨back, rfl⟩, hrun, -⟩ := h
  rw [List.append_assoc] at hspaced
  exact inv_run hspaced.of_append hrun

/-- Requests are isolated: a registration overwrites nothing and no open registration has
its id; a clean-up deletes the entry of its own channel; and what is received on a
channel was handed to `Deliver` under the receiver's id while it was registered. -/
theorem requests_isolated (to4 : String → Option UInt32) (seq₀ : UInt64) (actions : List Action)
    (hspaced : Spaced to4 seq₀ actions) :
    (∀ front c s reqID born, Taken to4 seq₀ actions front (.register c) s →
      s.conns c = .holding reqID born →
      s.disagg.waiters.val reqID = none ∧ ∀ c' born' ch', s.reg c' ≠ some (reqID, born', ch')) ∧
    (∀ front c s reqID born ch, Taken to4 seq₀ actions front (.cleanup c) s →
      s.reg c = some (reqID, born, ch) → s.disagg.waiters.val reqID = some ch) ∧
    (∀ front c s reqID born ch data d', Taken to4 seq₀ actions front (.receive c) s →
      s.conns c = .waiting reqID born ch → s.disagg.receive ch = some (data, d') →
      ∃ earlier s₁, Taken to4 seq₀ front earlier (.lookup reqID data) s₁ ∧
        s₁.reg c = some (reqID, born, ch)) := by
  refine ⟨?_, ?_, ?_⟩
  · intro front c s reqID born htaken hc
    have hinv := htaken.inv hspaced
    obtain ⟨hpre, hrun, hsome⟩ := htaken
    obtain ⟨s', hs'⟩ := Option.isSome_iff_exists.mp hsome
    have hrecent' : Recent s' := hspaced _ s' hpre (run_concat_eq_some.mpr ⟨s, hrun, hs'⟩)
    have hrecent : Recent s :=
      hspaced front s ((List.prefix_append front [.register c]).trans hpre) hrun
    have hborn : s.generated - born < 2 ^ 24 := born_recent hc hs' hrecent'
    have hfree := free_of_recent hinv.numbered hrecent hc hborn
    exact ⟨hinv.registered.waiters_none hfree, hfree⟩
  · intro front c s reqID born ch htaken hc
    exact ((htaken.inv hspaced).registered.live c reqID born ch hc).1
  · intro front c s reqID born ch data d' htaken hc hrecv
    obtain ⟨-, earlier, back, s₁, c₁, reqID₁, born₁, rfl, hrun₁, hreg₁, huniq⟩ :=
      (htaken.inv hspaced).passed ch data (holds_of_receive hrecv)
    have hreg : s.reg c = some (reqID, born, ch) := by
      unfold Servers.reg
      rw [hc]
      rfl
    obtain ⟨rfl, heq⟩ := huniq c _ hreg rfl
    cases heq
    refine ⟨earlier, s₁, ⟨?_, hrun₁, ?_⟩, hreg₁⟩
    · exact ⟨back, by simp⟩
    · have hrun := htaken.2.1
      rw [run_append, hrun₁, Option.bind_some, run_cons, Option.bind_eq_some_iff] at hrun
      obtain ⟨mid, hmid, -⟩ := hrun
      rw [hmid]
      rfl

theorem generated_le_length {actions : List Action}
    (hrun : run (step to4) (.start seq₀) actions = some s) : s.generated ≤ actions.length := by
  apply run_induction (motive := fun actions s => s.generated ≤ actions.length) ?_ ?_ hrun
  · exact Nat.zero_le _
  · intro front s a s' _ ih hs
    have hstep : s'.generated ≤ s.generated + 1 := by
      unfold RequestIds.step at hs
      split at hs
      · contradiction
      · exact generated_le_succ hs
    simp only [List.length_append, List.length_singleton]
    omega

theorem spaced_of_length_lt {actions : List Action} (h : actions.length < 2 ^ 24) :
    Spaced to4 seq₀ actions := by
  intro front s hpre hrun c reqID born ch _
  have hgen := generated_le_length hrun
  have hlen := hpre.length_le
  omega

/-- Two requests of one node wait at once. The answer to the second comes first, and the
first handler is done before the second one takes its answer. -/
def twoRequests : List Action :=
  [.generate 0 "10.0.0.7", .generate 1 "10.0.0.7", .register 1, .register 0,
    .lookup 117440514 [2], .send 0, .lookup 117440513 [1], .send 0, .receive 0, .cleanup 0,
    .receive 1, .cleanup 1]

/-- What the second handler takes was delivered under its own id. -/
theorem twoRequests_isolated :
    ∃ earlier s₁, Taken (fun _ => some 7) 0 (twoRequests.take 10) earlier
        (.lookup 117440514 [2]) s₁ ∧ s₁.reg 1 = some (117440514, 2, 0) := by
  have hspaced : Spaced (fun _ => some 7) 0 twoRequests := spaced_of_length_lt (by decide)
  have htaken : Taken (fun _ => some 7) 0 twoRequests (twoRequests.take 10) (.receive 1) _ :=
    ⟨by decide, rfl, rfl⟩
  exact (requests_isolated _ 0 twoRequests hspaced).2.2 _ 1 _ _ _ _ _ _ htaken rfl rfl

end Arcturus.RequestIsolation
