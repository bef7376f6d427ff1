import Arcturus.Disaggregation
import Mathlib.Data.Nat.Bitwise

/-!
The ids of requests and the connection handlers that wait under them. An id is the last
octet of the client's address over the low twenty-four bits of a counter that all
handlers share. A handler draws an id, may keep it for any time, registers it, takes at
most one response and cleans up; a handler for a kept-alive connection then draws the
next one. What other goroutines deliver is arbitrary.
-/

namespace Arcturus.RequestIds

open GoMaps StepRuns Disaggregation

/-- The id and the new value of the counter, where `to4` gives the four-byte form of an
address in text form, if it has one. -/
def genShortReqID (to4 : String → Option UInt32) (clientIP : String) (reqSeq : UInt64) :
    UInt32 × UInt64 :=
  let seq := reqSeq + 1
  let ipSegment : UInt32 := match to4 clientIP with
    | some ip => ip &&& 0xFF
    | none => 0
  ((ipSegment <<< 24) ||| (seq.toUInt32 &&& 0xFFFFFF), seq)

/-- A connection handler: without an id, with one that is not registered, waiting on the
channel it was registered with, and after it has received from it. The number `born`
counts the ids drawn up to its own. -/
inductive Conn where
  | idle
  | holding (reqID : UInt32) (born : ℕ)
  | waiting (reqID : UInt32) (born : ℕ) (ch : ℕ)
  | served (reqID : UInt32) (born : ℕ) (ch : ℕ)
  deriving DecidableEq, Repr

/-- The id that a handler has drawn. -/
def Conn.issued : Conn → Option (UInt32 × ℕ)
  | .idle => none
  | .holding reqID born => some (reqID, born)
  | .waiting reqID born _ => some (reqID, born)
  | .served reqID born _ => some (reqID, born)

/-- The id and the channel of a registration that is not cleaned up. -/
def Conn.registration : Conn → Option (UInt32 × ℕ × ℕ)
  | .waiting reqID born ch => some (reqID, born, ch)
  | .served reqID born ch => some (reqID, born, ch)
  | _ => none

structure Servers where
  reqSeq : UInt64
  generated : ℕ
  disagg : Disaggregator
  conns : ℕ → Conn

def Servers.start (reqSeq : UInt64) : Servers where
  reqSeq := reqSeq
  generated := 0
  disagg := newDisaggregator
  conns := fun _ => .idle

inductive Action where
  | generate (c : ℕ) (clientIP : String)
  | abandon (c : ℕ)
  | register (c : ℕ)
  | receive (c : ℕ)
  | cleanup (c : ℕ)
  | lookup (userID : UInt32) (data : List UInt8)
  | send (k : ℕ)
  deriving DecidableEq, Repr

def stepRunning (to4 : String → Option UInt32) (s : Servers) : Action → Option Servers
  | .generate c clientIP =>
    match s.conns c with
    | .idle =>
      let (reqID, seq) := genShortReqID to4 clientIP s.reqSeq
      some { s with
        reqSeq := seq
        generated := s.generated + 1
        conns := Function.update s.conns c (.holding reqID (s.generated + 1)) }
    | _ => none
  | .abandon c =>
    match s.conns c with
    | .holding _ _ => some { s with conns := Function.update s.conns c .idle }
    | _ => none
  | .register c =>
    match s.conns c with
    | .holding reqID born =>
      some { s with
        disagg := s.disagg.register reqID
        conns := Function.update s.conns c (.waiting reqID born s.disagg.chans.length) }
    | _ => none
  | .receive c =>
    match s.conns c with
    | .waiting reqID born ch =>
      (s.disagg.receive ch).map fun r =>
        { s with disagg := r.2, conns := Function.update s.conns c (.served reqID born ch) }
    | _ => none
  | .cleanup c =>
    -- The handler has received or has waited long enough.
    match (s.conns c).registration with
    | some (_, _, ch) =>
      (s.disagg.cleanup ch).map fun disagg =>
        { s with disagg, conns := Function.update s.conns c .idle }
    | none => none
  | .lookup userID data => some { s with disagg := s.disagg.lookup userID data }
  | .send k => (s.disagg.send k).map fun disagg => { s with disagg }

def step (to4 : String → Option UInt32) (s : Servers) (a : Action) : Option Servers :=
  if s.disagg.crashed then none else stepRunning to4 s a

theorem genShortReqID_low (to4 : String → Option UInt32) (clientIP : String) (reqSeq : UInt64) :
    (genShortReqID to4 clientIP reqSeq).1.toNat % 2 ^ 24 = (reqSeq.toNat + 1) % 2 ^ 24 := by
  have hmask : (0xFFFFFF : UInt32).toNat = 2 ^ 24 - 1 := rfl
  have hshift : ((24 : UInt32).toNat % 32) = 24 := rfl
  simp only [genShortReqID, UInt32.toNat_or, UInt32.toNat_and, UInt32.toNat_shiftLeft, hshift,
    hmask, Nat.or_mod_two_pow, Nat.and_two_pow_sub_one_eq_mod, Nat.mod_mod, Nat.shiftLeft_eq]
  rw [Nat.mod_mod_of_dvd _ (show 2 ^ 24 ∣ 2 ^ 32 by decide), Nat.mul_mod_left, Nat.zero_or,
    UInt64.toNat_toUInt32, UInt64.toNat_add, Nat.mod_mod_of_dvd _ (show 2 ^ 24 ∣ 2 ^ 32 by decide)]
  exact Nat.mod_mod_of_dvd _ (show 2 ^ 24 ∣ 2 ^ 64 by decide)

theorem genShortReqID_seq (to4 : String → Option UInt32) (clientIP : String) (reqSeq : UInt64) :
    (genShortReqID to4 clientIP reqSeq).2.toNat = (reqSeq.toNat + 1) % 2 ^ 64 := by
  unfold genShortReqID
  exact UInt64.toNat_add reqSeq 1

/-- The registration that a handler has open. -/
def Servers.reg (s : Servers) (c : ℕ) : Option (UInt32 × ℕ × ℕ) := (s.conns c).registration

/-- The ids that handlers have drawn carry the low bits of different counter values. -/
structure Numbered (seq₀ : UInt64) (s : Servers) : Prop where
  seq : s.reqSeq.toNat = (seq₀.toNat + s.generated) % 2 ^ 64
  low : ∀ c reqID born, (s.conns c).issued = some (reqID, born) →
    born ≤ s.generated ∧ reqID.toNat % 2 ^ 24 = (seq₀.toNat + born) % 2 ^ 24
  distinct : ∀ c c' reqID reqID' born, (s.conns c).issued = some (reqID, born) →
    (s.conns c').issued = some (reqID', born) → c = c'

theorem numbered_start (seq₀ : UInt64) : Numbered seq₀ (Servers.start seq₀) where
  seq := by
    have hlt := seq₀.toNat_lt
    simp [Servers.start, Nat.mod_eq_of_lt hlt]
  low := by simp [Servers.start, Conn.issued]
  distinct := by simp [Servers.start, Conn.issued]

variable {to4 : String → Option UInt32} {seq₀ : UInt64} {s s' : Servers}

/-- A handler that draws nothing keeps the ids numbered. -/
theorem Numbered.keep (h : Numbered seq₀ s) (hseq : s'.reqSeq = s.reqSeq)
    (hgen : s'.generated = s.generated)
    (hiss : ∀ c r, (s'.conns c).issued = some r → (s.conns c).issued = some r) :
    Numbered seq₀ s' where
  seq := by rw [hseq, hgen, h.seq]
  low := by
    intro c reqID born hc
    rw [hgen]
    exact h.low c reqID born (hiss c _ hc)
  distinct := by
    intro c c' reqID reqID' born hc hc'
    exact h.distinct c c' reqID reqID' born (hiss c _ hc) (hiss c' _ hc')

theorem issued_update {conns : ℕ → Conn} {i : ℕ} {x : Conn} {c : ℕ} {r : UInt32 × ℕ}
    (hx : x.issued = none ∨ x.issued = (conns i).issued)
    (h : (Function.update conns i x c).issued = some r) : (conns c).issued = some r := by
  by_cases hc : c = i
  · subst hc
    rw [Function.update_self] at h
    rcases hx with hnone | hsame
    · rw [hnone] at h
      contradiction
    · rwa [← hsame]
  · rwa [Function.update_of_ne hc] at h

theorem Numbered.generate (h : Numbered seq₀ s) (c : ℕ) (clientIP : String) :
    Numbered seq₀ { s with
      reqSeq := (genShortReqID to4 clientIP s.reqSeq).2
      generated := s.generated + 1
      conns := Function.update s.conns c
        (.holding (genShortReqID to4 clientIP s.reqSeq).1 (s.generated + 1)) } where
  seq := by
    change (genShortReqID to4 clientIP s.reqSeq).2.toNat = (seq₀.toNat + (s.generated + 1)) % 2 ^ 64
    rw [genShortReqID_seq, h.seq]
    omega
  low := by
    intro i reqID born hi
    by_cases hc : i = c
    · subst hc
      simp only [Function.update_self, Conn.issued, Option.some.injEq, Prod.mk.injEq] at hi
      obtain ⟨rfl, rfl⟩ := hi
      refine ⟨le_rfl, ?_⟩
      rw [genShortReqID_low, h.seq]
      omega
    · simp only [Function.update_of_ne hc] at hi
      obtain ⟨hle, hlow⟩ := h.low i reqID born hi
      exact ⟨Nat.le_succ_of_le hle, hlow⟩
  distinct := by
    intro i j reqID reqID' born hi hj
    have hfresh : ∀ k r, k ≠ c → (s.conns k).issued = some (r, born) → born ≤ s.generated := by
      intro k r _ hk
      exact (h.low k r born hk).1
    by_cases hic : i = c
    · by_cases hjc : j = c
      · exact hic.trans hjc.symm
      · subst hic
        simp only [Function.update_self, Conn.issued, Option.some.injEq, Prod.mk.injEq] at hi
        simp only [Function.update_of_ne hjc] at hj
        have := hfresh j reqID' hjc hj
        omega
    · by_cases hjc : j = c
      · subst hjc
        simp only [Function.update_self, Conn.issued, Option.some.injEq, Prod.mk.injEq] at hj
        simp only [Function.update_of_ne hic] at hi
        have := hfresh i reqID hic hi
        omega
      · simp only [Function.update_of_ne hic] at hi
        simp only [Function.update_of_ne hjc] at hj
        exact h.distinct i j reqID reqID' born hi hj

theorem Numbered.step {a : Action} (h : Numbered seq₀ s) (hs : stepRunning to4 s a = some s') :
    Numbered seq₀ s' := by
  cases a with
  | generate c clientIP =>
    simp only [stepRunning] at hs
    split at hs
    · cases Option.some.inj hs
      exact h.generate c clientIP
    · contradiction
  | abandon c =>
    simp only [stepRunning] at hs
    split at hs
    · cases Option.some.inj hs
      exact h.keep rfl rfl fun i r hi => issued_update (Or.inl rfl) hi
    · contradiction
  | register c =>
    simp only [stepRunning] at hs
    split at hs
    · rename_i reqID born hc
      cases Option.some.inj hs
      exact h.keep rfl rfl fun i r hi => issued_update (Or.inr (by rw [hc]; rfl)) hi
    · contradiction
  | receive c =>
    simp only [stepRunning] at hs
    split at hs
    · rename_i reqID born ch hc
      obtain ⟨r, -, rfl⟩ := Option.map_eq_some_iff.mp hs
      exact h.keep rfl rfl fun i r hi => issued_update (Or.inr (by rw [hc]; rfl)) hi
    · contradiction
  | cleanup c =>
    simp only [stepRunning] at hs
    split at hs
    · obtain ⟨d, -, rfl⟩ := Option.map_eq_some_iff.mp hs
      exact h.keep rfl rfl fun i r hi => issued_update (Or.inl rfl) hi
    · contradiction
  | lookup userID data =>
    cases Option.some.inj hs
    exact h.keep rfl rfl fun i r hi => hi
  | send k =>
    obtain ⟨d, -, rfl⟩ := Option.map_eq_some_iff.mp hs
    exact h.keep rfl rfl fun i r hi => hi

theorem generated_le_succ {a : Action} (hs : stepRunning to4 s a = some s') :
    s'.generated ≤ s.generated + 1 := by
  unfold stepRunning at hs
  split at hs
  case h_6 => exact Option.some.inj hs ▸ Nat.le_succ _
  case h_7 =>
    obtain ⟨d, -, rfl⟩ := Option.map_eq_some_iff.mp hs
    exact Nat.le_succ _
  all_goals split at hs
  all_goals first
    | contradiction
    | exact Option.some.inj hs ▸ Nat.le_succ _
    | exact Option.some.inj hs ▸ le_rfl
    | (obtain ⟨d, -, rfl⟩ := Option.map_eq_some_iff.mp hs
       exact Nat.le_succ _)

end Arcturus.RequestIds
