import Arcturus.GoMaps
import Arcturus.StepRuns

/-!
The disaggregator, which hands responses to the requests that wait for them. A channel
is named by its place in the list of all channels ever made, and the registrant that it
was made for by the same place. `Deliver` is two steps: the look-up under the read lock
and the send after it. A send waits while the channel is full; one on a closed channel
crashes the process, also when it was already waiting.
-/

namespace Arcturus.Disaggregation

open GoMaps StepRuns

/-- A channel of capacity one, with the id that it was registered under. -/
structure Chan where
  userID : UInt32
  buf : Option (List UInt8)
  closed : Bool
  deriving DecidableEq, Repr

/-- A call of `Deliver` that has found a channel and has not sent yet. -/
structure Delivery where
  ch : ℕ
  data : List UInt8
  deriving DecidableEq, Repr

structure Disaggregator where
  waiters : GoMap UInt32 (Option ℕ)
  chans : List Chan
  delivering : List Delivery
  crashed : Bool

def newDisaggregator : Disaggregator where
  waiters := GoMap.empty
  chans := []
  delivering := []
  crashed := false

namespace Disaggregator

variable (d : Disaggregator)

def register (userID : UInt32) : Disaggregator :=
  { d with
    chans := d.chans ++ [{ userID, buf := none, closed := false }]
    waiters := d.waiters.set userID (some d.chans.length) }

/-- The function that `Register` returns; its registrant calls it once. -/
def cleanup (ch : ℕ) : Option Disaggregator :=
  match d.chans[ch]? with
  | none => none
  | some c =>
    if c.closed then none
    else some { d with
      waiters := d.waiters.erase c.userID
      chans := d.chans.set ch { c with closed := true } }

/-- The first step of `Deliver`; without a waiter there is no second one. -/
def lookup (userID : UInt32) (data : List UInt8) : Disaggregator :=
  match d.waiters.val userID with
  | none => d
  | some ch => { d with delivering := d.delivering ++ [{ ch, data }] }

/-- The second step of the `k`-th of the calls of `Deliver` in progress. -/
def send (k : ℕ) : Option Disaggregator :=
  match d.delivering[k]? with
  | none => none
  | some del =>
    match d.chans[del.ch]? with
    | none => none
    | some c =>
      if c.closed then some { d with crashed := true }
      else if c.buf.isSome then none
      else some { d with
        chans := d.chans.set del.ch { c with buf := some del.data }
        delivering := d.delivering.eraseIdx k }

/-- The registrant takes a response from its channel. -/
def receive (ch : ℕ) : Option (List UInt8 × Disaggregator) :=
  match d.chans[ch]? with
  | none => none
  | some c =>
    c.buf.map fun data => (data, { d with chans := d.chans.set ch { c with buf := none } })

end Disaggregator

inductive Action where
  | register (userID : UInt32)
  | cleanup (ch : ℕ)
  | lookup (userID : UInt32) (data : List UInt8)
  | send (k : ℕ)
  | receive (ch : ℕ)
  deriving DecidableEq, Repr

def step (d : Disaggregator) (a : Action) : Option Disaggregator :=
  if d.crashed then none
  else
    match a with
    | .register userID => some (d.register userID)
    | .cleanup ch => d.cleanup ch
    | .lookup userID data => some (d.lookup userID data)
    | .send k => d.send k
    | .receive ch => (d.receive ch).map Prod.snd

/-- No call of `Deliver` has found the channel that is cleaned up and has not sent yet. -/
def Settled (d : Disaggregator) : Action → Prop
  | .cleanup ch => ∀ del ∈ d.delivering, del.ch ≠ ch
  | _ => True

/-- The channel a user id is registered with carries this id and is open, and so is
every channel that a delivery has found. -/
structure Open (d : Disaggregator) : Prop where
  waiting : ∀ userID ch, d.waiters.val userID = some ch →
    ∃ c, d.chans[ch]? = some c ∧ c.userID = userID ∧ c.closed = false
  delivering : ∀ del ∈ d.delivering, ∃ c, d.chans[del.ch]? = some c ∧ c.closed = false
  running : d.crashed = false

theorem open_newDisaggregator : Open newDisaggregator where
  waiting := by
    intro userID ch h
    simp [newDisaggregator, GoMap.empty] at h
  delivering := by simp [newDisaggregator]
  running := rfl

variable {d d' : Disaggregator}

theorem Open.register (h : Open d) (userID : UInt32) : Open (d.register userID) where
  waiting := by
    intro u ch hu
    unfold Disaggregator.register at hu
    by_cases he : u = userID
    · subst he
      simp only [GoMap.set_val_same, Option.some.injEq] at hu
      subst hu
      exact ⟨_, List.getElem?_concat_length, rfl, rfl⟩
    · rw [GoMap.set_val_of_ne _ _ he] at hu
      obtain ⟨c, hc, hcu⟩ := h.waiting u ch hu
      exact ⟨c, List.getElem?_append_left (List.getElem?_eq_some_iff.mp hc).1 ▸ hc, hcu⟩
  delivering := by
    intro del hdel
    obtain ⟨c, hc, hopen⟩ := h.delivering del hdel
    exact ⟨c, List.getElem?_append_left (List.getElem?_eq_some_iff.mp hc).1 ▸ hc, hopen⟩
  running := h.running

theorem Open.lookup (h : Open d) (userID : UInt32) (data : List UInt8) :
    Open (d.lookup userID data) := by
  unfold Disaggregator.lookup
  split
  · exact h
  · rename_i ch hch
    refine ⟨h.waiting, ?_, h.running⟩
    intro del hdel
    rcases List.mem_append.mp hdel with hold | hnew
    · exact h.delivering del hold
    · cases List.mem_singleton.mp hnew
      obtain ⟨c, hc, -, hopen⟩ := h.waiting userID ch hch
      exact ⟨c, hc, hopen⟩

/-- What a channel holds does not matter to what is open. -/
theorem Open.setBuf (h : Open d) {i : ℕ} {c : Chan} (hc : d.chans[i]? = some c)
    (buf : Option (List UInt8)) {delivering : List Delivery}
    (hsub : ∀ del ∈ delivering, del ∈ d.delivering) :
    Open { d with chans := d.chans.set i { c with buf }, delivering } := by
  have hkeep : ∀ (j : ℕ) (e : Chan), d.chans[j]? = some e →
      ∃ e' : Chan, (d.chans.set i { c with buf })[j]? = some e' ∧ e'.userID = e.userID ∧
        e'.closed = e.closed := by
    intro j e he
    by_cases hij : i = j
    · subst hij
      cases Option.some.inj (hc.symm.trans he)
      exact ⟨_, List.getElem?_set_self (List.getElem?_eq_some_iff.mp hc).1, rfl, rfl⟩
    · exact ⟨e, by simpa [hij] using he, rfl, rfl⟩
  refine ⟨?_, ?_, h.running⟩
  · intro u ch hu
    obtain ⟨e, he, heu, hopen⟩ := h.waiting u ch hu
    obtain ⟨e', he', hid', hcl'⟩ := hkeep ch e he
    exact ⟨e', he', hid'.trans heu, hcl'.trans hopen⟩
  · intro del hdel
    obtain ⟨e, he, hopen⟩ := h.delivering del (hsub del hdel)
    obtain ⟨e', he', -, hcl'⟩ := hkeep del.ch e he
    exact ⟨e', he', hcl'.trans hopen⟩

theorem Open.send (h : Open d) {k : ℕ} (hs : d.send k = some d') : Open d' := by
  unfold Disaggregator.send at hs
  split at hs
  · contradiction
  · rename_i del hdel
    obtain ⟨e, he, hopen⟩ := h.delivering del (List.mem_of_getElem? hdel)
    split at hs
    · contradiction
    · rename_i c hc
      cases Option.some.inj (he.symm.trans hc)
      split at hs
      · simp_all
      · split at hs
        · contradiction
        · cases Option.some.inj hs
          apply h.setBuf hc
          intro x hx
          exact List.mem_of_mem_eraseIdx hx

theorem Open.receive (h : Open d) {ch : ℕ} {data : List UInt8}
    (hr : d.receive ch = some (data, d')) : Open d' := by
  unfold Disaggregator.receive at hr
  split at hr
  · contradiction
  · rename_i c hc
    rw [Option.map_eq_some_iff] at hr
    obtain ⟨data', -, heq⟩ := hr
    cases heq
    apply h.setBuf hc
    simp

theorem Open.cleanup (h : Open d) {ch : ℕ} (hset : ∀ del ∈ d.delivering, del.ch ≠ ch)
    (hs : d.cleanup ch = some d') : Open d' := by
  unfold Disaggregator.cleanup at hs
  split at hs
  · contradiction
  · rename_i c hc
    split at hs
    · contradiction
    · cases Option.some.inj hs
      have hother : ∀ j, j ≠ ch → (d.chans.set ch { c with closed := true })[j]? = d.chans[j]? := by
        intro j hj
        simp [hj.symm]
      refine ⟨?_, ?_, h.running⟩
      · intro u j hu
        by_cases hucl : u = c.userID
        · subst hucl
          simp at hu
        · simp only [GoMap.erase_val_of_ne _ hucl] at hu
          obtain ⟨e, he, heu, hopen⟩ := h.waiting u j hu
          have hj : j ≠ ch := by
            intro heq
            subst heq
            cases Option.some.inj (hc.symm.trans he)
            exact hucl heu.symm
          exact ⟨e, (hother j hj).trans he, heu, hopen⟩
      · intro del hdel
        obtain ⟨e, he, hopen⟩ := h.delivering del hdel
        exact ⟨e, (hother del.ch (hset del hdel)).trans he, hopen⟩

theorem Open.step {a : Action} (h : Open d) (hset : Settled d a) (hs : step d a = some d') :
    Open d' := by
  unfold Disaggregation.step at hs
  rw [h.running] at hs
  cases a with
  | register userID => exact Option.some.inj hs ▸ h.register userID
  | cleanup ch => exact h.cleanup hset hs
  | lookup userID data => exact Option.some.inj hs ▸ h.lookup userID data
  | send k => exact h.send hs
  | receive ch =>
    obtain ⟨⟨data, e⟩, hr, rfl⟩ := Option.map_eq_some_iff.mp hs
    exact h.receive hr

section Effects

/-- The id each channel was registered under. -/
def Disaggregator.userIDs (d : Disaggregator) : List UInt32 := d.chans.map Chan.userID

/-- The channel holds the data, or a delivery is about to send it there. -/
def Holds (d : Disaggregator) (ch : ℕ) (data : List UInt8) : Prop :=
  { ch, data } ∈ d.delivering ∨ ∃ c, d.chans[ch]? = some c ∧ c.buf = some data

@[simp] theorem userIDs_register (userID : UInt32) :
    (d.register userID).userIDs = d.userIDs ++ [userID] := by
  simp [Disaggregator.userIDs, Disaggregator.register]

@[simp] theorem userIDs_lookup (userID : UInt32) (data : List UInt8) :
    (d.lookup userID data).userIDs = d.userIDs := by
  unfold Disaggregator.lookup
  split <;> rfl

@[simp] theorem waiters_lookup (userID : UInt32) (data : List UInt8) :
    (d.lookup userID data).waiters = d.waiters := by
  unfold Disaggregator.lookup
  split <;> rfl

theorem map_userID_set {chans : List Chan} {i : ℕ} {c c' : Chan} (hc : chans[i]? = some c)
    (hid : c'.userID = c.userID) : (chans.set i c').map Chan.userID = chans.map Chan.userID := by
  obtain ⟨hi, rfl⟩ := List.getElem?_eq_some_iff.mp hc
  apply List.ext_getElem?
  intro j
  by_cases hij : i = j
  · subst hij
    simp [hi, hid]
  · simp [hij]

/-- A channel that holds something after it was set to hold `buf` held it before, or
holds what is in `buf`. -/
theorem buf_set {chans : List Chan} {i ch : ℕ} {c c' : Chan} {data : List UInt8}
    (h : ∃ e, (chans.set i c')[ch]? = some e ∧ e.buf = some data) (hc : chans[i]? = some c) :
    (∃ e, chans[ch]? = some e ∧ e.buf = some data) ∨ ch = i ∧ c'.buf = some data := by
  obtain ⟨e, he, hdata⟩ := h
  by_cases hi : i = ch
  · subst hi
    rw [List.getElem?_set_self (List.getElem?_eq_some_iff.mp hc).1] at he
    cases Option.some.inj he
    exact Or.inr ⟨rfl, hdata⟩
  · rw [List.getElem?_set_ne hi] at he
    exact Or.inl ⟨e, he, hdata⟩

theorem Holds.of_register {userID : UInt32} {ch : ℕ} {data : List UInt8}
    (h : Holds (d.register userID) ch data) : Holds d ch data := by
  rcases h with hdel | ⟨c, hc, hdata⟩
  · exact Or.inl hdel
  · refine Or.inr ⟨c, ?_, hdata⟩
    unfold Disaggregator.register at hc
    rcases Nat.lt_or_ge ch d.chans.length with hlt | hge
    · rwa [List.getElem?_append_left hlt] at hc
    · rw [List.getElem?_append_right hge] at hc
      have hmem := List.mem_of_getElem? hc
      cases List.mem_singleton.mp hmem
      contradiction

theorem Holds.of_lookup {userID : UInt32} {data data' : List UInt8} {ch : ℕ}
    (h : Holds (d.lookup userID data') ch data) :
    Holds d ch data ∨ d.waiters.val userID = some ch ∧ data = data' := by
  unfold Disaggregator.lookup at h
  split at h
  · exact Or.inl h
  · rename_i ch' hch
    rcases h with hdel | hbuf
    · rcases List.mem_append.mp hdel with hold | hnew
      · exact Or.inl (Or.inl hold)
      · cases List.mem_singleton.mp hnew
        exact Or.inr ⟨hch, rfl⟩
    · exact Or.inl (Or.inr hbuf)

/-- A step of a delivery or of the one who waits: who is registered under which id stays
as it is, and data only moves from the delivery to the channel it was for. -/
structure Moves (d d' : Disaggregator) : Prop where
  waiters : d'.waiters = d.waiters
  userIDs : d'.userIDs = d.userIDs
  holds : ∀ ch data, Holds d' ch data → Holds d ch data

theorem moves_send {k : ℕ} (hs : d.send k = some d') : Moves d d' := by
  unfold Disaggregator.send at hs
  split at hs
  · contradiction
  · rename_i del hdel
    split at hs
    · contradiction
    · rename_i c hc
      split at hs
      · cases Option.some.inj hs
        exact ⟨rfl, rfl, fun _ _ h => h⟩
      · split at hs
        · contradiction
        · cases Option.some.inj hs
          refine ⟨rfl, map_userID_set hc rfl, ?_⟩
          intro ch data h
          rcases h with hd | hbuf
          · exact Or.inl (List.mem_of_mem_eraseIdx hd)
          · rcases buf_set hbuf hc with hold | ⟨rfl, hnew⟩
            · exact Or.inr hold
            · cases Option.some.inj hnew
              exact Or.inl (List.mem_of_getElem? hdel)

theorem moves_receive {ch : ℕ} {data : List UInt8} (hr : d.receive ch = some (data, d')) :
    Moves d d' := by
  unfold Disaggregator.receive at hr
  split at hr
  · contradiction
  · rename_i c hc
    obtain ⟨_, -, heq⟩ := Option.map_eq_some_iff.mp hr
    cases heq
    refine ⟨rfl, map_userID_set hc rfl, ?_⟩
    intro i x h
    rcases h with hd | hbuf
    · exact Or.inl hd
    · rcases buf_set hbuf hc with hold | ⟨-, hnew⟩
      · exact Or.inr hold
      · contradiction

/-- What is received was in the channel. -/
theorem holds_of_receive {ch : ℕ} {data : List UInt8} (hr : d.receive ch = some (data, d')) :
    Holds d ch data := by
  unfold Disaggregator.receive at hr
  split at hr
  · contradiction
  · rename_i c hc
    obtain ⟨x, hx, heq⟩ := Option.map_eq_some_iff.mp hr
    cases heq
    exact Or.inr ⟨c, hc, hx⟩

/-- Cleaning up deletes what stands under the id of the channel, whatever it is. -/
theorem cleanup_effect {ch : ℕ} (hs : d.cleanup ch = some d') :
    ∃ userID, d.userIDs[ch]? = some userID ∧ d'.waiters = d.waiters.erase userID ∧
      d'.userIDs = d.userIDs ∧ ∀ i data, Holds d' i data → Holds d i data := by
  unfold Disaggregator.cleanup at hs
  split at hs
  · contradiction
  · rename_i c hc
    split at hs
    · contradiction
    · cases Option.some.inj hs
      refine ⟨c.userID, by simp [Disaggregator.userIDs, hc], rfl, map_userID_set hc rfl, ?_⟩
      intro i data h
      rcases h with hd | hbuf
      · exact Or.inl hd
      · rcases buf_set hbuf hc with hold | ⟨rfl, hnew⟩
        · exact Or.inr hold
        · exact Or.inr ⟨c, hc, hnew⟩

end Effects

/-- In every run in which no registrant cleans up while a delivery that has found its
channel has still to send, no send meets a closed channel. -/
theorem deliver_never_crashes (actions : List Action)
    (hsettled : AllSteps step Settled newDisaggregator actions)
    (hrun : run step newDisaggregator actions = some d) : d.crashed = false :=
  (run_invariant (fun _ _ _ h hset hs => Open.step h hset hs) open_newDisaggregator hsettled
    hrun).running

/-- A response that is sent before the registrant cleans up. -/
def answeredInTime : List Action :=
  [.register 7, .lookup 7 [1], .send 0, .receive 0, .cleanup 0]

theorem answeredInTime_does_not_crash :
    ∃ d, run step newDisaggregator answeredInTime = some d ∧ d.crashed = false := by
  have hall : AllSteps step Settled newDisaggregator answeredInTime := by
    refine .cons trivial rfl (.cons trivial rfl (.cons trivial rfl (.cons trivial rfl ?_)))
    refine .cons ?_ rfl trivial
    intro del hdel
    cases hdel
  exact ⟨_, rfl, deliver_never_crashes answeredInTime hall rfl⟩

/-- The registrant gives up between the two steps of `Deliver`. -/
theorem cleanup_between_lookup_and_send :
    (run step newDisaggregator [.register 7, .lookup 7 [1], .cleanup 0, .send 0]).map
      (·.crashed) = some true := by
  rfl

end Arcturus.Disaggregation
