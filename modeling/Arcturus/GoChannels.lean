import Mathlib.Data.List.Basic

/-!
Buffered channels: a queue of bounded length that may be closed. A send waits for room
and panics on a closed channel. A receive takes the oldest value, waits on an empty open
channel, and gets no value from a closed one once the queue is empty; a receiver that
does not ask for that case goes on with the zero value.
-/

namespace Arcturus.GoChannels

structure Chan (α : Type*) where
  cap : ℕ
  queue : List α
  closed : Bool

/-- What comes of a send. -/
inductive Sending (α : Type*) where
  | waits
  | panics
  | sent (c : Chan α)

namespace Chan

variable {α : Type*}

def make (cap : ℕ) : Chan α := ⟨cap, [], false⟩

def send (c : Chan α) (x : α) : Sending α :=
  if c.closed then .panics
  else if c.queue.length < c.cap then .sent { c with queue := c.queue ++ [x] }
  else .waits

/-- There is no result as long as the receive waits. -/
def receive (c : Chan α) : Option (Option α × Chan α) :=
  match c.queue with
  | x :: queue => some (some x, { c with queue })
  | [] => if c.closed then some (none, c) else none

def close (c : Chan α) : Chan α := { c with closed := true }

variable {c c' : Chan α} {x : α}

theorem send_eq_panics_iff : c.send x = .panics ↔ c.closed = true := by
  unfold send
  split
  · rename_i hclosed
    simp [hclosed]
  · split
    · rename_i hopen _
      simp [hopen]
    · rename_i hopen _
      simp [hopen]

theorem send_eq_sent (h : c.send x = .sent c') : c' = { c with queue := c.queue ++ [x] } := by
  unfold send at h
  split at h
  · cases h
  · split at h
    · cases h
      rfl
    · cases h

theorem queue_of_send (h : c.send x = .sent c') : c'.queue = c.queue ++ [x] := by
  rw [send_eq_sent h]

theorem closed_of_send (h : c.send x = .sent c') : c'.closed = c.closed := by
  rw [send_eq_sent h]

theorem queue_of_receive_some (h : c.receive = some (some x, c')) : c.queue = x :: c'.queue := by
  unfold receive at h
  split at h
  · rename_i hqueue
    cases h
    exact hqueue
  · split at h
    · cases h
    · cases h

/-- Only a closed and empty channel has no value for a receiver that does not wait. -/
theorem receive_eq_none_iff : c.receive = some (none, c') ↔
    c.queue = [] ∧ c.closed = true ∧ c' = c := by
  unfold receive
  split
  · rename_i hqueue
    simp [hqueue]
  · rename_i hqueue
    split
    · rename_i hclosed
      simp [hqueue, hclosed, eq_comm]
    · rename_i hopen
      simp [hopen]

theorem closed_of_receive {r : Option α} (h : c.receive = some (r, c')) :
    c'.closed = c.closed := by
  unfold receive at h
  split at h
  · cases h
    rfl
  · split at h
    · cases h
      rfl
    · cases h

end Chan

end Arcturus.GoChannels
