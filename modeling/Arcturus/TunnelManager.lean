import Arcturus.Addresses
import Arcturus.GoMaps
import Arcturus.StepRuns

/-!
The connections to other nodes and the calls of `SendPacket` that share them. A call
finds the connection to its address or dials one, opens a stream, writes its data, and
closes the tunnel after a failure; any number of calls may be under way, and each of
these is one step. Whether a stream opens or takes the data is left to the connection.
Log records and the closing of streams are left out.
-/

namespace Arcturus.TunnelManager

open Addresses GoMaps StepRuns

def quicPort : String := "4433"

/-- A connection that was dialled, with the data of its streams. -/
structure Connection where
  addr : String
  closed : Bool
  written : List (List UInt8)
  deriving DecidableEq, Repr

/-- A connection is known by its number in the order of dialling. -/
structure Manager where
  tunnels : GoMap String ℕ
  conns : List Connection

/-- What comes of dialling. -/
inductive Dial where
  | resolveError (err : String)
  | listenError (err : String)
  | dialError (err : String)
  | established
  deriving DecidableEq, Repr

namespace Manager

def find (m : Manager) (addr : String) : Option ℕ :=
  if addr ∈ m.tunnels.keys then some (m.tunnels.val addr) else none

def dial (m : Manager) (addr : String) : Manager :=
  ⟨m.tunnels.set addr m.conns.length, m.conns ++ [⟨addr, false, []⟩]⟩

/-- The part of `GetOrCreateTunnel` under the write lock, which looks once more. -/
def createTunnel (m : Manager) (addr : String) (outcome : Dial) : Manager × Except String ℕ :=
  match m.find addr with
  | some conn => (m, .ok conn)
  | none =>
    match outcome with
    | .resolveError err => (m, .error err)
    | .listenError err => (m, .error err)
    | .dialError err => (m, .error err)
    | .established => (m.dial addr, .ok m.conns.length)

def write (m : Manager) (conn : ℕ) (data : List UInt8) : Manager :=
  { m with conns := m.conns.modify conn fun c => { c with written := c.written ++ [data] } }

/-- The connection is found by the address, whichever it is by now. -/
def closeTunnel (m : Manager) (addr : String) : Manager :=
  match m.find addr with
  | some conn =>
    ⟨m.tunnels.erase addr, m.conns.modify conn fun c => { c with closed := true }⟩
  | none => m

end Manager

/-- Where a call of `SendPacket` is. -/
inductive Phase where
  | lookup
  | create
  | openStream (conn : ℕ)
  | write (conn : ℕ)
  | close (conn : ℕ) (err : String)
  | returned (err : Option String)
  deriving DecidableEq, Repr

structure Sender where
  remoteIP : String
  data : List UInt8
  phase : Phase
  deriving DecidableEq, Repr

def Sender.addr (x : Sender) : String := joinHostPort x.remoteIP quicPort

structure Sys where
  manager : Manager
  senders : List Sender

def newTunnelManager : Sys := ⟨⟨GoMap.empty, []⟩, []⟩

/-- What a call does next, with what the network makes of it. -/
inductive Move where
  | lookup
  | create (outcome : Dial)
  | openStream (err : Option String)
  | write (err : Option String)
  | close
  deriving DecidableEq, Repr

/-- The body of `SendPacket`, one step at a time. -/
def proceed (m : Manager) (x : Sender) (move : Move) : Option (Manager × Phase) :=
  match x.phase, move with
  | .lookup, .lookup =>
    match m.find x.addr with
    | some conn => some (m, .openStream conn)
    | none => some (m, .create)
  | .create, .create outcome =>
    match m.createTunnel x.addr outcome with
    | (m', .ok conn) => some (m', .openStream conn)
    | (m', .error err) => some (m', .returned (some err))
  | .openStream conn, .openStream (some err) => some (m, .close conn err)
  | .openStream conn, .openStream none => some (m, .write conn)
  | .write conn, .write (some err) => some (m, .close conn err)
  | .write conn, .write none => some (m.write conn x.data, .returned none)
  | .close _ err, .close => some (m.closeTunnel x.addr, .returned (some err))
  | _, _ => none

/-- An address is given in its text form, if it is not nil. -/
inductive Action where
  | sendPacket (remoteIP : Option String) (data : List UInt8)
  | proceed (i : ℕ) (move : Move)
  deriving DecidableEq, Repr

def call (remoteIP : Option String) (data : List UInt8) : Sender :=
  match remoteIP with
  | none => ⟨"<nil>", data, .returned (some "remote ip is nil")⟩
  | some ip => ⟨ip, data, .lookup⟩

def step (s : Sys) : Action → Option Sys
  | .sendPacket remoteIP data => some { s with senders := s.senders ++ [call remoteIP data] }
  | .proceed i move => do
    let x ← s.senders[i]?
    let (m, phase) ← proceed s.manager x move
    return ⟨m, s.senders.set i { x with phase := phase }⟩

/-- The connection was dialled to the address, and no call has closed it yet. -/
def Manager.OpenTo (m : Manager) (addr : String) (conn : ℕ) : Prop :=
  ∃ c, m.conns[conn]? = some c ∧ c.addr = addr ∧ c.closed = false

/-- The step is the call of `CloseTunnel` by a sender that failed on a connection. -/
def ClosesAfter (s : Sys) (a : Action) (x : Sender) (conn : ℕ) : Prop :=
  ∃ i err, a = .proceed i .close ∧ s.senders[i]? = some x ∧ x.phase = .close conn err

/-- The tunnels are the open connections, each under its address. -/
def Manager.Consistent (m : Manager) : Prop :=
  ∀ addr conn, m.find addr = some conn ↔ m.OpenTo addr conn

namespace Manager

variable {m : Manager}

theorem find_dial (m : Manager) (addr a : String) :
    (m.dial addr).find a = if a = addr then some m.conns.length else m.find a := by
  unfold find dial
  by_cases ha : a = addr
  · subst ha
    simp [GoMap.mem_set_keys]
  · simp [GoMap.mem_set_keys, GoMap.set_val_of_ne _ _ ha, ha]

theorem openTo_dial {addr a : String} {conn : ℕ} :
    (m.dial addr).OpenTo a conn ↔ m.OpenTo a conn ∨ (a = addr ∧ conn = m.conns.length) := by
  unfold OpenTo dial
  constructor
  · rintro ⟨c, hc, haddr, hopen⟩
    rcases Nat.lt_trichotomy conn m.conns.length with hlt | heq | hgt
    · rw [List.getElem?_append_left hlt] at hc
      exact Or.inl ⟨c, hc, haddr, hopen⟩
    · subst heq
      rw [List.getElem?_concat_length] at hc
      cases Option.some.inj hc
      exact Or.inr ⟨haddr.symm, rfl⟩
    · have hlength : (m.conns ++ [Connection.mk addr false []]).length ≤ conn := by
        simp only [List.length_append, List.length_singleton]
        omega
      rw [List.getElem?_eq_none hlength] at hc
      cases hc
  · rintro (⟨c, hc, haddr, hopen⟩ | ⟨rfl, rfl⟩)
    · have hlt : conn < m.conns.length := (List.getElem?_eq_some_iff.mp hc).1
      refine ⟨c, ?_, haddr, hopen⟩
      rw [List.getElem?_append_left hlt]
      exact hc
    · exact ⟨_, List.getElem?_concat_length, rfl, rfl⟩

/-- Writing changes neither the address nor whether the connection is open. -/
theorem openTo_write {conn : ℕ} {data : List UInt8} {a : String} {other : ℕ} :
    (m.write conn data).OpenTo a other ↔ m.OpenTo a other := by
  unfold OpenTo write
  simp only [List.getElem?_modify]
  by_cases hconn : conn = other
  · simp [hconn]
  · simp [hconn]

theorem find_closeTunnel (m : Manager) (addr a : String) :
    (m.closeTunnel addr).find a = if a = addr then none else m.find a := by
  unfold closeTunnel
  split
  · by_cases ha : a = addr
    · simp [find, ha]
    · simp [find, ha, GoMap.erase_val_of_ne _ ha]
  · rename_i hnone
    by_cases ha : a = addr
    · rw [if_pos ha, ha, hnone]
    · rw [if_neg ha]

/-- The connection that is found is closed, whatever it is. -/
theorem openTo_closeTunnel {addr a : String} {conn : ℕ} :
    (m.closeTunnel addr).OpenTo a conn ↔ m.OpenTo a conn ∧ m.find addr ≠ some conn := by
  unfold closeTunnel
  split
  · rename_i other hother
    unfold OpenTo
    simp only [List.getElem?_modify, hother]
    by_cases hconn : other = conn
    · simp [hconn]
    · simp [hconn]
  · rename_i hnone
    simp [hnone]

theorem Consistent.dial (hm : m.Consistent) {addr : String} (hnone : m.find addr = none) :
    (m.dial addr).Consistent := by
  intro a conn
  rw [find_dial, openTo_dial]
  by_cases ha : a = addr
  · subst ha
    have hopen : ¬ m.OpenTo a conn := by
      intro hopen
      rw [(hm a conn).mpr hopen] at hnone
      cases hnone
    simp [hopen, eq_comm]
  · simp [ha, hm a conn]

theorem Consistent.write (hm : m.Consistent) (conn : ℕ) (data : List UInt8) :
    (m.write conn data).Consistent := by
  intro a other
  rw [openTo_write]
  exact hm a other

theorem Consistent.closeTunnel (hm : m.Consistent) (addr : String) :
    (m.closeTunnel addr).Consistent := by
  intro a conn
  rw [find_closeTunnel, openTo_closeTunnel, ← hm a conn]
  by_cases ha : a = addr
  · subst ha
    simp
  · rw [if_neg ha]
    constructor
    · -- a connection is open to one address only
      intro hfind
      refine ⟨hfind, ?_⟩
      intro hother
      obtain ⟨c, hc, haddr, -⟩ := (hm a conn).mp hfind
      obtain ⟨c', hc', haddr', -⟩ := (hm addr conn).mp hother
      cases Option.some.inj (hc.symm.trans hc')
      exact ha (haddr.symm.trans haddr')
    · exact And.left

end Manager

section Steps
variable {s s' : Sys} {a : Action}

/-- Under the write lock the connection is dialled, or nothing changes. -/
theorem createTunnel_cases (m : Manager) (addr : String) (outcome : Dial) :
    (m.createTunnel addr outcome).1 = m ∨
      (m.find addr = none ∧ (m.createTunnel addr outcome).1 = m.dial addr) := by
  unfold Manager.createTunnel
  split
  · exact Or.inl rfl
  · rename_i hnone
    cases outcome with
    | resolveError err => exact Or.inl rfl
    | listenError err => exact Or.inl rfl
    | dialError err => exact Or.inl rfl
    | established => exact Or.inr ⟨hnone, rfl⟩

theorem step_proceed {i : ℕ} {move : Move} (h : step s (.proceed i move) = some s') :
    ∃ x m phase, s.senders[i]? = some x ∧ proceed s.manager x move = some (m, phase) ∧
      s' = ⟨m, s.senders.set i { x with phase := phase }⟩ := by
  simp only [step, Option.bind_eq_bind, Option.bind_eq_some_iff] at h
  obtain ⟨x, hx, ⟨m, phase⟩, hmove, hs'⟩ := h
  exact ⟨x, m, phase, hx, hmove, (Option.some.inj hs').symm⟩

/-- What a step of a call may do to the connections. -/
theorem proceed_cases {m m' : Manager} {x : Sender} {move : Move} {phase : Phase}
    (h : proceed m x move = some (m', phase)) :
    m' = m ∨ (m.find x.addr = none ∧ m' = m.dial x.addr) ∨ (∃ conn, m' = m.write conn x.data) ∨
      ∃ conn err, x.phase = .close conn err ∧ move = .close ∧ m' = m.closeTunnel x.addr := by
  unfold proceed at h
  split at h
  · split at h
    · cases h
      exact Or.inl rfl
    · cases h
      exact Or.inl rfl
  · rename_i outcome _
    have hm' : m' = (m.createTunnel x.addr outcome).1 := by
      split at h
      · rename_i heq
        cases h
        rw [heq]
      · rename_i heq
        cases h
        rw [heq]
    rw [hm']
    rcases createTunnel_cases m x.addr outcome with hsame | hdial
    · exact Or.inl hsame
    · exact Or.inr (Or.inl hdial)
  · cases h
    exact Or.inl rfl
  · cases h
    exact Or.inl rfl
  · cases h
    exact Or.inl rfl
  · cases h
    exact Or.inr (Or.inr (Or.inl ⟨_, rfl⟩))
  · rename_i conn err hphase
    cases h
    exact Or.inr (Or.inr (Or.inr ⟨conn, err, hphase, rfl, rfl⟩))
  · cases h

/-- What a step may do to the connections. -/
theorem step_cases (h : step s a = some s') :
    s'.manager = s.manager ∨
      (∃ addr, s.manager.find addr = none ∧ s'.manager = s.manager.dial addr) ∨
      (∃ conn data, s'.manager = s.manager.write conn data) ∨
      ∃ x conn, ClosesAfter s a x conn ∧ s'.manager = s.manager.closeTunnel x.addr := by
  cases a with
  | sendPacket remoteIP data =>
    cases Option.some.inj h
    exact Or.inl rfl
  | proceed i move =>
    obtain ⟨x, m, phase, hx, hmove, rfl⟩ := step_proceed h
    rcases proceed_cases hmove with hsame | hdial | ⟨conn, hwrite⟩ |
      ⟨conn, err, hphase, rfl, hclose⟩
    · exact Or.inl hsame
    · exact Or.inr (Or.inl ⟨x.addr, hdial⟩)
    · exact Or.inr (Or.inr (Or.inl ⟨conn, x.data, hwrite⟩))
    · exact Or.inr (Or.inr (Or.inr ⟨x, conn, ⟨i, err, rfl, hx, hphase⟩, hclose⟩))

theorem step_consistent (hs : s.manager.Consistent) (h : step s a = some s') :
    s'.manager.Consistent := by
  rcases step_cases h with hsame | ⟨addr, hnone, hdial⟩ | ⟨conn, data, hwrite⟩ |
    ⟨x, conn, -, hclose⟩
  · rw [hsame]
    exact hs
  · rw [hdial]
    exact hs.dial hnone
  · rw [hwrite]
    exact hs.write conn data
  · rw [hclose]
    exact hs.closeTunnel x.addr

end Steps

theorem consistent_start : newTunnelManager.manager.Consistent := by
  intro addr conn
  simp [newTunnelManager, Manager.find, Manager.OpenTo, GoMap.empty]

end Arcturus.TunnelManager
