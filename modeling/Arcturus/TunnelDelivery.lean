import Arcturus.TunnelManager

/-!
What the calls of `SendPacket` can rely on: a call holds connections to its own address
only, and what was written to the connections to an address is the data of the calls for it
that returned no error, once for each call.
-/

namespace Arcturus.TunnelManager

open StepRuns

section Delivery

/-- The connection a call holds. -/
def Phase.conn : Phase → Option ℕ
  | .openStream conn => some conn
  | .write conn => some conn
  | .close conn _ => some conn
  | _ => none

def Manager.DialledTo (m : Manager) (addr : String) (conn : ℕ) : Prop :=
  ∃ c, m.conns[conn]? = some c ∧ c.addr = addr

/-- What the connection has carried if it was dialled to the address. -/
def Connection.writtenTo (addr : String) (c : Connection) : List (List UInt8) :=
  if c.addr = addr then c.written else []

/-- The data of all streams on connections to the address. -/
def Manager.written (m : Manager) (addr : String) : List (List UInt8) :=
  m.conns.flatMap (Connection.writtenTo addr)

/-- The call was for this address and data and returned no error. -/
def Sender.Succeeded (addr : String) (data : List UInt8) (x : Sender) : Prop :=
  x.addr = addr ∧ x.data = data ∧ x.phase = .returned none

instance (addr : String) (data : List UInt8) (x : Sender) : Decidable (x.Succeeded addr data) :=
  inferInstanceAs (Decidable (_ ∧ _ ∧ _))

/-- The connections that a call holds were dialled to its address. -/
def HoldsOwn (m : Manager) (x : Sender) : Prop :=
  ∀ conn, x.phase.conn = some conn → m.DialledTo x.addr conn

/-- Connections stay where they are, with their address. -/
def Manager.Extends (m m' : Manager) : Prop :=
  ∀ conn addr, m.DialledTo addr conn → m'.DialledTo addr conn

variable {m m' : Manager} {x : Sender}

theorem Manager.extends_dial (m : Manager) (addr : String) : m.Extends (m.dial addr) := by
  rintro conn a ⟨c, hc, haddr⟩
  have hlt : conn < m.conns.length := (List.getElem?_eq_some_iff.mp hc).1
  exact ⟨c, (List.getElem?_append_left hlt).trans hc, haddr⟩

/-- A change of one connection that keeps its address. -/
theorem Manager.extends_modify {conn : ℕ} {f : Connection → Connection}
    (hconns : m'.conns = m.conns.modify conn f) (hf : ∀ c, (f c).addr = c.addr) :
    m.Extends m' := by
  rintro other addr ⟨c, hc, haddr⟩
  unfold DialledTo
  rw [hconns, List.getElem?_modify, hc]
  by_cases hconn : conn = other
  · exact ⟨f c, by simp [hconn], (hf c).trans haddr⟩
  · exact ⟨c, by simp [hconn], haddr⟩

theorem Manager.extends_closeTunnel (m : Manager) (addr : String) :
    m.Extends (m.closeTunnel addr) := by
  unfold closeTunnel
  split
  · exact extends_modify rfl fun c => rfl
  · exact fun _ _ h => h

theorem proceed_extends {move : Move} {phase : Phase} (h : proceed m x move = some (m', phase)) :
    m.Extends m' := by
  rcases proceed_cases h with rfl | ⟨-, rfl⟩ | ⟨conn, rfl⟩ | ⟨conn, err, -, -, rfl⟩
  · exact fun _ _ h => h
  · exact m.extends_dial x.addr
  · exact Manager.extends_modify rfl fun c => rfl
  · exact m.extends_closeTunnel x.addr

section Writes
variable {addr : String} {data : List UInt8}

/-- What a change of one connection does to the number of writes of these data. -/
theorem count_modify (addr : String) (data : List UInt8) {conns : List Connection} {conn : ℕ}
    {c : Connection} (hc : conns[conn]? = some c) (f : Connection → Connection) :
    ((conns.modify conn f).flatMap (Connection.writtenTo addr)).count data +
        (c.writtenTo addr).count data =
      (conns.flatMap (Connection.writtenTo addr)).count data +
        ((f c).writtenTo addr).count data := by
  induction conns generalizing conn with
  | nil => cases hc
  | cons d conns ih =>
    cases conn with
    | zero =>
      cases Option.some.inj hc
      simp only [List.modify_zero_cons, List.flatMap_cons, List.count_append]
      omega
    | succ conn =>
      have hrest := ih (show conns[conn]? = some c by simpa using hc)
      simp only [List.modify_succ_cons, List.flatMap_cons, List.count_append]
      omega

theorem count_written_dial (m : Manager) (a : String) :
    ((m.dial a).written addr).count data = (m.written addr).count data := by
  simp [Manager.written, Manager.dial, Connection.writtenTo]

theorem count_written_closeTunnel (m : Manager) (a : String) :
    ((m.closeTunnel a).written addr).count data = (m.written addr).count data := by
  unfold Manager.closeTunnel
  split
  · rename_i conn _
    cases hc : m.conns[conn]? with
    | none =>
      simp only [Manager.written, List.modify_eq_self (List.getElem?_eq_none_iff.mp hc)]
    | some c =>
      exact Nat.add_right_cancel (count_modify addr data hc fun c => { c with closed := true })
  · rfl

theorem count_written_write {conn : ℕ} (h : m.DialledTo x.addr conn) :
    ((m.write conn x.data).written addr).count data =
      (m.written addr).count data + if x.addr = addr ∧ x.data = data then 1 else 0 := by
  obtain ⟨c, hc, haddr⟩ := h
  have hcount := count_modify addr data hc
    fun c => { c with written := c.written ++ [x.data] }
  simp only [Connection.writtenTo, haddr] at hcount
  simp only [Manager.written, Manager.write]
  by_cases ha : x.addr = addr
  · simp only [ha, if_true, List.count_append, List.count_singleton, beq_iff_eq,
      true_and] at hcount ⊢
    omega
  · simp only [ha, if_false, false_and, List.count_nil, add_zero] at hcount ⊢
    exact hcount

end Writes

theorem Manager.Consistent.dialledTo (hm : m.Consistent) {addr : String} {conn : ℕ}
    (h : m.find addr = some conn) : m.DialledTo addr conn := by
  obtain ⟨c, hc, haddr, -⟩ := (hm addr conn).mp h
  exact ⟨c, hc, haddr⟩

/-- The connection that `GetOrCreateTunnel` returns is in the map. -/
theorem find_of_createTunnel {addr : String} {outcome : Dial} {conn : ℕ}
    (h : m.createTunnel addr outcome = (m', .ok conn)) : m'.find addr = some conn := by
  unfold Manager.createTunnel at h
  split at h
  · rename_i hfind
    cases h
    exact hfind
  · cases outcome with
    | resolveError err => cases h
    | listenError err => cases h
    | dialError err => cases h
    | established =>
      cases h
      rw [Manager.find_dial, if_pos rfl]

theorem count_written_createTunnel {addr a : String} {data : List UInt8} {outcome : Dial}
    {res : Except String ℕ} (h : m.createTunnel a outcome = (m', res)) :
    (m'.written addr).count data = (m.written addr).count data := by
  unfold Manager.createTunnel at h
  split at h
  · cases h
    rfl
  · cases outcome with
    | resolveError err => cases h; rfl
    | listenError err => cases h; rfl
    | dialError err => cases h; rfl
    | established =>
      cases h
      exact count_written_dial m a

/-- What a step of a call leaves: it holds a connection to its address, or none, and the data
are written in the step in which it returns no error. -/
structure Accounted (m m' : Manager) (x : Sender) (phase : Phase) : Prop where
  held : HoldsOwn m' { x with phase := phase }
  written : ∀ addr data, (m'.written addr).count data = (m.written addr).count data +
    if Sender.Succeeded addr data { x with phase := phase } then 1 else 0

theorem accounted_of_conn {phase : Phase} {conn : ℕ} (hconn : phase.conn = some conn)
    (hm : m'.DialledTo x.addr conn) (hwritten : ∀ addr data,
      (m'.written addr).count data = (m.written addr).count data) : Accounted m m' x phase := by
  refine ⟨fun other h => ?_, fun addr data => ?_⟩
  · cases Option.some.inj (hconn.symm.trans h)
    exact hm
  · have hnot : ¬ Sender.Succeeded addr data { x with phase := phase } := by
      rintro ⟨-, -, rfl⟩
      cases hconn
    rw [hwritten, if_neg hnot, add_zero]

theorem accounted_of_no_conn {phase : Phase} (hconn : phase.conn = none)
    (hphase : phase ≠ .returned none) (hwritten : ∀ addr data,
      (m'.written addr).count data = (m.written addr).count data) : Accounted m m' x phase := by
  refine ⟨fun conn h => ?_, fun addr data => ?_⟩
  · rw [show phase.conn = some conn from h] at hconn
    cases hconn
  · have hnot : ¬ Sender.Succeeded addr data { x with phase := phase } := fun h => hphase h.2.2
    rw [hwritten, if_neg hnot, add_zero]

/-- A step of a call keeps its account. -/
theorem proceed_accounted {move : Move} {phase : Phase} (hm : m.Consistent) (hm' : m'.Consistent)
    (hx : HoldsOwn m x) (h : proceed m x move = some (m', phase)) : Accounted m m' x phase := by
  unfold proceed at h
  split at h
  · split at h
    · rename_i hfind
      cases h
      exact accounted_of_conn rfl (hm.dialledTo hfind) fun _ _ => rfl
    · cases h
      exact accounted_of_no_conn rfl (by simp) fun _ _ => rfl
  · split at h
    · rename_i heq
      cases h
      exact accounted_of_conn rfl (hm'.dialledTo (find_of_createTunnel heq))
        fun _ _ => count_written_createTunnel heq
    · rename_i heq
      cases h
      exact accounted_of_no_conn rfl (by simp) fun _ _ => count_written_createTunnel heq
  · rename_i conn err hphase
    cases h
    exact accounted_of_conn rfl (hx conn (by rw [hphase]; rfl)) fun _ _ => rfl
  · rename_i conn hphase
    cases h
    exact accounted_of_conn rfl (hx conn (by rw [hphase]; rfl)) fun _ _ => rfl
  · rename_i conn err hphase
    cases h
    exact accounted_of_conn rfl (hx conn (by rw [hphase]; rfl)) fun _ _ => rfl
  · rename_i conn hphase
    cases h
    refine ⟨by simp [HoldsOwn, Phase.conn], fun addr data => ?_⟩
    rw [count_written_write (hx conn (by rw [hphase]; rfl))]
    refine congrArg _ (if_congr ?_ rfl rfl)
    simp [Sender.Succeeded, Sender.addr]
  · cases h
    exact accounted_of_no_conn rfl (by simp) fun _ _ => count_written_closeTunnel m x.addr
  · cases h

theorem proceed_returned {move : Move} {err : Option String} (h : x.phase = .returned err) :
    proceed m x move = none := by
  unfold proceed
  rw [h]

/-- The connections are in order, every call holds its own, and every write is that of one
call. -/
structure Inv (s : Sys) : Prop where
  consistent : s.manager.Consistent
  held : ∀ x ∈ s.senders, HoldsOwn s.manager x
  written : ∀ addr data, (s.manager.written addr).count data =
    s.senders.countP fun x => x.Succeeded addr data

theorem step_inv {s s' : Sys} {a : Action} (hs : Inv s) (h : step s a = some s') : Inv s' := by
  have hconsistent := step_consistent hs.consistent h
  cases a with
  | sendPacket remoteIP data =>
    cases Option.some.inj h
    have hconn : (call remoteIP data).phase.conn = none := by cases remoteIP <;> rfl
    have hphase : (call remoteIP data).phase ≠ .returned none := by
      cases remoteIP <;> simp [call]
    refine ⟨hconsistent, ?_, fun addr data' => ?_⟩
    · refine List.forall_mem_append.mpr ⟨hs.held, List.forall_mem_singleton.mpr ?_⟩
      intro conn hc
      rw [hconn] at hc
      cases hc
    · rw [hs.written, List.countP_append, List.countP_singleton,
        if_neg fun hsucc => hphase (of_decide_eq_true hsucc).2.2]
      rfl
  | proceed i move =>
    obtain ⟨y, m, phase, hy, hmove, rfl⟩ := step_proceed h
    obtain ⟨hi, hget⟩ := List.getElem?_eq_some_iff.mp hy
    have hdone := proceed_accounted hs.consistent hconsistent
      (hs.held y (List.mem_of_getElem? hy)) hmove
    have hbefore : ∀ addr data, ¬ y.Succeeded addr data := by
      rintro addr data ⟨-, -, hreturned⟩
      rw [proceed_returned hreturned] at hmove
      cases hmove
    refine ⟨hconsistent, ?_, fun addr data => ?_⟩
    · intro x hx
      rcases List.mem_or_eq_of_mem_set hx with hx | rfl
      · exact fun conn hconn => proceed_extends hmove _ _ (hs.held x hx conn hconn)
      · exact hdone.held
    · rw [hdone.written, hs.written, List.countP_set hi, hget,
        if_neg fun hsucc => hbefore addr data (of_decide_eq_true hsucc)]
      simp

theorem run_inv {s : Sys} {actions : List Action}
    (hrun : run step newTunnelManager actions = some s) : Inv s := by
  have hstart : Inv newTunnelManager :=
    ⟨consistent_start, by simp [newTunnelManager], fun _ _ => rfl⟩
  exact run_keeps (fun _ _ _ hs hstep => step_inv hs hstep) hstart hrun

/-- In every run the data are written to connections to an address as often as calls for it
with these data have returned no error, so that each such call has a write of its own. -/
theorem carries_of_returned {s : Sys} {actions : List Action}
    (hrun : run step newTunnelManager actions = some s) (addr : String) (data : List UInt8) :
    (s.manager.written addr).count data = (s.senders.filter fun x => x.Succeeded addr data).length ∧
      ∀ x ∈ s.senders, x.Succeeded addr data → data ∈ s.manager.written addr := by
  have hwritten := (run_inv hrun).written addr data
  refine ⟨hwritten.trans List.countP_eq_length_filter, fun x hx hsucc => ?_⟩
  rw [← List.count_pos_iff, hwritten, List.countP_pos_iff]
  exact ⟨x, hx, decide_eq_true hsucc⟩

/-- Two calls with the same data share a connection. The write of a third one fails, which
closes the connection, and a fourth one dials another. -/
def fourSends : List Action :=
  List.replicate 3 (.sendPacket (some "10.0.0.2") [1]) ++
    [.proceed 0 .lookup, .proceed 1 .lookup, .proceed 0 (.create .established),
      .proceed 1 (.create .established), .proceed 0 (.openStream none),
      .proceed 1 (.openStream none), .proceed 2 .lookup, .proceed 1 (.write none),
      .proceed 0 (.write none), .proceed 2 (.openStream none),
      .proceed 2 (.write (some "stream reset")), .proceed 2 .close,
      .sendPacket (some "10.0.0.2") [1], .proceed 3 .lookup, .proceed 3 (.create .established),
      .proceed 3 (.openStream none), .proceed 3 (.write none)]

theorem carries_of_returned_fourSends : ∃ s, run step newTunnelManager fourSends = some s ∧
    s.manager.conns.length = 2 ∧ (s.manager.written "10.0.0.2:4433").count [1] = 3 := by
  have hend : (run step newTunnelManager fourSends).map (fun s => (s.manager.conns.length,
      (s.senders.filter fun x => x.Succeeded "10.0.0.2:4433" [1]).length)) = some (2, 3) := by
    decide +kernel
  obtain ⟨s, hrun, hs⟩ := Option.map_eq_some_iff.mp hend
  obtain ⟨hconns, hcalls⟩ := Prod.mk.inj hs
  exact ⟨s, hrun, hconns, (carries_of_returned hrun _ _).1.trans hcalls⟩

end Delivery

end Arcturus.TunnelManager
