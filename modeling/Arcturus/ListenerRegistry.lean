import Arcturus.GoMaps
import Arcturus.StepRuns
import Mathlib.Data.Int.Order.Basic

/-!
The listeners of the proxy and the maps in which starting, accepting and stopping meet.
The start of a listener looks at the ports, opens the listener, enters it and launches
the accept loop; each of these is one step, and any number of starts and loops may be
under way. The listeners of the configuration are started one after the other before
requests are served. Whether a listener opens or closes without an error is left to the
network; log records are left out.
-/

namespace Arcturus.ListenerRegistry

open GoMaps StepRuns

inductive Protocol where
  | tcp
  | udp
  deriving DecidableEq, Repr

def Protocol.ofString (s : String) : Option Protocol :=
  if s = "tcp" then some .tcp else if s = "udp" then some .udp else none

def decimal (cs : List Char) : Option ℕ :=
  if cs ≠ [] ∧ cs.all Char.isDigit then some (Nat.ofDigitChars 10 cs 0) else none

/-- Go's `strconv.Atoi`: an optional sign and digits, within sixty-four bits. -/
def atoi (s : String) : Option ℤ :=
  let n : Option ℤ := match s.toList with
    | '-' :: cs => (decimal cs).map fun n => -(n : ℤ)
    | '+' :: cs => (decimal cs).map fun n => (n : ℤ)
    | cs => (decimal cs).map fun n => (n : ℤ)
  n.filter fun n => decide (-9223372036854775808 ≤ n ∧ n ≤ 9223372036854775807)

structure Response where
  code : ℕ
  text : String
  deriving DecidableEq, Repr

/-- The checks that both requests begin with. -/
def parseRequest (portStr protocol : String) : Except Response (Protocol × ℤ) :=
  if portStr = "" then .error ⟨400, "port is required"⟩
  else
    match atoi portStr with
    | none => .error ⟨400, "invalid port"⟩
    | some port =>
      match Protocol.ofString protocol with
      | none => .error ⟨400, "invalid protocol"⟩
      | some p => .ok (p, port)

/-- A listener that was opened, for one protocol and port. -/
structure Listener where
  protocol : Protocol
  port : ℤ
  closed : Bool
  deriving DecidableEq, Repr

/-- Where the start of a listener is: before its look at the ports, before the listener
is opened, before it is entered in the maps, and before the accept loop is launched. -/
inductive Phase where
  | check
  | listen
  | register (l : ℕ)
  | launch
  | done
  deriving DecidableEq, Repr

/-- A start is made for the configuration or for a request. -/
structure Start where
  protocol : Protocol
  port : ℤ
  configured : Bool
  phase : Phase
  deriving DecidableEq, Repr

inductive LoopState where
  | starting
  | accepting (l : ℕ)
  | returned
  deriving DecidableEq, Repr

/-- A goroutine that runs `StartServerRun`. -/
structure Loop where
  protocol : Protocol
  port : ℤ
  state : LoopState
  deriving DecidableEq, Repr

/-- A listener is known by its number in the order of opening. `registered` records which
listeners were entered for which port, the last one first; nothing reads it. -/
structure Sys where
  listeners : List Listener
  listenerMap : GoMap ℤ (Option ℕ)
  portMap : GoMap ℤ Bool
  starts : List Start
  loops : List Loop
  registered : List (ℤ × ℕ)
  answers : List Response
  crashed : Bool

def startup (config : List (String × ℤ)) : Sys where
  listeners := []
  listenerMap := GoMap.empty
  portMap := GoMap.empty
  starts := config.filterMap fun entry =>
    (Protocol.ofString entry.1).map fun p => ⟨p, entry.2, true, .listen⟩
  loops := []
  registered := []
  answers := []
  crashed := false

namespace Sys

def answer (s : Sys) (r : Response) : Sys := { s with answers := s.answers ++ [r] }

def setPhase (s : Sys) (i : ℕ) (st : Start) (phase : Phase) : Sys :=
  { s with starts := s.starts.set i { st with phase } }

/-- The requests are served after the last listener of the configuration. -/
def serving (s : Sys) : Bool := s.starts.all fun st => !st.configured || st.phase == .done

/-- The type assertion of a server on what the map has for a port. -/
def assertion (s : Sys) (p : Protocol) (port : ℤ) : Option ℕ :=
  (s.listenerMap.val port).filter fun l => (s.listeners[l]?).map Listener.protocol == some p

def openListener (s : Sys) (p : Protocol) (port : ℤ) : Sys :=
  { s with listeners := s.listeners ++ [⟨p, port, false⟩] }

/-- The section of `StartServerWithMgr` under the lock. -/
def register (s : Sys) (port : ℤ) (l : ℕ) : Sys :=
  { s with
    listenerMap := s.listenerMap.set port (some l)
    portMap := s.portMap.set port true
    registered := (port, l) :: s.registered }

def launch (s : Sys) (p : Protocol) (port : ℤ) : Sys :=
  { s with loops := s.loops ++ [⟨p, port, .starting⟩] }

/-- The next step of a start; `err` is what comes of opening the listener. The errors of
the listeners of the configuration are not looked at. -/
def startStep (s : Sys) (i : ℕ) (err : Option String) : Option Sys :=
  match s.starts[i]? with
  | none => none
  | some st =>
    -- the configuration is worked off in its order
    if st.configured ∧ (s.starts.take i).any fun earlier => earlier.phase != .done then none
    else
      match st.phase with
      | .check =>
        if s.portMap.val st.port then
          some ((s.setPhase i st .done).answer ⟨409, "port already started"⟩)
        else some (s.setPhase i st .listen)
      | .listen =>
        match err with
        | none =>
          some ((s.setPhase i st (.register s.listeners.length)).openListener st.protocol st.port)
        | some e =>
          if st.configured then some (s.setPhase i st .launch)
          else some ((s.setPhase i st .done).answer ⟨500, e⟩)
      | .register l => some ((s.setPhase i st .launch).register st.port l)
      | .launch =>
        let launched := (s.setPhase i st .done).launch st.protocol st.port
        if st.configured then some launched
        else some (launched.answer ⟨200, "tcp server started"⟩)
      | .done => none

/-- The look-up of `StartServerRun`. Without the listener one server panics, outside of
any handler, and the other returns. -/
def startServerRun (s : Sys) (k : ℕ) : Option Sys :=
  match s.loops[k]? with
  | some ⟨p, port, .starting⟩ =>
    match s.assertion p port, p with
    | some l, _ => some { s with loops := s.loops.set k ⟨p, port, .accepting l⟩ }
    | none, .tcp => some { s with crashed := true }
    | none, .udp => some { s with loops := s.loops.set k ⟨p, port, .returned⟩ }
  | _ => none

/-- The listener is closed and taken out of the maps. -/
def closeListener (s : Sys) (port : ℤ) (l : ℕ) : Sys :=
  { s with
    listeners := s.listeners.modify l fun x => { x with closed := true }
    listenerMap := s.listenerMap.erase port
    portMap := s.portMap.erase port }

/-- `StopServer` and what the handler answers; the panic of the handler of one server is
answered by the framework. -/
def stopServer (s : Sys) (p : Protocol) (port : ℤ) (err : Option String) : Sys :=
  match s.assertion p port with
  | some l =>
    match err with
    | none => (s.closeListener port l).answer ⟨200, "tcp server stopped"⟩
    | some e => (s.closeListener port l).answer ⟨500, e⟩
  | none =>
    if p = .tcp ∧ (s.listenerMap.val port).isSome then s.answer ⟨500, ""⟩
    else s.answer ⟨200, "tcp server stopped"⟩

end Sys

/-- A request for `/tcp/start` or `/tcp/stop` comes in, a start makes its next step, or an
accept loop looks for its listener. -/
inductive Action where
  | startRequest (portStr protocol : String)
  | stopRequest (portStr protocol : String) (err : Option String)
  | proceed (i : ℕ) (err : Option String)
  | accept (k : ℕ)
  deriving DecidableEq, Repr

def step (s : Sys) (a : Action) : Option Sys :=
  if s.crashed then none
  else
    match a with
    | .startRequest portStr protocol =>
      if s.serving then
        match parseRequest portStr protocol with
        | .error r => some (s.answer r)
        | .ok (p, port) => some { s with starts := s.starts ++ [⟨p, port, false, .check⟩] }
      else none
    | .stopRequest portStr protocol err =>
      if s.serving then
        match parseRequest portStr protocol with
        | .error r => some (s.answer r)
        | .ok (p, port) => some (s.stopServer p port err)
      else none
    | .proceed i err => s.startStep i err
    | .accept k => s.startServerRun k

namespace Sys

/-- The listener that was entered last for a port. -/
def latest (s : Sys) (port : ℤ) : Option ℕ :=
  (s.registered.find? fun e => e.1 == port).map Prod.snd

/-- The listener was opened for the protocol and port and has not been closed. -/
def OpenFor (s : Sys) (p : Protocol) (port : ℤ) (l : ℕ) : Prop :=
  s.listeners[l]? = some ⟨p, port, false⟩

/-- The start of the listener has been completed. -/
def Running (s : Sys) (p : Protocol) (port : ℤ) (l : ℕ) : Prop :=
  (port, l) ∈ s.registered ∧ s.OpenFor p port l

/-- What the map has for a port is the listener that was entered last, as long as that is
open; a listener that is to be entered is open and belongs to one start. -/
structure Inv (s : Sys) : Prop where
  entry : ∀ port l, s.listenerMap.val port = some l ↔
    s.latest port = some l ∧ ∃ p, s.OpenFor p port l
  known : ∀ port l, (port, l) ∈ s.registered → l < s.listeners.length
  held : ∀ (i : ℕ) (st : Start) (l : ℕ), s.starts[i]? = some st → st.phase = .register l →
    s.OpenFor st.protocol st.port l ∧ ∀ port, (port, l) ∉ s.registered
  once : ∀ (i j : ℕ) (st st' : Start) (l : ℕ), s.starts[i]? = some st →
    s.starts[j]? = some st' → st.phase = .register l → st'.phase = .register l → i = j

variable {s s' : Sys} {p q : Protocol} {port port' : ℤ} {l l' : ℕ}

theorem mem_registered_of_latest (h : s.latest port = some l) : (port, l) ∈ s.registered := by
  unfold latest at h
  obtain ⟨⟨port', l'⟩, hfind, rfl⟩ := Option.map_eq_some_iff.mp h
  have hport : port' = port := by simpa using List.find?_some hfind
  rw [← hport]
  exact List.mem_of_find?_eq_some hfind

theorem OpenFor.unique (h : s.OpenFor p port l) (h' : s.OpenFor q port' l) :
    p = q ∧ port = port' := by
  cases Option.some.inj (h.symm.trans h')
  exact ⟨rfl, rfl⟩

theorem openFor_openListener : (s.openListener p port).OpenFor q port' l ↔
    s.OpenFor q port' l ∨ (l = s.listeners.length ∧ p = q ∧ port = port') := by
  unfold OpenFor openListener
  rw [getElem?_concat_eq_some]
  simp

theorem openFor_closeListener (port : ℤ) :
    (s.closeListener port l).OpenFor q port' l' ↔ s.OpenFor q port' l' ∧ l ≠ l' := by
  unfold OpenFor closeListener
  rw [getElem?_modify_eq_some]
  by_cases hl : l = l'
  · simp [hl]
  · simp [hl]

theorem latest_register : (s.register port l).latest port' =
    if port = port' then some l else s.latest port' := by
  unfold latest register
  by_cases hport : port = port'
  · simp [hport]
  · simp [hport]

/-- The assertion holds for a listener that is in the map and of the protocol. -/
theorem Inv.assertion_eq_some_iff (hs : s.Inv) : s.assertion p port = some l ↔
    s.latest port = some l ∧ s.OpenFor p port l := by
  unfold assertion
  rw [Option.filter_eq_some_iff, hs.entry]
  constructor
  · rintro ⟨⟨hlatest, q, hopen⟩, hproto⟩
    rw [hopen] at hproto
    have hq : q = p := by simpa using hproto
    rw [hq] at hopen
    exact ⟨hlatest, hopen⟩
  · rintro ⟨hlatest, hopen⟩
    refine ⟨⟨hlatest, p, hopen⟩, ?_⟩
    rw [hopen]
    simp

/-- The maps are left alone, and no start comes to hold a listener. -/
structure Leaves (s s' : Sys) : Prop where
  listeners : s'.listeners = s.listeners
  listenerMap : s'.listenerMap = s.listenerMap
  registered : s'.registered = s.registered
  starts : ∀ (i : ℕ) (st : Start) (l : ℕ), s'.starts[i]? = some st → st.phase = .register l →
    s.starts[i]? = some st

theorem leaves_refl (s : Sys) : Leaves s s := ⟨rfl, rfl, rfl, fun _ _ _ h _ => h⟩

theorem leaves_request (s : Sys) (p : Protocol) (port : ℤ) :
    Leaves s { s with starts := s.starts ++ [⟨p, port, false, .check⟩] } := by
  refine ⟨rfl, rfl, rfl, ?_⟩
  intro i st l hi hphase
  rcases getElem?_concat_eq_some.mp hi with hold | ⟨-, rfl⟩
  · exact hold
  · cases hphase

theorem leaves_setPhase {i : ℕ} {st : Start} {phase : Phase}
    (hphase : ∀ l, phase ≠ .register l) : Leaves s (s.setPhase i st phase) := by
  refine ⟨rfl, rfl, rfl, ?_⟩
  intro j st' l hj hl
  rcases getElem?_set_eq_some.mp hj with ⟨-, -, rfl⟩ | ⟨-, hold⟩
  · exact absurd hl (hphase l)
  · exact hold

theorem Leaves.openFor (h : Leaves s s') : s'.OpenFor p port l ↔ s.OpenFor p port l := by
  unfold OpenFor
  rw [h.listeners]

theorem Leaves.latest (h : Leaves s s') : s'.latest port = s.latest port := by
  unfold Sys.latest
  rw [h.registered]

theorem Inv.leaves (hs : s.Inv) (h : Leaves s s') : s'.Inv := by
  constructor
  case entry =>
    intro port l
    simp only [h.listenerMap, h.latest, h.openFor]
    exact hs.entry port l
  case known =>
    rw [h.registered, h.listeners]
    exact hs.known
  case held =>
    intro i st l hi hl
    rw [h.openFor, h.registered]
    exact hs.held i st l (h.starts i st l hi hl) hl
  case once =>
    intro i j st st' l hi hj hl hl'
    exact hs.once i j st st' l (h.starts i st l hi hl) (h.starts j st' l hj hl') hl hl'

theorem OpenFor.lt (h : s.OpenFor p port l) : l < s.listeners.length :=
  (List.getElem?_eq_some_iff.mp h).1

/-- The new listener is open, and the start that opened it holds it. -/
theorem Inv.opens (hs : s.Inv) (i : ℕ) (st : Start) :
    ((s.setPhase i st (.register s.listeners.length)).openListener st.protocol st.port).Inv := by
  have hfresh : ∀ port, (port, s.listeners.length) ∉ s.registered :=
    fun port hmem => Nat.lt_irrefl _ (hs.known port _ hmem)
  constructor
  case entry =>
    intro port l
    refine (hs.entry port l).trans (and_congr_right fun hlatest => exists_congr fun q => ?_)
    rw [openFor_openListener]
    refine ⟨Or.inl, ?_⟩
    rintro (hopen | ⟨rfl, -⟩)
    · exact hopen
    · exact absurd (mem_registered_of_latest hlatest) (hfresh port)
  case known =>
    intro port l hmem
    have hlt : l < s.listeners.length := hs.known port l hmem
    show l < (s.listeners ++ [_]).length
    rw [List.length_append]
    omega
  case held =>
    intro j st' l hj hl
    rw [openFor_openListener]
    rcases getElem?_set_eq_some.mp hj with ⟨-, -, rfl⟩ | ⟨-, hold⟩
    · cases hl
      exact ⟨Or.inr ⟨rfl, rfl, rfl⟩, hfresh⟩
    · obtain ⟨hopen, hnew⟩ := hs.held j st' l hold hl
      exact ⟨Or.inl hopen, hnew⟩
  case once =>
    intro j k st₁ st₂ l hj hk hl₁ hl₂
    -- whoever held a listener before holds one of the old ones
    rcases getElem?_set_eq_some.mp hj with ⟨rfl, -, rfl⟩ | ⟨hne, hold⟩
    · rcases getElem?_set_eq_some.mp hk with ⟨rfl, -, -⟩ | ⟨-, hold'⟩
      · rfl
      · cases hl₁
        exact absurd (hs.held k st₂ _ hold' hl₂).1.lt (Nat.lt_irrefl _)
    · rcases getElem?_set_eq_some.mp hk with ⟨rfl, -, rfl⟩ | ⟨-, hold'⟩
      · cases hl₂
        exact absurd (hs.held j st₁ _ hold hl₁).1.lt (Nat.lt_irrefl _)
      · exact hs.once j k st₁ st₂ l hold hold' hl₁ hl₂

/-- The listener that is entered is the last one for its port, and open. -/
theorem Inv.registers (hs : s.Inv) {i : ℕ} {st : Start} (hi : s.starts[i]? = some st)
    (hl : st.phase = .register l) : ((s.setPhase i st .launch).register st.port l).Inv := by
  obtain ⟨hopen, hnew⟩ := hs.held i st l hi hl
  have hleaves : Leaves s (s.setPhase i st .launch) := leaves_setPhase (fun _ => Phase.noConfusion)
  have hs' : (s.setPhase i st .launch).Inv := hs.leaves hleaves
  constructor
  case entry =>
    intro port l'
    show ((s.setPhase i st .launch).listenerMap.set st.port (some l)).val port = some l' ↔ _
    rw [latest_register]
    by_cases hport : st.port = port
    · subst hport
      rw [GoMap.set_val_same, if_pos rfl]
      refine ⟨?_, And.left⟩
      intro heq
      cases Option.some.inj heq
      exact ⟨rfl, st.protocol, hopen⟩
    · rw [GoMap.set_val_of_ne _ _ (Ne.symm hport), if_neg hport]
      exact hs'.entry port l'
  case known =>
    intro port l' hmem
    rcases List.mem_cons.mp hmem with heq | hold
    · cases heq
      exact hopen.lt
    · exact hs.known port l' hold
  case held =>
    intro j st' l' hj hl'
    obtain ⟨hopen', hnew'⟩ := hs'.held j st' l' hj hl'
    refine ⟨hopen', ?_⟩
    intro port hmem
    rcases List.mem_cons.mp hmem with heq | hold
    · cases heq
      have hij : j = i := hs.once j i st' st l (hleaves.starts j st' l hj hl') hi hl' hl
      subst hij
      rcases getElem?_set_eq_some.mp hj with ⟨-, -, rfl⟩ | ⟨hne, -⟩
      · cases hl'
      · exact hne rfl
    · exact hnew' port hold
  case once => exact hs'.once

/-- The listener that is closed is the one in the map, which no start holds. -/
theorem Inv.closes (hs : s.Inv) (hl : s.latest port = some l) (hopen : s.OpenFor p port l) :
    (s.closeListener port l).Inv := by
  have hmem : (port, l) ∈ s.registered := mem_registered_of_latest hl
  constructor
  case entry =>
    intro port' l'
    show (s.listenerMap.erase port).val port' = some l' ↔ s.latest port' = some l' ∧ _
    simp only [openFor_closeListener]
    by_cases hport : port' = port
    · subst hport
      rw [GoMap.erase_val_same]
      refine ⟨fun h => ?_, ?_⟩
      · cases h
      · rintro ⟨hl', q, -, hne⟩
        exact absurd (Option.some.inj (hl.symm.trans hl')) hne
    · rw [GoMap.erase_val_of_ne _ hport, hs.entry]
      refine and_congr_right fun hl' => exists_congr fun q => ?_
      refine ⟨fun hopen' => ⟨hopen', ?_⟩, And.left⟩
      rintro rfl
      exact hport (hopen'.unique hopen).2
  case known =>
    intro port' l' hmem'
    have hlt := hs.known port' l' hmem'
    simpa [closeListener] using hlt
  case held =>
    intro i st l' hi hl'
    obtain ⟨hopen', hnew⟩ := hs.held i st l' hi hl'
    refine ⟨(openFor_closeListener port).mpr ⟨hopen', ?_⟩, hnew⟩
    rintro rfl
    exact hnew port hmem
  case once => exact hs.once

theorem inv_startup (config : List (String × ℤ)) : (startup config).Inv := by
  have hphase : ∀ (i : ℕ) (st : Start) (l : ℕ), (startup config).starts[i]? = some st →
      st.phase ≠ .register l := by
    intro i st l hi hl
    obtain ⟨entry, -, hst⟩ := List.mem_filterMap.mp (List.mem_of_getElem? hi)
    obtain ⟨p, -, rfl⟩ := Option.map_eq_some_iff.mp hst
    cases hl
  constructor
  case entry =>
    intro port l
    simp [startup, latest, GoMap.empty]
  case known =>
    intro port l hmem
    cases hmem
  case held =>
    intro i st l hi hl
    exact absurd hl (hphase i st l hi)
  case once =>
    intro i j st st' l hi _ hl _
    exact absurd hl (hphase i st l hi)

end Sys

end Arcturus.ListenerRegistry
