import Arcturus.ConnPool
import Arcturus.Delimited

/-!
Requests to an origin over pooled connections. A call gets a connection, writes its
request, reads up to a newline with a buffered reader of its own, and puts the connection
back; what the reader has read beyond the newline is lost with the reader, and what it has
not read stays on the connection. The origin answers a request with some bytes that have a
newline in them; they come after whatever is still unread on the connection, and the reader
gets them in pieces of any length. What the request says is left out.
-/

namespace Arcturus.PooledRequests

open Delimited StepRuns

def newline : UInt8 := 10

/-- The buffer of `bufio.NewReader`. -/
def readerSize : ℕ := 4096

/-- The bytes up to the first newline and the newline itself. -/
def firstLine (bytes : List UInt8) : Option (List UInt8) :=
  (cut newline bytes).map fun r => r.1 ++ [newline]

/-- Where a call of `DoRequest` is. While it reads, it has read `buf`; `before` and `answer`
record what was unread on the connection when the request was written and what the origin
answered, and nothing reads them. -/
inductive Phase where
  | get
  | dialling
  | write (c : ℕ)
  | read (c : ℕ) (before answer buf : List UInt8)
  | put (c : ℕ) (healthy : Bool) (result : Option (List UInt8))
  | returned (result : Option (List UInt8))
  deriving DecidableEq, Repr

/-- The connection that the call holds. -/
def Phase.conn : Phase → Option ℕ
  | .write c => some c
  | .read c _ _ _ => some c
  | .put c _ _ => some c
  | _ => none

structure Call where
  addr : String
  phase : Phase
  deriving DecidableEq, Repr

/-- `unread` is what the origin has sent on a connection and nobody has read. -/
structure Sys where
  pool : ConnPool.Sys
  unread : ℕ → List UInt8
  calls : List Call

def start : Sys := ⟨ConnPool.newTCPConnPool, fun _ => [], []⟩

/-- What a call does next, with what the clock, the network and the origin make of it. -/
inductive Move where
  | get (now : ℕ → ℤ)
  | dial (ok : Bool)
  | write (ok : Bool) (answer : List UInt8)
  | chunk (n : ℕ)
  | readError
  | line
  | put (created lastUsed : ℤ)

/-- The body of `DoRequest`, one step at a time. -/
def proceed (cfg : ConnPool.Config) (pool : ConnPool.Sys) (unread : ℕ → List UInt8) (x : Call)
    (move : Move) : Option (ConnPool.Sys × (ℕ → List UInt8) × Phase) :=
  match x.phase, move with
  | .get, .get now =>
    (ConnPool.step cfg pool (.get x.addr now)).map fun pool' =>
      match (pool.pool.get cfg x.addr now).1 with
      | some c => (pool', unread, .write c)
      | none => (pool', unread, .dialling)
  | .dialling, .dial ok =>
    (ConnPool.step cfg pool (.dial x.addr ok)).map fun pool' =>
      if ok then (pool', unread, .write (pool.pool.dial x.addr).1)
      else (pool', unread, .returned none)
  | .write c, .write true answer =>
    if newline ∈ answer then
      some (pool, Function.update unread c (unread c ++ answer), .read c (unread c) answer [])
    else none
  | .write c, .write false _ => some (pool, unread, .put c false none)
  | .read c before answer buf, .chunk n =>
    -- the reader goes on as long as it has no newline and reads what fits its buffer
    if newline ∉ buf ∧ 0 < n ∧ n ≤ (unread c).length ∧
        n ≤ readerSize - buf.length % readerSize then
      some (pool, Function.update unread c ((unread c).drop n),
        .read c before answer (buf ++ (unread c).take n))
    else none
  | .read c _ _ _, .readError => some (pool, unread, .put c false none)
  | .read c _ _ buf, .line =>
    (firstLine buf).map fun line => (pool, unread, .put c true (some line))
  | .put c healthy result, .put created lastUsed =>
    (ConnPool.step cfg pool (.put x.addr c healthy created lastUsed)).map fun pool' =>
      (pool', unread, .returned result)
  | _, _ => none

inductive Action where
  | doRequest (addr : String)
  | proceed (i : ℕ) (move : Move)
  | cleanup (now : ℤ)
  | close

def step (cfg : ConnPool.Config) (s : Sys) : Action → Option Sys
  | .doRequest addr => some { s with calls := s.calls ++ [⟨addr, .get⟩] }
  | .proceed i move => do
    let x ← s.calls[i]?
    let (pool, unread, phase) ← proceed cfg s.pool s.unread x move
    return ⟨pool, unread, s.calls.set i { x with phase := phase }⟩
  | .cleanup now => (ConnPool.step cfg s.pool (.cleanup now)).map fun pool => { s with pool }
  | .close => (ConnPool.step cfg s.pool .close).map fun pool => { s with pool }

/-- The line that a call returns is the first line of the answer to its request. -/
def AnswersOwn (s : Sys) (a : Action) (s' : Sys) : Prop :=
  ∀ (i : ℕ) (addr : String) (c : ℕ) (before answer buf : List UInt8), a = .proceed i .line →
    s.calls[i]? = some ⟨addr, .read c before answer buf⟩ →
      s'.calls[i]? = some ⟨addr, .put c true (firstLine answer)⟩

/-- When the request was written, the connection had no unread bytes, or they began with a
complete line that is the same as the first line of the answer. -/
def CleanConnection (s : Sys) : Action → Prop
  | .proceed i .line => ∀ (addr : String) (c : ℕ) (before answer buf : List UInt8),
      s.calls[i]? = some ⟨addr, .read c before answer buf⟩ →
        before = [] ∨ (newline ∈ before ∧ firstLine before = firstLine answer)
  | _ => True

theorem firstLine_append_of_some {xs ys line : List UInt8} (h : firstLine xs = some line) :
    firstLine (xs ++ ys) = some line := by
  obtain ⟨⟨l, rest⟩, hcut, rfl⟩ := Option.map_eq_some_iff.mp h
  rw [firstLine, cut_append_of_some hcut]
  rfl

theorem firstLine_append_of_notMem {xs ys : List UInt8} (h : newline ∉ xs) :
    firstLine (xs ++ ys) = (firstLine ys).map (xs ++ ·) := by
  rw [firstLine, cut_append_of_none (cut_eq_none_iff.mpr h), firstLine, Option.map_map,
    Option.map_map]
  refine Option.map_congr ?_
  intro r _
  simp

theorem exists_firstLine {bytes : List UInt8} (h : newline ∈ bytes) :
    ∃ line, firstLine bytes = some line := by
  cases hcut : cut newline bytes with
  | none => exact absurd h (cut_eq_none_iff.mp hcut)
  | some r => exact ⟨r.1 ++ [newline], by rw [firstLine, hcut]; rfl⟩

/-- Bytes before an answer leave its first line in front only if there are none, or if they
begin with the same line. -/
theorem firstLine_append_eq_iff {before answer : List UInt8} (h : newline ∈ answer) :
    firstLine (before ++ answer) = firstLine answer ↔
      before = [] ∨ (newline ∈ before ∧ firstLine before = firstLine answer) := by
  by_cases hbefore : newline ∈ before
  · obtain ⟨line, hline⟩ := exists_firstLine hbefore
    rw [firstLine_append_of_some hline, ← hline]
    have hne : before ≠ [] := List.ne_nil_of_mem hbefore
    simp [hbefore, hne]
  · obtain ⟨line, hline⟩ := exists_firstLine h
    rw [firstLine_append_of_notMem hbefore, hline]
    simp [hbefore]

/-- Each call that holds a connection is the client that the pool knows for it, and what a
call has read and what is unread is what was unread before, followed by the answer. -/
structure Inv (cfg : ConnPool.Config) (s : Sys) : Prop where
  pool : ConnPool.Inv cfg s.pool
  owns : ∀ (i : ℕ) (x : Call) (c : ℕ), s.calls[i]? = some x → x.phase.conn = some c →
    (x.addr, c) ∈ s.pool.held
  distinct : ∀ (i j : ℕ) (x y : Call) (c : ℕ), s.calls[i]? = some x → s.calls[j]? = some y →
    x.phase.conn = some c → y.phase.conn = some c → i = j
  stream : ∀ (i : ℕ) (x : Call) (c : ℕ) (before answer buf : List UInt8),
    s.calls[i]? = some x → x.phase = .read c before answer buf →
      buf ++ s.unread c = before ++ answer ∧ newline ∈ answer

section Moves
variable {cfg : ConnPool.Config} {s s' : Sys} {a : Action} {i : ℕ} {x : Call}

/-- A call may take a connection that nobody holds, give its own back, and change what is
unread on its own; the other calls do not see it. -/
theorem Inv.move (hs : Inv cfg s) (hi : s.calls[i]? = some x) {pool : ConnPool.Sys}
    {unread : ℕ → List UInt8} {phase : Phase} (hpool : ConnPool.Inv cfg pool)
    (hconn : ∀ c, phase.conn = some c →
      (x.addr, c) ∈ pool.held ∧ (x.phase.conn = some c ∨ c ∉ s.pool.held.map Prod.snd))
    (hheld : ∀ e ∈ s.pool.held, x.phase.conn ≠ some e.2 → e ∈ pool.held)
    (hunread : ∀ c, x.phase.conn ≠ some c → unread c = s.unread c)
    (hstream : ∀ c before answer buf, phase = .read c before answer buf →
      buf ++ unread c = before ++ answer ∧ newline ∈ answer) :
    Inv cfg ⟨pool, unread, s.calls.set i { x with phase := phase }⟩ := by
  -- the connection of another call is neither the old nor the new one of this call
  have hother : ∀ (j : ℕ) (y : Call) (c : ℕ), i ≠ j → s.calls[j]? = some y →
      y.phase.conn = some c → x.phase.conn ≠ some c ∧ phase.conn ≠ some c := by
    intro j y c hij hj hc
    have hold : x.phase.conn ≠ some c := fun hx => hij (hs.distinct i j x y c hi hj hx hc)
    refine ⟨hold, fun hphase => ?_⟩
    rcases (hconn c hphase).2 with hx | hfree
    · exact hold hx
    · exact hfree (List.mem_map.mpr ⟨_, hs.owns j y c hj hc, rfl⟩)
  constructor
  case pool => exact hpool
  case owns =>
    intro j y c hj hc
    rcases getElem?_set_eq_some.mp hj with ⟨-, -, rfl⟩ | ⟨hij, hold⟩
    · exact (hconn c hc).1
    · exact hheld _ (hs.owns j y c hold hc) (hother j y c hij hold hc).1
  case distinct =>
    intro j k y z c hj hk hy hz
    rcases getElem?_set_eq_some.mp hj with ⟨rfl, -, rfl⟩ | ⟨hij, hold⟩
    · rcases getElem?_set_eq_some.mp hk with ⟨rfl, -, -⟩ | ⟨hik, hold'⟩
      · rfl
      · exact absurd hy (hother k z c hik hold' hz).2
    · rcases getElem?_set_eq_some.mp hk with ⟨rfl, -, rfl⟩ | ⟨-, hold'⟩
      · exact absurd hz (hother j y c hij hold hy).2
      · exact hs.distinct j k y z c hold hold' hy hz
  case stream =>
    intro j y c before answer buf hj hphase
    rcases getElem?_set_eq_some.mp hj with ⟨-, -, rfl⟩ | ⟨hij, hold⟩
    · exact hstream c before answer buf hphase
    · have hc : y.phase.conn = some c := by rw [hphase]; rfl
      show buf ++ unread c = before ++ answer ∧ newline ∈ answer
      rw [hunread c (hother j y c hij hold hc).1]
      exact hs.stream j y c before answer buf hold hphase

/-- The call takes a connection. -/
theorem Inv.take (hs : Inv cfg s) (hi : s.calls[i]? = some x) {pool : ConnPool.Sys} {c : ℕ}
    (hpool : ConnPool.Inv cfg pool) (hheld : pool.held = (x.addr, c) :: s.pool.held) :
    Inv cfg ⟨pool, s.unread, s.calls.set i { x with phase := .write c }⟩ := by
  refine hs.move hi hpool ?_ ?_ (fun _ _ => rfl) (fun _ _ _ _ h => by cases h)
  · intro d hd
    cases Option.some.inj hd
    rw [hheld]
    exact ⟨List.mem_cons_self, Or.inr (hpool.notMem_of_held_cons hheld)⟩
  · intro e he _
    rw [hheld]
    exact List.mem_cons_of_mem _ he

/-- The call has no connection and gets none. -/
theorem Inv.wait (hs : Inv cfg s) (hi : s.calls[i]? = some x) {pool : ConnPool.Sys}
    {phase : Phase} (hphase : phase.conn = none) (hpool : ConnPool.Inv cfg pool)
    (hheld : pool.held = s.pool.held) :
    Inv cfg ⟨pool, s.unread, s.calls.set i { x with phase := phase }⟩ := by
  refine hs.move hi hpool ?_ ?_ (fun _ _ => rfl) ?_
  · intro c hc
    rw [hphase] at hc
    cases hc
  · intro e he _
    rw [hheld]
    exact he
  · rintro c before answer buf rfl
    cases hphase

/-- The call gives its connection back. -/
theorem Inv.giveBack (hs : Inv cfg s) (hi : s.calls[i]? = some x) {pool : ConnPool.Sys} {c : ℕ}
    {result : Option (List UInt8)} (hx : x.phase.conn = some c) (hpool : ConnPool.Inv cfg pool)
    (hheld : pool.held = s.pool.held.erase (x.addr, c)) :
    Inv cfg ⟨pool, s.unread, s.calls.set i { x with phase := .returned result }⟩ := by
  refine hs.move hi hpool (fun _ h => by cases h) ?_ (fun _ _ => rfl) (fun _ _ _ _ h => by cases h)
  intro e he hne
  rw [hheld]
  refine (List.mem_erase_of_ne ?_).mpr he
  rintro rfl
  exact hne hx

/-- The call keeps its connection. -/
theorem Inv.keep (hs : Inv cfg s) (hi : s.calls[i]? = some x) {unread : ℕ → List UInt8}
    {phase : Phase} {c : ℕ} (hx : x.phase.conn = some c) (hphase : phase.conn = some c)
    (hunread : ∀ d, d ≠ c → unread d = s.unread d)
    (hstream : ∀ c before answer buf, phase = .read c before answer buf →
      buf ++ unread c = before ++ answer ∧ newline ∈ answer) :
    Inv cfg ⟨s.pool, unread, s.calls.set i { x with phase := phase }⟩ := by
  refine hs.move hi hs.pool ?_ (fun e he _ => he) ?_ hstream
  · intro d hd
    cases Option.some.inj (hd.symm.trans hphase)
    exact ⟨hs.owns i x c hi hx, Or.inl hx⟩
  · intro d hd
    refine hunread d ?_
    rintro rfl
    exact hd hx

/-- The call is done with the connection and is about to give it back. -/
theorem Inv.finish (hs : Inv cfg s) (hi : s.calls[i]? = some x) {c : ℕ}
    (hx : x.phase.conn = some c) (healthy : Bool) (result : Option (List UInt8)) :
    Inv cfg ⟨s.pool, s.unread, s.calls.set i { x with phase := .put c healthy result }⟩ := by
  refine hs.keep hi hx rfl (fun _ _ => rfl) ?_
  intro d before answer buf hread
  cases hread

theorem Inv.proceed (hs : Inv cfg s) (hi : s.calls[i]? = some x) {move : Move}
    {pool : ConnPool.Sys} {unread : ℕ → List UInt8} {phase : Phase}
    (h : proceed cfg s.pool s.unread x move = some (pool, unread, phase)) :
    Inv cfg ⟨pool, unread, s.calls.set i { x with phase := phase }⟩ := by
  have hfree : ∀ d (bytes : List UInt8), ∀ c, c ≠ d →
      Function.update s.unread d bytes c = s.unread c :=
    fun d bytes c hc => Function.update_of_ne hc _ _
  unfold PooledRequests.proceed at h
  split at h
  case h_1 now _ =>
    obtain ⟨pool', hstep, h⟩ := Option.map_eq_some_iff.mp h
    have hpool := ConnPool.step_inv hs.pool hstep
    have hheld := ConnPool.held_get hstep
    split at h
    · rename_i c hget
      cases h
      rw [hget] at hheld
      exact hs.take hi hpool hheld
    · rename_i hget
      cases h
      rw [hget] at hheld
      exact hs.wait hi rfl hpool hheld
  case h_2 ok _ =>
    obtain ⟨pool', hstep, h⟩ := Option.map_eq_some_iff.mp h
    have hpool := ConnPool.step_inv hs.pool hstep
    have hheld := ConnPool.held_dial hstep
    split at h
    · rename_i hok
      cases h
      rw [if_pos hok] at hheld
      exact hs.take hi hpool hheld
    · rename_i hok
      cases h
      rw [if_neg hok] at hheld
      exact hs.wait hi rfl hpool hheld
  case h_3 c answer hphase =>
    obtain ⟨hanswer, h⟩ := Option.ite_none_right_eq_some.mp h
    cases h
    refine hs.keep hi (by rw [hphase]; rfl) rfl (hfree c _) ?_
    intro d before answer' buf hread
    cases hread
    simp [hanswer]
  case h_4 c hphase =>
    cases h
    exact hs.finish hi (by rw [hphase]; rfl) _ _
  case h_5 c before answer buf n hphase =>
    obtain ⟨-, h⟩ := Option.ite_none_right_eq_some.mp h
    cases h
    obtain ⟨hstream, hanswer⟩ := hs.stream i x c before answer buf hi hphase
    refine hs.keep hi (by rw [hphase]; rfl) rfl (hfree c _) ?_
    intro d before' answer' buf' hread
    cases hread
    rw [Function.update_self, List.append_assoc, List.take_append_drop]
    exact ⟨hstream, hanswer⟩
  case h_6 c _ _ _ hphase =>
    cases h
    exact hs.finish hi (by rw [hphase]; rfl) _ _
  case h_7 c _ _ buf hphase =>
    obtain ⟨line, -, h⟩ := Option.map_eq_some_iff.mp h
    cases h
    exact hs.finish hi (by rw [hphase]; rfl) _ _
  case h_8 c healthy result created lastUsed hphase =>
    obtain ⟨pool', hstep, h⟩ := Option.map_eq_some_iff.mp h
    cases h
    exact hs.giveBack hi (by rw [hphase]; rfl) (ConnPool.step_inv hs.pool hstep)
      (ConnPool.held_put hstep)
  case h_9 => cases h

theorem step_proceed {move : Move} (h : step cfg s (.proceed i move) = some s') :
    ∃ x pool unread phase, s.calls[i]? = some x ∧
      proceed cfg s.pool s.unread x move = some (pool, unread, phase) ∧
      s' = ⟨pool, unread, s.calls.set i { x with phase := phase }⟩ := by
  simp only [step, Option.bind_eq_bind, Option.bind_eq_some_iff] at h
  obtain ⟨x, hx, ⟨pool, unread, phase⟩, hmove, hs'⟩ := h
  exact ⟨x, pool, unread, phase, hx, hmove, (Option.some.inj hs').symm⟩

/-- What the pool does on its own leaves the calls and the connections they hold. -/
theorem Inv.poolStep (hs : Inv cfg s) {b : ConnPool.Action} {pool : ConnPool.Sys}
    (hb : ConnPool.step cfg s.pool b = some pool) (hheld : pool.held = s.pool.held) :
    Inv cfg { s with pool := pool } := by
  refine ⟨ConnPool.step_inv hs.pool hb, ?_, hs.distinct, hs.stream⟩
  intro i x c hi hc
  show (x.addr, c) ∈ pool.held
  rw [hheld]
  exact hs.owns i x c hi hc

/-- A new call holds no connection. -/
theorem Inv.enter (hs : Inv cfg s) (addr : String) :
    Inv cfg { s with calls := s.calls ++ [⟨addr, .get⟩] } := by
  have hold : ∀ (i : ℕ) (x : Call) (c : ℕ), (s.calls ++ [⟨addr, Phase.get⟩])[i]? = some x →
      x.phase.conn = some c → s.calls[i]? = some x := by
    intro i x c hi hc
    rcases getElem?_concat_eq_some.mp hi with hold | ⟨-, rfl⟩
    · exact hold
    · cases hc
  constructor
  case pool => exact hs.pool
  case owns =>
    intro i x c hi hc
    exact hs.owns i x c (hold i x c hi hc) hc
  case distinct =>
    intro i j x y c hi hj hx hy
    exact hs.distinct i j x y c (hold i x c hi hx) (hold j y c hj hy) hx hy
  case stream =>
    intro i x c before answer buf hi hphase
    have hc : x.phase.conn = some c := by rw [hphase]; rfl
    exact hs.stream i x c before answer buf (hold i x c hi hc) hphase

theorem step_inv (hs : Inv cfg s) (h : step cfg s a = some s') : Inv cfg s' := by
  cases a with
  | doRequest addr =>
    cases Option.some.inj h
    exact hs.enter addr
  | proceed i move =>
    obtain ⟨x, pool, unread, phase, hi, hmove, rfl⟩ := step_proceed h
    exact hs.proceed hi hmove
  | cleanup now =>
    simp only [step, Option.map_eq_some_iff] at h
    obtain ⟨pool, hb, rfl⟩ := h
    refine hs.poolStep hb ?_
    cases Option.some.inj hb
    rfl
  | close =>
    simp only [step, Option.map_eq_some_iff] at h
    obtain ⟨pool, hb, rfl⟩ := h
    refine hs.poolStep hb ?_
    cases Option.some.inj hb
    rfl

/-- The call returns the first line of what was unread on the connection followed by the
answer. -/
theorem step_line (hs : Inv cfg s) (h : step cfg s (.proceed i .line) = some s') :
    ∃ addr c before answer buf, s.calls[i]? = some ⟨addr, .read c before answer buf⟩ ∧
      s'.calls[i]? = some ⟨addr, .put c true (firstLine (before ++ answer))⟩ ∧
      newline ∈ answer := by
  obtain ⟨⟨addr, phase⟩, pool, unread, phase', hi, hmove, rfl⟩ := step_proceed h
  cases phase with
  | read c before answer buf =>
    obtain ⟨line, hline, h⟩ := Option.map_eq_some_iff.mp hmove
    cases h
    obtain ⟨hstream, hanswer⟩ := hs.stream i _ c before answer buf hi rfl
    refine ⟨addr, c, before, answer, buf, hi, ?_, hanswer⟩
    rw [← hstream, firstLine_append_of_some hline]
    exact List.getElem?_set_self (List.getElem?_eq_some_iff.mp hi).1
  | get => cases hmove
  | dialling => cases hmove
  | write c => cases hmove
  | put c healthy result => cases hmove
  | returned result => cases hmove

/-- Whether a returned line is the right one is seen at the answer. -/
theorem answersOwn_line_iff {addr : String} {c : ℕ} {before answer buf : List UInt8}
    {result : Option (List UInt8)} (hi : s.calls[i]? = some ⟨addr, .read c before answer buf⟩)
    (hi' : s'.calls[i]? = some ⟨addr, .put c true result⟩) :
    AnswersOwn s (.proceed i .line) s' ↔ result = firstLine answer := by
  constructor
  · intro hown
    have hreturned := hown i addr c before answer buf rfl hi
    rw [hi'] at hreturned
    simpa using hreturned
  · rintro rfl j addr' c' before' answer' buf' hj hread
    cases hj
    cases Option.some.inj (hi.symm.trans hread)
    exact hi'

theorem step_answersOwn_iff (hs : Inv cfg s) (h : step cfg s a = some s') :
    AnswersOwn s a s' ↔ CleanConnection s a := by
  by_cases ha : ∃ i, a = .proceed i .line
  · obtain ⟨i, rfl⟩ := ha
    obtain ⟨addr, c, before, answer, buf, hi, hi', hanswer⟩ := step_line hs h
    have hclean : CleanConnection s (.proceed i .line) ↔
        before = [] ∨ (newline ∈ before ∧ firstLine before = firstLine answer) := by
      refine ⟨fun hclean => hclean addr c before answer buf hi, ?_⟩
      intro hclean addr' c' before' answer' buf' hi'
      cases Option.some.inj (hi.symm.trans hi')
      exact hclean
    rw [hclean, answersOwn_line_iff hi hi', firstLine_append_eq_iff hanswer]
  · refine iff_of_true ?_ ?_
    · intro i addr c before answer buf hline
      exact absurd ⟨i, hline⟩ ha
    · unfold CleanConnection
      split
      · rename_i i
        exact absurd ⟨i, rfl⟩ ha
      · trivial

end Moves

theorem inv_start (cfg : ConnPool.Config) : Inv cfg start where
  pool := ConnPool.inv_new cfg
  owns _ _ _ h := by cases h
  distinct _ _ _ _ _ h := by cases h
  stream _ _ _ _ _ _ h := by cases h

/-- In every run, each line that is returned is the first line of the answer to its own
request if and only if no request is written on a connection on which a different line, or
part of one, is still unread. -/
theorem answersOwn_iff (cfg : ConnPool.Config) (actions : List Action) :
    AllSteps (step cfg) (fun s a => ∀ s', step cfg s a = some s' → AnswersOwn s a s')
        start actions ↔
      AllSteps (step cfg) (fun s a => ∀ s', step cfg s a = some s' → CleanConnection s a)
        start actions := by
  refine allSteps_congr (fun s a s' => step_inv) ?_ (inv_start cfg)
  intro s a hs
  exact forall_congr' fun s' => imp_congr_right fun h => step_answersOwn_iff hs h

section Samples

def smallPool : ConnPool.Config := ⟨2, 60⟩

/-- The origin answers the first request with two lines, of which one arrives in time, and
the second request goes over the same connection. -/
def twoLines : List Action :=
  [.doRequest "origin:80", .proceed 0 (.get fun _ => 0), .proceed 0 (.dial true),
    .proceed 0 (.write true [97, 10, 98, 10]), .proceed 0 (.chunk 2), .proceed 0 .line,
    .proceed 0 (.put 1 1), .doRequest "origin:80", .proceed 1 (.get fun _ => 2),
    .proceed 1 (.write true [99, 10]), .proceed 1 (.chunk 2)]

/-- The second call returns the second line of the first answer. -/
theorem second_line_of_first_answer : ∃ s s' : Sys,
    run (step smallPool) start twoLines = some s ∧
      s.calls[1]? = some ⟨"origin:80", .read 0 [98, 10] [99, 10] [98, 10]⟩ ∧
      step smallPool s (.proceed 1 .line) = some s' ∧
      s'.calls[1]? = some ⟨"origin:80", .put 0 true (some [98, 10])⟩ ∧
      ¬ AnswersOwn s (.proceed 1 .line) s' := by
  refine ⟨_, _, rfl, ?reading, rfl, ?line,
    fun hown => absurd ((answersOwn_line_iff ?reading ?line).mp hown) (by decide)⟩
  case reading => rfl
  case line => rfl

end Samples

end Arcturus.PooledRequests
