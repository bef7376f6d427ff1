import Arcturus.KeyedLogs
import Arcturus.LastMile
import Arcturus.StepRuns

/-!
A process that keeps a view of the keys under one prefix of the store. At its start it
reads them all, some time later its watch is opened, and from then on every change is
sent to it as an event. A deletion is sent without a value. Keys are named by the
address that follows the prefix. Log records are left out.
-/

namespace Arcturus.StoreWatch

open GoMaps KeyedLogs LastMile StepRuns

structure Event where
  eventType : EventType
  key : String
  val : String
  deriving DecidableEq, Repr

/-- How far the process has come: it has read the keys, has started the goroutine of the
watch, or its watch is open. -/
inductive Phase where
  | starting
  | loaded
  | spawned
  | watching
  deriving DecidableEq, Repr

/-- What the process does with a value it has read, and with an event. -/
structure Client (V O : Type*) where
  enter : V → String → O → V
  callback : V → EventType → String → String → O → V

structure Prefix (V : Type*) where
  store : GoMap String (Option String)
  phase : Phase
  pending : List Event
  view : V

/-- A key is put or deleted, or the process makes a step. -/
inductive Action (O : Type*) where
  | put (key val : String)
  | delete (key : String)
  | load (answered : Bool) (order : List String) (choice : O)
  | spawn
  | watch
  | handle (choice : O)

section Model
variable {V O T : Type*}

/-- The values under the prefix, in the order in which a range loop takes the keys. -/
def getPrefixAll (store : GoMap String (Option String)) (order : List String) : List String :=
  order.filterMap store.val

variable (client : Client V O) (read : String → Option T) (address : T → String)

/-- A value that can be read and has the address of its key. -/
def Valid (key val : String) : Prop :=
  val ≠ "" ∧ key ≠ "" ∧ (read val).map address = some key

instance (key val : String) : Decidable (Valid read address key val) :=
  inferInstanceAs (Decidable (_ ∧ _ ∧ _))

/-- An event is sent once the watch is open. -/
def Prefix.send (p : Prefix V) (e : Event) : List Event :=
  if p.phase = .watching then p.pending ++ [e] else p.pending

/-- The loop over the values that were read; no value if the store did not answer. -/
def loadView (p : Prefix V) (answered : Bool) (order : List String) (choice : O) : V :=
  if answered then
    (getPrefixAll p.store order).foldl (fun v val => client.enter v val choice) p.view
  else p.view

def step (p : Prefix V) : Action O → Option (Prefix V)
  | .put key val =>
    if Valid read address key val then
      some { p with
        store := p.store.set key (some val)
        pending := p.send ⟨if (p.store.val key).isSome then .update else .create, key, val⟩ }
    else none
  | .delete key =>
    if (p.store.val key).isSome then
      some { p with store := p.store.erase key, pending := p.send ⟨.delete, key, ""⟩ }
    else none
  | .load answered order choice =>
    if p.phase = .starting ∧ order.Perm p.store.keys then
      some { p with phase := .loaded, view := loadView client p answered order choice }
    else none
  | .spawn => if p.phase = .loaded then some { p with phase := .spawned } else none
  | .watch => if p.phase = .spawned then some { p with phase := .watching } else none
  | .handle choice =>
    match p.pending with
    | [] => none
    | e :: rest =>
      some { p with pending := rest, view := client.callback p.view e.eventType e.key e.val choice }

def start (view : V) : Prefix V := ⟨GoMap.empty, .starting, [], view⟩

/-- The watch is open and everything that was sent has been handled. -/
def Prefix.Settled (p : Prefix V) : Prop := p.phase = .watching ∧ p.pending = []

/-- What the store holds. -/
def Prefix.stored (p : Prefix V) (k : String) : Option T := (p.store.val k).bind read

/-- What the process has read at its start. -/
def snapshot (p : Prefix V) (answered : Bool) (k : String) : Option T :=
  if answered then p.stored read k else none

/-- The operation on the store that an action is. -/
def Action.op : Action O → Option (Op String T)
  | .put key val => (read val).map (.put key)
  | .delete key => some (.delete key)
  | _ => none

def opsOf (actions : List (Action O)) : List (Op String T) := actions.filterMap (Action.op read)

/-- Nothing is missed: a key that is not touched after the watch was opened holds at that
moment what was read at the start, and a key whose last operation after that is a
deletion was neither read at the start nor put since. -/
def NothingMissed (p₀ : Prefix V) (actions : List (Action O)) : Prop :=
  ∀ before answered order choice gap after loaded opened,
    actions = before ++ .load answered order choice :: (gap ++ .watch :: after) →
    run (step client read address) p₀ before = some loaded →
    run (step client read address) p₀ (before ++ .load answered order choice :: gap) =
      some opened →
    ∀ k, (history k (opsOf read after) = [] →
        snapshot read loaded answered k = opened.stored read k) ∧
      ((history k (opsOf read after)).getLast? = some (.delete k) →
        (∀ t, .put k t ∉ opsOf read after) ∧ snapshot read loaded answered k = none)

/-- A client that enters what it reads and what is put, and that does nothing at a
deletion without a value. -/
structure Enters (shown : V → String → Option T) : Prop where
  enter : ∀ v val choice t, read val = some t → address t ≠ "" →
    shown (client.enter v val choice) = Function.update (shown v) (address t) (some t)
  put : ∀ v eventType key val choice t, eventType = .create ∨ eventType = .update → val ≠ "" →
    read val = some t → address t ≠ "" →
      shown (client.callback v eventType key val choice) =
        Function.update (shown v) (address t) (some t)
  delete : ∀ v key choice, shown v "" = none →
    shown (client.callback v .delete key "" choice) = shown v

end Model

section Steps
variable {V O T : Type*} {client : Client V O} {read : String → Option T} {address : T → String}
  {p p' : Prefix V} {a : Action O} {actions : List (Action O)}

/-- What a step can do. -/
theorem step_cases (h : step client read address p a = some p') :
    (∃ key val, a = .put key val ∧ Valid read address key val ∧ p' = { p with
      store := p.store.set key (some val)
      pending := p.send ⟨if (p.store.val key).isSome then .update else .create, key, val⟩ }) ∨
    (∃ key, a = .delete key ∧ (p.store.val key).isSome ∧
      p' = { p with store := p.store.erase key, pending := p.send ⟨.delete, key, ""⟩ }) ∨
    (∃ answered order choice, a = .load answered order choice ∧ p.phase = .starting ∧
      order.Perm p.store.keys ∧
      p' = { p with phase := .loaded, view := loadView client p answered order choice }) ∨
    (a = .spawn ∧ p.phase = .loaded ∧ p' = { p with phase := .spawned }) ∨
    (a = .watch ∧ p.phase = .spawned ∧ p' = { p with phase := .watching }) ∨
    ∃ choice e rest, a = .handle choice ∧ p.pending = e :: rest ∧ p' = { p with
      pending := rest, view := client.callback p.view e.eventType e.key e.val choice } := by
  cases a with
  | put key val =>
    obtain ⟨hvalid, heq⟩ := Option.ite_none_right_eq_some.mp h
    exact Or.inl ⟨key, val, rfl, hvalid, (Option.some.inj heq).symm⟩
  | delete key =>
    obtain ⟨hkey, heq⟩ := Option.ite_none_right_eq_some.mp h
    exact Or.inr (Or.inl ⟨key, rfl, hkey, (Option.some.inj heq).symm⟩)
  | load answered order choice =>
    obtain ⟨⟨hphase, hperm⟩, heq⟩ := Option.ite_none_right_eq_some.mp h
    exact Or.inr (Or.inr (Or.inl
      ⟨answered, order, choice, rfl, hphase, hperm, (Option.some.inj heq).symm⟩))
  | spawn =>
    obtain ⟨hphase, heq⟩ := Option.ite_none_right_eq_some.mp h
    exact Or.inr (Or.inr (Or.inr (Or.inl ⟨rfl, hphase, (Option.some.inj heq).symm⟩)))
  | watch =>
    obtain ⟨hphase, heq⟩ := Option.ite_none_right_eq_some.mp h
    exact Or.inr (Or.inr (Or.inr (Or.inr (Or.inl ⟨rfl, hphase, (Option.some.inj heq).symm⟩))))
  | handle choice =>
    simp only [step] at h
    split at h
    · simp at h
    · rename_i e rest hpending
      exact Or.inr (Or.inr (Or.inr (Or.inr (Or.inr
        ⟨choice, e, rest, rfl, hpending, (Option.some.inj h).symm⟩))))

theorem Valid.exists_read {key val : String} (h : Valid read address key val) :
    ∃ t, read val = some t ∧ address t = key := Option.map_eq_some_iff.mp h.2.2

/-- An event of a put or of a deletion. -/
def Sent (read : String → Option T) (address : T → String) (e : Event) : Prop :=
  ((e.eventType = .create ∨ e.eventType = .update) ∧ Valid read address e.key e.val) ∨
    (e.eventType = .delete ∧ e.val = "")

variable (read address) in
structure Inv (shown : V → String → Option T) (p : Prefix V) : Prop where
  valid : ∀ k val, p.store.val k = some val → Valid read address k val
  sent : ∀ e ∈ p.pending, Sent read address e
  idle : p.phase ≠ .watching → p.pending = []
  nameless : shown p.view "" = none

theorem mem_send {e e' : Event} (h : e' ∈ p.send e) : e' ∈ p.pending ∨ e' = e := by
  unfold Prefix.send at h
  split at h
  · simpa using h
  · exact Or.inl h

theorem send_of_not_watching {e : Event} (h : p.phase ≠ .watching) : p.send e = p.pending :=
  if_neg h

variable {shown : V → String → Option T}

/-- A change of the store and the event that reports it. -/
theorem Inv.send (hinv : Inv read address shown p) {store : GoMap String (Option String)}
    (hvalid : ∀ k val, store.val k = some val → Valid read address k val) {e : Event}
    (he : Sent read address e) :
    Inv read address shown { p with store, pending := p.send e } where
  valid := hvalid
  sent := by
    intro e' he'
    rcases mem_send he' with hold | rfl
    · exact hinv.sent e' hold
    · exact he
  idle := fun hphase => (send_of_not_watching (p := p) hphase).trans (hinv.idle hphase)
  nameless := hinv.nameless

/-- The store carries out every operation. -/
theorem step_stored (h : step client read address p a = some p') :
    p'.stored read = (opsOf read [a]).foldl applied (p.stored read) := by
  obtain ⟨key, val, rfl, hvalid, rfl⟩ | ⟨key, rfl, -, rfl⟩ | ⟨answered, order, choice, rfl, -, -,
    rfl⟩ | ⟨rfl, -, rfl⟩ | ⟨rfl, -, rfl⟩ | ⟨choice, e, rest, rfl, -, rfl⟩ := step_cases h
  · obtain ⟨t, ht, -⟩ := hvalid.exists_read
    funext k
    by_cases hk : k = key
    · subst hk
      simp [Prefix.stored, opsOf, Action.op, applied, ht]
    · simp [Prefix.stored, opsOf, Action.op, applied, ht, GoMap.set_val_of_ne _ _ hk, hk]
  · funext k
    by_cases hk : k = key
    · subst hk
      simp [Prefix.stored, opsOf, Action.op, applied, Option.default_eq_none]
    · simp [Prefix.stored, opsOf, Action.op, applied, GoMap.erase_val_of_ne _ hk, hk]
  · rfl
  · rfl
  · rfl
  · rfl

/-- The operation that an event reports. -/
def Event.op (read : String → Option T) (e : Event) : Option (Op String T) :=
  match e.eventType with
  | .create | .update => (read e.val).map (.put e.key)
  | .delete => some (.delete e.key)
  | .unknown => none

/-- What the view will show when everything that was sent has been handled. -/
def synced (read : String → Option T) (shown : V → String → Option T) (p : Prefix V) :
    String → Option T :=
  (p.pending.filterMap (Event.op read)).foldl entered (shown p.view)

theorem synced_send {e : Event} {op : Op String T} {store : GoMap String (Option String)}
    (hphase : p.phase = .watching) (he : e.op read = some op) :
    synced read shown { p with store, pending := p.send e } = entered (synced read shown p) op := by
  unfold synced Prefix.send
  rw [if_pos hphase, List.filterMap_append, List.foldl_append]
  simp [he]

theorem opsOf_cons (a : Action O) (actions : List (Action O)) :
    opsOf read (a :: actions) = opsOf read [a] ++ opsOf read actions := by
  unfold opsOf
  rw [← List.filterMap_append]
  rfl

theorem step_watching (hphase : p.phase = .watching)
    (h : step client read address p a = some p') : p'.phase = .watching := by
  obtain ⟨key, val, rfl, -, rfl⟩ | ⟨key, rfl, -, rfl⟩ | ⟨answered, order, choice, rfl, hother, -,
    rfl⟩ | ⟨rfl, hother, rfl⟩ | ⟨rfl, hother, rfl⟩ | ⟨choice, e, rest, rfl, -, rfl⟩ := step_cases h
  · exact hphase
  · exact hphase
  · simp [hphase] at hother
  · simp [hphase] at hother
  · rfl
  · exact hphase

/-- Before the watch is open the view only changes when it is loaded. -/
theorem step_view (hinv : Inv read address shown p) (hphase : p.phase ≠ .watching)
    (h : step client read address p a = some p') :
    p'.view = p.view ∨ p.phase = .starting ∧ p'.phase = .loaded := by
  obtain ⟨key, val, rfl, -, rfl⟩ | ⟨key, rfl, -, rfl⟩ | ⟨answered, order, choice, rfl, hstart, -,
    rfl⟩ | ⟨rfl, -, rfl⟩ | ⟨rfl, -, rfl⟩ | ⟨choice, e, rest, rfl, hpending, rfl⟩ := step_cases h
  · exact Or.inl rfl
  · exact Or.inl rfl
  · exact Or.inr ⟨hstart, rfl⟩
  · exact Or.inl rfl
  · exact Or.inl rfl
  · rw [hinv.idle hphase] at hpending
    simp at hpending

/-- The process does not go back to its start. -/
theorem step_starting (h : step client read address p a = some p') (hstart : p'.phase = .starting) :
    p.phase = .starting := by
  obtain ⟨key, val, rfl, -, rfl⟩ | ⟨key, rfl, -, rfl⟩ | ⟨answered, order, choice, rfl, hp, -,
    rfl⟩ | ⟨rfl, -, rfl⟩ | ⟨rfl, -, rfl⟩ | ⟨choice, e, rest, rfl, -, rfl⟩ := step_cases h
  · exact hstart
  · exact hstart
  · exact hp
  · simp at hstart
  · simp at hstart
  · exact hstart

theorem inv_start {view : V} (hnone : ∀ k, shown view k = none) :
    Inv read address shown (start view) :=
  ⟨by simp [start, GoMap.empty, Option.default_eq_none], by simp [start], fun _ => rfl, hnone ""⟩

end Steps

end Arcturus.StoreWatch
