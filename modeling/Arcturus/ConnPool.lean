import Arcturus.GoMaps
import Arcturus.StepRuns
import Mathlib.Data.Int.Order.Basic

/-!
The pool of idle connections to the origins and the clients that share it. A connection
is known by its number in the order of dialling. `Get` looks for an idle connection under
the lock and dials without it, so that these are two steps; the other operations are one
step each. A client puts back what it got, once and under the same address. Errors of
closing a connection are only logged and left out.
-/

namespace Arcturus.ConnPool

open GoMaps StepRuns

/-- Times are in nanoseconds, durations in words of sixty-four bits. -/
structure Config where
  maxIdle : ℤ
  maxLifetime : Int64

/-- A connection that was dialled. -/
structure Conn where
  addr : String
  closed : Bool
  deriving DecidableEq, Repr

structure PooledConn where
  conn : ℕ
  created : ℤ
  lastUsed : ℤ
  deriving DecidableEq, Repr

structure Pool where
  pools : GoMap String (List PooledConn)
  conns : List Conn

def closeConns (conns : List Conn) (ids : List ℕ) : List Conn :=
  ids.foldl (fun conns c => conns.modify c fun x => { x with closed := true }) conns

/-- The loop of `Get` over the idle connections: those that were closed, the one that was
taken, and those that are left. The clock is read anew for each of them. -/
def takeIdle (maxLifetime : Int64) (now : ℕ → ℤ) :
    List PooledConn → List ℕ × Option ℕ × List PooledConn
  | [] => ([], none, [])
  | pc :: rest =>
    if now 0 - pc.lastUsed > maxLifetime.toInt then
      let r := takeIdle maxLifetime (fun k => now (k + 1)) rest
      (pc.conn :: r.1, r.2)
    else ([], some pc.conn, rest)

def expired (cfg : Config) (now : ℤ) (pc : PooledConn) : Bool :=
  now - pc.lastUsed > cfg.maxLifetime.toInt || now - pc.created > (cfg.maxLifetime * 2).toInt

namespace Pool

def empty : Pool := ⟨GoMap.empty, []⟩

/-- The part of `Get` under the lock. -/
def get (cfg : Config) (p : Pool) (addr : String) (now : ℕ → ℤ) : Option ℕ × Pool :=
  let r := takeIdle cfg.maxLifetime now (p.pools.val addr)
  (r.2.1, ⟨p.pools.set addr r.2.2, closeConns p.conns r.1⟩)

def dial (p : Pool) (addr : String) : ℕ × Pool :=
  (p.conns.length, { p with conns := p.conns ++ [⟨addr, false⟩] })

def pushFront (p : Pool) (addr : String) (pc : PooledConn) : Pool :=
  { p with pools := p.pools.set addr (pc :: p.pools.val addr) }

def put (cfg : Config) (p : Pool) (addr : String) (c : ℕ) (healthy : Bool)
    (created lastUsed : ℤ) : Pool :=
  if addr ∉ p.pools.keys then { p with conns := closeConns p.conns [c] }
  else if !healthy ∨ cfg.maxIdle ≤ (p.pools.val addr).length then
    { p with conns := closeConns p.conns [c] }
  else p.pushFront addr ⟨c, created, lastUsed⟩

/-- The step of `cleanup` at one address; lists that become empty are deleted. -/
def sweep (cfg : Config) (now : ℤ) (p : Pool) (addr : String) : Pool :=
  let kept := (p.pools.val addr).filter fun pc => !expired cfg now pc
  let old := (p.pools.val addr).filter fun pc => expired cfg now pc
  ⟨if kept.isEmpty then p.pools.erase addr else p.pools.set addr kept,
    closeConns p.conns (old.map PooledConn.conn)⟩

def cleanup (cfg : Config) (now : ℤ) (p : Pool) : Pool :=
  p.pools.keys.foldl (sweep cfg now) p

def close (p : Pool) : Pool :=
  ⟨GoMap.empty, closeConns p.conns
    (p.pools.keys.flatMap fun addr => (p.pools.val addr).map PooledConn.conn)⟩

end Pool

/-- The pool, the connections that clients hold with the addresses they asked for, and the
calls of `Get` that are dialling. -/
structure Sys where
  pool : Pool
  held : List (String × ℕ)
  dialling : List String

def newTCPConnPool : Sys := ⟨Pool.empty, [], []⟩

inductive Action where
  | get (addr : String) (now : ℕ → ℤ)
  | dial (addr : String) (ok : Bool)
  | put (addr : String) (c : ℕ) (healthy : Bool) (created lastUsed : ℤ)
  | cleanup (now : ℤ)
  | close

def step (cfg : Config) (s : Sys) : Action → Option Sys
  | .get addr now =>
    match s.pool.get cfg addr now with
    | (some c, pool) => some { s with pool := pool, held := (addr, c) :: s.held }
    | (none, pool) => some { s with pool := pool, dialling := addr :: s.dialling }
  | .dial addr ok =>
    if addr ∈ s.dialling then
      let waiting := s.dialling.erase addr
      if ok then
        let r := s.pool.dial addr
        some ⟨r.2, (addr, r.1) :: s.held, waiting⟩
      else some { s with dialling := waiting }
    else none
  | .put addr c healthy created lastUsed =>
    if (addr, c) ∈ s.held then
      some { s with
        pool := s.pool.put cfg addr c healthy created lastUsed
        held := s.held.erase (addr, c) }
    else none
  | .cleanup now => some { s with pool := s.pool.cleanup cfg now }
  | .close => some { s with pool := s.pool.close }

/-- The connection is in the list of the address. -/
def Pool.Pooled (p : Pool) (addr : String) (c : ℕ) : Prop :=
  c ∈ (p.pools.val addr).map PooledConn.conn

/-- The connection was dialled to the address and has not been closed. -/
def Pool.OpenTo (p : Pool) (addr : String) (c : ℕ) : Prop := p.conns[c]? = some ⟨addr, false⟩

/-- Every connection is in one place: in a list of the pool, once, or with a client. -/
structure Owned (cfg : Config) (s : Sys) : Prop where
  once : ∀ addr, ((s.pool.pools.val addr).map PooledConn.conn).Nodup
  oneList : ∀ addr addr' c, s.pool.Pooled addr c → s.pool.Pooled addr' c → addr = addr'
  notHeld : ∀ addr c, s.pool.Pooled addr c → c ∉ s.held.map Prod.snd
  heldOnce : (s.held.map Prod.snd).Nodup
  pooledOpen : ∀ addr c, s.pool.Pooled addr c → ∃ a, s.pool.OpenTo a c
  dialled : ∀ addr c, (addr, c) ∈ s.held → ∃ closed, s.pool.conns[c]? = some ⟨addr, closed⟩
  bounded : ∀ addr, s.pool.pools.val addr ≠ [] →
    ((s.pool.pools.val addr).length : ℤ) ≤ cfg.maxIdle

namespace Pool

/-- What holds of the pool alone. -/
structure Sound (cfg : Config) (p : Pool) : Prop where
  once : ∀ addr, ((p.pools.val addr).map PooledConn.conn).Nodup
  pooledOpen : ∀ addr c, p.Pooled addr c → p.OpenTo addr c
  bounded : ∀ addr, p.pools.val addr ≠ [] → ((p.pools.val addr).length : ℤ) ≤ cfg.maxIdle

/-- Nothing is added to the lists, and connections outside of them stay open. -/
structure Shrinks (p p' : Pool) : Prop where
  pooled : ∀ addr c, p'.Pooled addr c → p.Pooled addr c
  outside : ∀ addr c, p.OpenTo addr c → (∀ a, ¬ p.Pooled a c) → p'.OpenTo addr c

variable {cfg : Config} {p p' : Pool} {addr a : String} {c : ℕ}

theorem shrinks_refl (p : Pool) : Shrinks p p := ⟨fun _ _ h => h, fun _ _ h _ => h⟩

theorem Shrinks.trans {q : Pool} (h : Shrinks p p') (h' : Shrinks p' q) : Shrinks p q where
  pooled addr c hc := h.pooled addr c (h'.pooled addr c hc)
  outside addr c hopen hout :=
    h'.outside addr c (h.outside addr c hopen hout) fun a ha => hout a (h.pooled a c ha)

theorem OpenTo.addr_eq (h : p.OpenTo addr c) (h' : p.OpenTo a c) : addr = a := by
  cases Option.some.inj (h.symm.trans h')
  rfl

theorem openTo_closeConns {conns : List Conn} {ids : List ℕ} :
    (closeConns conns ids)[c]? = some ⟨addr, false⟩ ↔
      conns[c]? = some ⟨addr, false⟩ ∧ c ∉ ids := by
  induction ids generalizing conns with
  | nil => simp [closeConns]
  | cons i ids ih =>
    rw [closeConns, List.foldl_cons, ← closeConns, ih, getElem?_modify_eq_some]
    by_cases hi : i = c
    · simp [hi]
    · have hne : c ≠ i := Ne.symm hi
      simp [hi, hne]

/-- A list of the pool is cut down to part of it, and some of the rest is closed. -/
theorem Sound.narrow {rest : List PooledConn} {gone : List ℕ} (hp : p.Sound cfg)
    (hval : p'.pools.val addr = rest) (hother : ∀ a, a ≠ addr → p'.pools.val a = p.pools.val a)
    (hconns : p'.conns = closeConns p.conns gone) (hrest : rest.Sublist (p.pools.val addr))
    (hgone : ∀ c ∈ gone, p.Pooled addr c ∧ c ∉ rest.map PooledConn.conn) :
    p'.Sound cfg ∧ Shrinks p p' := by
  have hpooled : ∀ a c, p'.Pooled a c → p.Pooled a c ∧ c ∉ gone := by
    intro a c hc
    unfold Pooled at hc
    by_cases ha : a = addr
    · subst ha
      rw [hval] at hc
      exact ⟨(hrest.map _).subset hc, fun hmem => (hgone c hmem).2 hc⟩
    · rw [hother a ha] at hc
      refine ⟨hc, fun hmem => ha ?_⟩
      exact (hp.pooledOpen a c hc).addr_eq (hp.pooledOpen addr c (hgone c hmem).1)
  have hopen : ∀ a c, p'.OpenTo a c ↔ p.OpenTo a c ∧ c ∉ gone := by
    intro a c
    unfold OpenTo
    rw [hconns]
    exact openTo_closeConns
  refine ⟨⟨?_, ?_, ?_⟩, ⟨fun a c hc => (hpooled a c hc).1, ?_⟩⟩
  · intro a
    by_cases ha : a = addr
    · subst ha
      rw [hval]
      exact (hp.once a).sublist (hrest.map _)
    · rw [hother a ha]
      exact hp.once a
  · intro a c hc
    obtain ⟨hold, hkept⟩ := hpooled a c hc
    exact (hopen a c).mpr ⟨hp.pooledOpen a c hold, hkept⟩
  · intro a hne
    by_cases ha : a = addr
    · subst ha
      rw [hval] at hne ⊢
      have hlength := hrest.length_le
      have hnonempty : p.pools.val a ≠ [] := by
        intro hnil
        rw [hnil] at hrest
        exact hne (List.sublist_nil.mp hrest)
      have hbound := hp.bounded a hnonempty
      omega
    · rw [hother a ha] at hne ⊢
      exact hp.bounded a hne
  · intro a c hc hout
    exact (hopen a c).mpr ⟨hc, fun hmem => hout addr (hgone c hmem).1⟩

/-- The loop of `Get` closes a first part of the list and takes what comes next. -/
theorem takeIdle_split (maxLifetime : Int64) (now : ℕ → ℤ) (l : List PooledConn) :
    l.map PooledConn.conn = (takeIdle maxLifetime now l).1 ++
        ((takeIdle maxLifetime now l).2.1.toList ++
          (takeIdle maxLifetime now l).2.2.map PooledConn.conn) ∧
      (takeIdle maxLifetime now l).2.2.Sublist l := by
  induction l generalizing now with
  | nil => simp [takeIdle]
  | cons pc rest ih =>
    unfold takeIdle
    split
    · obtain ⟨hsplit, hsub⟩ := ih fun k => now (k + 1)
      refine ⟨?_, hsub.cons pc⟩
      rw [List.map_cons, hsplit, List.cons_append]
    · simp

theorem get_sound (hp : p.Sound cfg) (addr : String) (now : ℕ → ℤ) :
    (p.get cfg addr now).2.Sound cfg ∧ Shrinks p (p.get cfg addr now).2 := by
  obtain ⟨hsplit, hsub⟩ := takeIdle_split cfg.maxLifetime now (p.pools.val addr)
  have hnodup := hp.once addr
  rw [hsplit, List.nodup_append] at hnodup
  refine hp.narrow (GoMap.set_val_same _ _ _) (fun a ha => GoMap.set_val_of_ne _ _ ha) rfl hsub ?_
  intro c hc
  refine ⟨?_, ?_⟩
  · unfold Pooled
    rw [hsplit]
    exact List.mem_append_left _ hc
  · intro hrest
    exact hnodup.2.2 c hc c (List.mem_append_right _ hrest) rfl

/-- The connection that `Get` takes from a list was in it, is there no more, and is open. -/
theorem get_taken (hp : p.Sound cfg) {now : ℕ → ℤ} (h : (p.get cfg addr now).1 = some c) :
    p.Pooled addr c ∧ (p.get cfg addr now).2.OpenTo addr c ∧
      ∀ a, ¬ (p.get cfg addr now).2.Pooled a c := by
  obtain ⟨hsplit, hsub⟩ := takeIdle_split cfg.maxLifetime now (p.pools.val addr)
  have hfound : (takeIdle cfg.maxLifetime now (p.pools.val addr)).2.1 = some c := h
  have hnodup := hp.once addr
  rw [hsplit, hfound, List.nodup_append] at hnodup
  obtain ⟨-, hrest, hclosed⟩ := hnodup
  have hpooled : p.Pooled addr c := by
    unfold Pooled
    rw [hsplit, hfound]
    simp
  refine ⟨hpooled, ?_, ?_⟩
  · refine openTo_closeConns.mpr ⟨hp.pooledOpen addr c hpooled, ?_⟩
    exact fun hmem => hclosed c hmem c (by simp) rfl
  · intro a ha
    by_cases haddr : a = addr
    · subst haddr
      unfold Pooled at ha
      rw [show (p.get cfg a now).2.pools.val a = _ from GoMap.set_val_same _ _ _] at ha
      simp only [Option.toList_some, List.singleton_append, List.nodup_cons] at hrest
      exact hrest.1 ha
    · unfold Pooled at ha
      rw [show (p.get cfg addr now).2.pools.val a = _ from GoMap.set_val_of_ne _ _ haddr] at ha
      exact haddr ((hp.pooledOpen a c ha).addr_eq (hp.pooledOpen addr c hpooled))

/-- The step of `cleanup` at an address filters its list and leaves the others. -/
theorem sweep_val (cfg : Config) (now : ℤ) (p : Pool) (addr a : String) :
    (sweep cfg now p addr).pools.val a =
      if a = addr then (p.pools.val a).filter fun pc => !expired cfg now pc
      else p.pools.val a := by
  unfold sweep
  dsimp only
  by_cases ha : a = addr
  · subst ha
    rw [if_pos rfl]
    split
    · rename_i hempty
      rw [GoMap.erase_val_same, List.isEmpty_iff.mp hempty]
      rfl
    · rw [GoMap.set_val_same]
  · rw [if_neg ha]
    split
    · exact GoMap.erase_val_of_ne _ ha
    · exact GoMap.set_val_of_ne _ _ ha

theorem sweep_sound (hp : p.Sound cfg) (now : ℤ) (addr : String) :
    (sweep cfg now p addr).Sound cfg ∧ Shrinks p (sweep cfg now p addr) := by
  have hval : (sweep cfg now p addr).pools.val addr =
      (p.pools.val addr).filter fun pc => !expired cfg now pc := by
    rw [sweep_val, if_pos rfl]
  have hother : ∀ a, a ≠ addr → (sweep cfg now p addr).pools.val a = p.pools.val a := by
    intro a ha
    rw [sweep_val, if_neg ha]
  refine hp.narrow hval hother rfl List.filter_sublist ?_
  intro c hc
  obtain ⟨pc, hpc, rfl⟩ := List.mem_map.mp hc
  obtain ⟨hmem, hexpired⟩ := List.mem_filter.mp hpc
  refine ⟨List.mem_map.mpr ⟨pc, hmem, rfl⟩, ?_⟩
  intro hkept
  obtain ⟨pc', hpc', heq⟩ := List.mem_map.mp hkept
  obtain ⟨hmem', hfresh⟩ := List.mem_filter.mp hpc'
  cases List.inj_on_of_nodup_map (hp.once addr) hmem' hmem heq
  simp [hexpired] at hfresh

theorem cleanup_sound (hp : p.Sound cfg) (now : ℤ) :
    (p.cleanup cfg now).Sound cfg ∧ Shrinks p (p.cleanup cfg now) := by
  unfold cleanup
  generalize p.pools.keys = addrs
  induction addrs generalizing p with
  | nil => exact ⟨hp, shrinks_refl p⟩
  | cons addr addrs ih =>
    obtain ⟨hsound, hshrinks⟩ := sweep_sound hp now addr
    obtain ⟨hsound', hshrinks'⟩ := ih hsound
    exact ⟨hsound', hshrinks.trans hshrinks'⟩

theorem close_sound (p : Pool) : p.close.Sound cfg ∧ Shrinks p p.close := by
  have hempty : ∀ a c, ¬ p.close.Pooled a c := by
    intro a c hc
    cases hc
  refine ⟨⟨fun a => List.nodup_nil, fun a c hc => absurd hc (hempty a c), ?_⟩,
    ⟨fun a c hc => absurd hc (hempty a c), ?_⟩⟩
  · intro a hne
    exact absurd rfl hne
  · intro a c hopen hout
    refine openTo_closeConns.mpr ⟨hopen, ?_⟩
    intro hmem
    obtain ⟨b, -, hc⟩ := List.mem_flatMap.mp hmem
    exact hout b hc

theorem openTo_dial : (p.dial addr).2.OpenTo a c ↔
    p.OpenTo a c ∨ (c = p.conns.length ∧ addr = a) := by
  unfold OpenTo dial
  rw [getElem?_concat_eq_some]
  simp

theorem dial_sound (hp : p.Sound cfg) (addr : String) : (p.dial addr).2.Sound cfg :=
  ⟨hp.once, fun a c hc => openTo_dial.mpr (Or.inl (hp.pooledOpen a c hc)), hp.bounded⟩

theorem OpenTo.lt (h : p.OpenTo addr c) : c < p.conns.length := (List.getElem?_eq_some_iff.mp h).1

theorem pooled_pushFront {pc : PooledConn} :
    (p.pushFront addr pc).Pooled a c ↔ (a = addr ∧ c = pc.conn) ∨ p.Pooled a c := by
  unfold Pooled pushFront
  by_cases ha : a = addr
  · subst ha
    simp [GoMap.set_val_same]
  · simp [GoMap.set_val_of_ne _ _ ha, ha]

/-- An open connection that is in no list goes to the front of the list of its address. -/
theorem pushFront_sound (hp : p.Sound cfg) {pc : PooledConn} (hopen : p.OpenTo addr pc.conn)
    (hout : ∀ a, ¬ p.Pooled a pc.conn) (hroom : ((p.pools.val addr).length : ℤ) < cfg.maxIdle) :
    (p.pushFront addr pc).Sound cfg := by
  refine ⟨?_, ?_, ?_⟩
  · intro a
    unfold pushFront
    by_cases ha : a = addr
    · subst ha
      rw [GoMap.set_val_same, List.map_cons, List.nodup_cons]
      exact ⟨hout a, hp.once a⟩
    · rw [GoMap.set_val_of_ne _ _ ha]
      exact hp.once a
  · intro a c hc
    rcases pooled_pushFront.mp hc with ⟨rfl, rfl⟩ | hold
    · exact hopen
    · exact hp.pooledOpen a c hold
  · intro a hne
    unfold pushFront at hne ⊢
    by_cases ha : a = addr
    · subst ha
      rw [GoMap.set_val_same, List.length_cons]
      omega
    · rw [GoMap.set_val_of_ne _ _ ha] at hne ⊢
      exact hp.bounded a hne

/-- A connection that is in no list is closed. -/
theorem closeConn_sound (hp : p.Sound cfg) (hout : ∀ a, ¬ p.Pooled a c) :
    Sound cfg { p with conns := closeConns p.conns [c] } := by
  refine ⟨hp.once, ?_, hp.bounded⟩
  intro a d hd
  refine openTo_closeConns.mpr ⟨hp.pooledOpen a d hd, ?_⟩
  intro hmem
  cases List.mem_singleton.mp hmem
  exact hout a hd

/-- A connection that is put back goes to the front of a list with room or is closed. -/
theorem put_cases (cfg : Config) (p : Pool) (addr : String) (c : ℕ) (healthy : Bool)
    (created lastUsed : ℤ) :
    p.put cfg addr c healthy created lastUsed = { p with conns := closeConns p.conns [c] } ∨
      (((p.pools.val addr).length : ℤ) < cfg.maxIdle ∧
        p.put cfg addr c healthy created lastUsed = p.pushFront addr ⟨c, created, lastUsed⟩) := by
  unfold put
  split
  · exact Or.inl rfl
  · split
    · exact Or.inl rfl
    · rename_i hroom
      exact Or.inr ⟨by omega, rfl⟩

theorem put_sound (hp : p.Sound cfg) (hopen : p.OpenTo addr c) (hout : ∀ a, ¬ p.Pooled a c)
    (healthy : Bool) (created lastUsed : ℤ) :
    (p.put cfg addr c healthy created lastUsed).Sound cfg := by
  rcases put_cases cfg p addr c healthy created lastUsed with heq | ⟨hroom, heq⟩
  · rw [heq]
    exact closeConn_sound hp hout
  · rw [heq]
    exact pushFront_sound hp hopen hout hroom

/-- Putting back a connection leaves the others as they are. -/
theorem put_other {d : ℕ} (hd : d ≠ c) (healthy : Bool) (created lastUsed : ℤ) :
    ((p.put cfg addr c healthy created lastUsed).Pooled a d → p.Pooled a d) ∧
      (p.OpenTo a d → (p.put cfg addr c healthy created lastUsed).OpenTo a d) := by
  rcases put_cases cfg p addr c healthy created lastUsed with heq | ⟨-, heq⟩
  · rw [heq]
    refine ⟨fun hpooled => hpooled, fun hopen => openTo_closeConns.mpr ⟨hopen, ?_⟩⟩
    exact fun hmem => hd (List.mem_singleton.mp hmem)
  · rw [heq]
    refine ⟨fun hpooled => ?_, fun hopen => hopen⟩
    rcases pooled_pushFront.mp hpooled with ⟨-, rfl⟩ | hold
    · exact absurd rfl hd
    · exact hold

end Pool

/-- The pool is sound, and what clients hold is open, in no list, and with one of them. -/
structure Inv (cfg : Config) (s : Sys) : Prop where
  sound : s.pool.Sound cfg
  heldOpen : ∀ addr c, (addr, c) ∈ s.held → s.pool.OpenTo addr c
  notHeld : ∀ addr c a, (addr, c) ∈ s.held → ¬ s.pool.Pooled a c
  heldOnce : (s.held.map Prod.snd).Nodup

section Steps
variable {cfg : Config} {s s' : Sys} {a : Action}

/-- What clients hold is left alone by operations that only take from the lists. -/
theorem Inv.shrinks (hs : Inv cfg s) {pool : Pool} (hsound : pool.Sound cfg)
    (hshrinks : s.pool.Shrinks pool) (dialling : List String) :
    Inv cfg ⟨pool, s.held, dialling⟩ where
  sound := hsound
  heldOpen addr c hc := hshrinks.outside addr c (hs.heldOpen addr c hc)
    fun a => hs.notHeld addr c a hc
  notHeld addr c a hc hpooled := hs.notHeld addr c a hc (hshrinks.pooled a c hpooled)
  heldOnce := hs.heldOnce

/-- A client comes to hold a connection that is open, in no list and not held. -/
theorem Inv.hold (hs : Inv cfg s) {addr : String} {c : ℕ} (hopen : s.pool.OpenTo addr c)
    (hout : ∀ a, ¬ s.pool.Pooled a c) (hnew : c ∉ s.held.map Prod.snd) :
    Inv cfg { s with held := (addr, c) :: s.held } := by
  refine ⟨hs.sound, ?_, ?_, ?_⟩
  · intro addr' c' hmem
    rcases List.mem_cons.mp hmem with heq | hold
    · cases heq
      exact hopen
    · exact hs.heldOpen addr' c' hold
  · intro addr' c' a hmem
    rcases List.mem_cons.mp hmem with heq | hold
    · cases heq
      exact hout a
    · exact hs.notHeld addr' c' a hold
  · rw [List.map_cons, List.nodup_cons]
    exact ⟨hnew, hs.heldOnce⟩

theorem Inv.get (hs : Inv cfg s) {addr : String} {now : ℕ → ℤ}
    (h : step cfg s (.get addr now) = some s') : Inv cfg s' := by
  obtain ⟨hsound, hshrinks⟩ := Pool.get_sound hs.sound addr now
  have hkept := hs.shrinks hsound hshrinks
  simp only [step] at h
  split at h
  · rename_i c pool hget
    cases h
    have hfst : (s.pool.get cfg addr now).1 = some c := by rw [hget]
    have hsnd : (s.pool.get cfg addr now).2 = pool := by rw [hget]
    obtain ⟨hpooled, hopen, hout⟩ := Pool.get_taken hs.sound hfst
    rw [hsnd] at hkept hopen hout
    refine (hkept s.dialling).hold hopen hout ?_
    intro hmem
    obtain ⟨⟨addr', c'⟩, hheld, rfl⟩ := List.mem_map.mp hmem
    exact hs.notHeld addr' c' addr hheld hpooled
  · rename_i pool hget
    cases h
    have hsnd : (s.pool.get cfg addr now).2 = pool := by rw [hget]
    rw [hsnd] at hkept
    exact hkept _

theorem Inv.dial (hs : Inv cfg s) {addr : String} {ok : Bool}
    (h : step cfg s (.dial addr ok) = some s') : Inv cfg s' := by
  simp only [step] at h
  obtain ⟨-, h⟩ := Option.ite_none_right_eq_some.mp h
  split at h
  · cases h
    have hfresh : ∀ a c, s.pool.OpenTo a c → c ≠ s.pool.conns.length := by
      intro a c hopen
      have hlt := hopen.lt
      omega
    have hdialled : Inv cfg ⟨(s.pool.dial addr).2, s.held, s.dialling.erase addr⟩ :=
      ⟨Pool.dial_sound hs.sound addr,
        fun addr' c hc => Pool.openTo_dial.mpr (Or.inl (hs.heldOpen addr' c hc)),
        hs.notHeld, hs.heldOnce⟩
    refine hdialled.hold (Pool.openTo_dial.mpr (Or.inr ⟨rfl, rfl⟩)) ?_ ?_
    · intro a hpooled
      exact hfresh a _ (hs.sound.pooledOpen a _ hpooled) rfl
    · intro hmem
      obtain ⟨⟨addr', c'⟩, hheld, hc'⟩ := List.mem_map.mp hmem
      exact hfresh addr' c' (hs.heldOpen addr' c' hheld) hc'
  · cases h
    exact hs.shrinks hs.sound (Pool.shrinks_refl _) _

theorem Inv.put (hs : Inv cfg s) {addr : String} {c : ℕ} {healthy : Bool} {created lastUsed : ℤ}
    (h : step cfg s (.put addr c healthy created lastUsed) = some s') : Inv cfg s' := by
  simp only [step] at h
  obtain ⟨hmem, h⟩ := Option.ite_none_right_eq_some.mp h
  cases h
  have hsound := Pool.put_sound hs.sound (hs.heldOpen addr c hmem)
    (fun a => hs.notHeld addr c a hmem) healthy created lastUsed
  -- what is still held is another connection
  have hother : ∀ addr' d, (addr', d) ∈ s.held.erase (addr, c) →
      (addr', d) ∈ s.held ∧ d ≠ c := by
    intro addr' d hd
    obtain ⟨hne, hheld⟩ := (hs.heldOnce.of_map _).mem_erase_iff.mp hd
    refine ⟨hheld, ?_⟩
    rintro rfl
    exact hne (List.inj_on_of_nodup_map hs.heldOnce hheld hmem rfl)
  refine ⟨hsound, ?_, ?_, ?_⟩
  · intro addr' d hd
    obtain ⟨hheld, hne⟩ := hother addr' d hd
    exact (Pool.put_other hne healthy created lastUsed).2 (hs.heldOpen addr' d hheld)
  · intro addr' d a hd hpooled
    obtain ⟨hheld, hne⟩ := hother addr' d hd
    exact hs.notHeld addr' d a hheld ((Pool.put_other hne healthy created lastUsed).1 hpooled)
  · exact hs.heldOnce.sublist (List.erase_sublist.map _)

theorem step_inv (hs : Inv cfg s) (h : step cfg s a = some s') : Inv cfg s' := by
  cases a with
  | get addr now => exact hs.get h
  | dial addr ok => exact hs.dial h
  | put addr c healthy created lastUsed => exact hs.put h
  | cleanup now =>
    cases Option.some.inj h
    obtain ⟨hsound, hshrinks⟩ := Pool.cleanup_sound hs.sound now
    exact hs.shrinks hsound hshrinks _
  | close =>
    cases Option.some.inj h
    obtain ⟨hsound, hshrinks⟩ := Pool.close_sound s.pool
    exact hs.shrinks hsound hshrinks _

/-- The connection that `Get` finds is the one that the client holds from then on. -/
theorem held_get {addr : String} {now : ℕ → ℤ} (h : step cfg s (.get addr now) = some s') :
    s'.held = match (s.pool.get cfg addr now).1 with
      | some c => (addr, c) :: s.held
      | none => s.held := by
  simp only [step] at h
  split at h
  · rename_i hget
    cases h
    rw [hget]
  · rename_i hget
    cases h
    rw [hget]

theorem held_dial {addr : String} {ok : Bool} (h : step cfg s (.dial addr ok) = some s') :
    s'.held = if ok then (addr, (s.pool.dial addr).1) :: s.held else s.held := by
  simp only [step] at h
  obtain ⟨-, h⟩ := Option.ite_none_right_eq_some.mp h
  split at h
  · rename_i hok
    cases h
    rw [if_pos hok]
  · rename_i hok
    cases h
    rw [if_neg hok]

theorem held_put {addr : String} {c : ℕ} {healthy : Bool} {created lastUsed : ℤ}
    (h : step cfg s (.put addr c healthy created lastUsed) = some s') :
    s'.held = s.held.erase (addr, c) := by
  obtain ⟨-, h⟩ := Option.ite_none_right_eq_some.mp h
  cases h
  rfl

/-- What a client comes to hold, nobody held before. -/
theorem Inv.notMem_of_held_cons (hs : Inv cfg s') {addr : String} {c : ℕ}
    (h : s'.held = (addr, c) :: s.held) : c ∉ s.held.map Prod.snd := by
  have hnodup := hs.heldOnce
  rw [h, List.map_cons, List.nodup_cons] at hnodup
  exact hnodup.1

theorem Inv.owned (hs : Inv cfg s) : Owned cfg s where
  once := hs.sound.once
  oneList addr addr' c hc hc' :=
    (hs.sound.pooledOpen addr c hc).addr_eq (hs.sound.pooledOpen addr' c hc')
  notHeld addr c hc hmem := by
    obtain ⟨⟨addr', c'⟩, hheld, rfl⟩ := List.mem_map.mp hmem
    exact hs.notHeld addr' c' addr hheld hc
  heldOnce := hs.heldOnce
  pooledOpen addr c hc := ⟨addr, hs.sound.pooledOpen addr c hc⟩
  dialled addr c hc := ⟨false, hs.heldOpen addr c hc⟩
  bounded := hs.sound.bounded

end Steps

theorem inv_new (cfg : Config) : Inv cfg newTCPConnPool where
  sound := ⟨fun _ => List.nodup_nil, fun _ _ hc => (by cases hc), fun _ hne => absurd rfl hne⟩
  heldOpen _ _ hc := by cases hc
  notHeld _ _ _ hc := by cases hc
  heldOnce := List.nodup_nil

/-- In every run, no connection is twice in the pool, in the pool and with a client, or
with two clients; what is in the pool is open; what a client got for an address was
dialled to it; and no list holds more than `maxIdle` connections. -/
theorem pool_owned (cfg : Config) (actions : List Action) (s : Sys)
    (hrun : run (step cfg) newTCPConnPool actions = some s) : Owned cfg s :=
  (run_keeps (fun _ _ _ hs h => step_inv hs h) (inv_new cfg) hrun).owned

def sampleReuse : List Action :=
  [.get "origin:80" fun _ => 0, .dial "origin:80" true, .put "origin:80" 0 true 1 1,
    .get "origin:80" fun _ => 10]

/-- A connection is dialled, put back and taken again. -/
theorem pool_owned_reuse : ∃ s, run (step ⟨2, 60⟩) newTCPConnPool sampleReuse = some s ∧
    s.held = [("origin:80", 0)] ∧ Owned ⟨2, 60⟩ s :=
  ⟨_, rfl, rfl, pool_owned ⟨2, 60⟩ sampleReuse _ rfl⟩

end Arcturus.ConnPool
