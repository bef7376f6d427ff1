import Arcturus.ListenerRegistry

/-!
Which listener an accept loop gets and which ones a stop closes. The maps have room for
one listener a port, whatever its protocol, so that an entry can be of another protocol
than the server that looks it up, can be gone, or can have replaced a listener that is
still open.
-/

namespace Arcturus.ListenerRegistry

open StepRuns

/-- The step closes the listener. -/
def Closes (s s' : Sys) (l : ℕ) : Prop :=
  ∃ p port, s.OpenFor p port l ∧ ¬ s'.OpenFor p port l

/-- The accept loop gets a listener of its protocol and port. The assertion of a stop
holds on the entry, if there is one, and the stop closes the running listeners of its
protocol and port and no others. Nothing else closes a listener. -/
def Consistent (s : Sys) (a : Action) (s' : Sys) : Prop :=
  match a with
  | .accept k => ∃ p port l closed, s'.loops[k]? = some ⟨p, port, .accepting l⟩ ∧
      s'.listeners[l]? = some ⟨p, port, closed⟩
  | .stopRequest portStr protocol _ => ∀ p port, parseRequest portStr protocol = .ok (p, port) →
      (∀ l, s.listenerMap.val port = some l → s.assertion p port = some l) ∧
        ∀ l, Closes s s' l ↔ s.Running p port l
  | _ => ∀ l, ¬ Closes s s' l

/-- When an accept loop looks for its listener, the listener that was entered last for the
port is of the protocol of the loop and still open. When a stop comes in, the listener that
was entered last for the port is of its protocol, if it is still open, and every running
listener of its protocol and port was entered last. -/
def Orderly (s : Sys) : Action → Prop
  | .accept k => ∀ p port, s.loops[k]? = some ⟨p, port, .starting⟩ →
      ∃ l, s.latest port = some l ∧ s.OpenFor p port l
  | .stopRequest portStr protocol _ => ∀ p port, parseRequest portStr protocol = .ok (p, port) →
      (∀ q l, s.latest port = some l → s.OpenFor q port l → q = p) ∧
        ∀ l, s.Running p port l → s.latest port = some l
  | _ => True

section Steps
variable {s s' : Sys} {a : Action} {p : Protocol} {port : ℤ} {l : ℕ}

theorem stopServer_cases (s : Sys) (p : Protocol) (port : ℤ) (err : Option String) :
    (∃ l r, s.assertion p port = some l ∧
        s.stopServer p port err = (s.closeListener port l).answer r) ∨
      (s.assertion p port = none ∧ ∃ r, s.stopServer p port err = s.answer r) := by
  unfold Sys.stopServer
  split
  · rename_i l hl
    split
    · exact Or.inl ⟨l, _, hl, rfl⟩
    · exact Or.inl ⟨l, _, hl, rfl⟩
  · rename_i hnone
    split
    · exact Or.inr ⟨hnone, _, rfl⟩
    · exact Or.inr ⟨hnone, _, rfl⟩

theorem leaves_answer (h : s.Leaves s') (r : Response) : s.Leaves (s'.answer r) :=
  ⟨h.listeners, h.listenerMap, h.registered, h.starts⟩

/-- What a start does in one step: nothing that others see, open a listener, enter it. -/
theorem startStep_cases {i : ℕ} {err : Option String} (h : s.startStep i err = some s') :
    s.Leaves s' ∨
      (∃ st, s' = (s.setPhase i st (.register s.listeners.length)).openListener
        st.protocol st.port) ∨
      ∃ st l, s.starts[i]? = some st ∧ st.phase = .register l ∧
        s' = (s.setPhase i st .launch).register st.port l := by
  have hphase : ∀ st phase, (∀ l, phase ≠ Phase.register l) → s.Leaves (s.setPhase i st phase) :=
    fun st phase => Sys.leaves_setPhase
  have hlisten : ∀ st, s.Leaves (s.setPhase i st .listen) :=
    fun st => hphase st _ fun _ => Phase.noConfusion
  have hlaunch : ∀ st, s.Leaves (s.setPhase i st .launch) :=
    fun st => hphase st _ fun _ => Phase.noConfusion
  have hdone : ∀ st, s.Leaves (s.setPhase i st .done) :=
    fun st => hphase st _ fun _ => Phase.noConfusion
  have hstarted : ∀ st, s.Leaves ((s.setPhase i st .done).launch st.protocol st.port) :=
    fun st => ⟨rfl, rfl, rfl, (hdone st).starts⟩
  unfold Sys.startStep at h
  split at h
  · cases h
  rename_i st hst
  split at h
  · cases h
  split at h
  case h_1 =>
    split at h
    · cases h
      exact Or.inl (leaves_answer (hdone st) _)
    · cases h
      exact Or.inl (hlisten st)
  case h_2 =>
    split at h
    · cases h
      exact Or.inr (Or.inl ⟨st, rfl⟩)
    · split at h
      · cases h
        exact Or.inl (hlaunch st)
      · cases h
        exact Or.inl (leaves_answer (hdone st) _)
  case h_3 l hl =>
    cases h
    exact Or.inr (Or.inr ⟨st, l, hst, hl, rfl⟩)
  case h_4 =>
    dsimp only at h
    split at h
    · cases h
      exact Or.inl (hstarted st)
    · cases h
      exact Or.inl (leaves_answer (hstarted st) _)
  case h_5 => cases h

theorem startServerRun_leaves {k : ℕ} (h : s.startServerRun k = some s') : s.Leaves s' := by
  have hsame := Sys.leaves_refl s
  unfold Sys.startServerRun at h
  split at h
  · split at h <;> cases h <;> exact ⟨rfl, rfl, rfl, hsame.starts⟩
  · cases h

/-- What a step may do to the maps. -/
theorem step_cases (h : step s a = some s') :
    s.Leaves s' ∨
      (∃ i st, s' = (s.setPhase i st (.register s.listeners.length)).openListener
        st.protocol st.port) ∨
      (∃ i st l, s.starts[i]? = some st ∧ st.phase = .register l ∧
        s' = (s.setPhase i st .launch).register st.port l) ∨
      ∃ portStr protocol err p port l r, a = .stopRequest portStr protocol err ∧
        parseRequest portStr protocol = .ok (p, port) ∧ s.assertion p port = some l ∧
        s' = (s.closeListener port l).answer r := by
  unfold step at h
  split at h
  · cases h
  cases a with
  | startRequest portStr protocol =>
    obtain ⟨-, h⟩ := Option.ite_none_right_eq_some.mp h
    refine Or.inl ?_
    split at h
    · cases h
      exact leaves_answer (Sys.leaves_refl s) _
    · rename_i p port _
      cases h
      exact Sys.leaves_request s p port
  | stopRequest portStr protocol err =>
    obtain ⟨-, h⟩ := Option.ite_none_right_eq_some.mp h
    split at h
    · cases h
      exact Or.inl (leaves_answer (Sys.leaves_refl s) _)
    · rename_i p port hparse
      cases h
      rcases stopServer_cases s p port err with ⟨l, r, hl, heq⟩ | ⟨-, r, heq⟩
      · exact Or.inr (Or.inr (Or.inr
          ⟨portStr, protocol, err, p, port, l, r, rfl, hparse, hl, heq⟩))
      · rw [heq]
        exact Or.inl (leaves_answer (Sys.leaves_refl s) r)
  | proceed i err =>
    rcases startStep_cases h with hleaves | ⟨st, hopens⟩ | ⟨st, l, hregisters⟩
    · exact Or.inl hleaves
    · exact Or.inr (Or.inl ⟨i, st, hopens⟩)
    · exact Or.inr (Or.inr (Or.inl ⟨i, st, l, hregisters⟩))
  | accept k => exact Or.inl (startServerRun_leaves h)

theorem step_inv (hs : s.Inv) (h : step s a = some s') : s'.Inv := by
  rcases step_cases h with hleaves | ⟨i, st, rfl⟩ | ⟨i, st, l, hi, hl, rfl⟩ |
    ⟨portStr, protocol, err, p, port, l, r, -, -, hl, rfl⟩
  · exact hs.leaves hleaves
  · exact hs.opens i st
  · exact hs.registers hi hl
  · obtain ⟨hlatest, hopen⟩ := hs.assertion_eq_some_iff.mp hl
    exact (hs.closes hlatest hopen).leaves (leaves_answer (Sys.leaves_refl _) r)

/-- Nothing but a stop closes a listener. -/
theorem not_closes (h : step s a = some s')
    (ha : ∀ portStr protocol err, a ≠ .stopRequest portStr protocol err) : ¬ Closes s s' l := by
  rintro ⟨q, port, hopen, hclosed⟩
  refine hclosed ?_
  rcases step_cases h with hleaves | ⟨i, st, rfl⟩ | ⟨i, st, l', -, -, rfl⟩ |
    ⟨portStr, protocol, err, _, _, _, _, rfl, -⟩
  · exact hleaves.openFor.mpr hopen
  · exact Sys.openFor_openListener.mpr (Or.inl hopen)
  · exact hopen
  · exact absurd rfl (ha portStr protocol err)

/-- A stop closes the listener that it finds. -/
theorem closes_stopServer (hs : s.Inv) {err : Option String} :
    Closes s (s.stopServer p port err) l ↔ s.assertion p port = some l := by
  rcases stopServer_cases s p port err with ⟨l', r, hl', heq⟩ | ⟨hnone, r, heq⟩
  · have hafter : ∀ q port', (s.stopServer p port err).OpenFor q port' l ↔
        s.OpenFor q port' l ∧ l' ≠ l := by
      intro q port'
      rw [heq]
      exact Sys.openFor_closeListener port
    constructor
    · rintro ⟨q, port', hopen, hclosed⟩
      rw [hafter] at hclosed
      rw [hl', not_not.mp fun hne => hclosed ⟨hopen, hne⟩]
    · intro hl
      refine ⟨p, port, (hs.assertion_eq_some_iff.mp hl).2, ?_⟩
      rw [hafter]
      exact fun hopen => hopen.2 (Option.some.inj (hl'.symm.trans hl))
  · rw [hnone, heq]
    refine ⟨?_, fun h => by cases h⟩
    rintro ⟨q, port', hopen, hclosed⟩
    exact absurd hopen hclosed

theorem stop_consistent_iff (hs : s.Inv) {err : Option String} :
    ((∀ l, s.listenerMap.val port = some l → s.assertion p port = some l) ∧
        ∀ l, Closes s (s.stopServer p port err) l ↔ s.Running p port l) ↔
      (∀ q l, s.latest port = some l → s.OpenFor q port l → q = p) ∧
        ∀ l, s.Running p port l → s.latest port = some l := by
  simp only [closes_stopServer hs, hs.assertion_eq_some_iff, hs.entry]
  refine and_congr ?_ ?_
  · constructor
    · intro h q l hlatest hopen
      exact (hopen.unique (h l ⟨hlatest, q, hopen⟩).2).1
    · rintro h l ⟨hlatest, q, hopen⟩
      cases h q l hlatest hopen
      exact ⟨hlatest, hopen⟩
  · constructor
    · exact fun h l hrunning => ((h l).mpr hrunning).1
    · intro h l
      constructor
      · exact fun hl => ⟨Sys.mem_registered_of_latest hl.1, hl.2⟩
      · exact fun hrunning => ⟨h l hrunning, hrunning.2⟩

/-- An accept loop runs if the assertion holds. -/
theorem accepting_iff {k : ℕ} (hk : s.loops[k]? = some ⟨p, port, .starting⟩)
    (h : s.startServerRun k = some s') {q : Protocol} {port' : ℤ} :
    s'.loops[k]? = some ⟨q, port', .accepting l⟩ ↔
      q = p ∧ port' = port ∧ s.assertion p port = some l := by
  have hlt : k < s.loops.length := (List.getElem?_eq_some_iff.mp hk).1
  unfold Sys.startServerRun at h
  rw [hk] at h
  cases hl : s.assertion p port with
  | some l' =>
    simp only [hl, Option.some.injEq] at h
    rw [← h]
    simp [List.getElem?_set_self hlt, eq_comm]
  | none =>
    cases p with
    | tcp =>
      simp only [hl, Option.some.injEq] at h
      rw [← h]
      simp [hk]
    | udp =>
      simp only [hl, Option.some.injEq] at h
      rw [← h]
      simp [List.getElem?_set_self hlt]

theorem startServerRun_starting {k : ℕ} (h : s.startServerRun k = some s') :
    ∃ p port, s.loops[k]? = some ⟨p, port, .starting⟩ := by
  unfold Sys.startServerRun at h
  split at h
  · rename_i p port hk
    exact ⟨p, port, hk⟩
  · cases h

theorem accept_consistent_iff (hs : s.Inv) {k : ℕ} (h : s.startServerRun k = some s') :
    Consistent s (.accept k) s' ↔ Orderly s (.accept k) := by
  obtain ⟨p, port, hk⟩ := startServerRun_starting h
  have hlisteners : s'.listeners = s.listeners := (startServerRun_leaves h).listeners
  constructor
  · rintro ⟨q, port', l, closed, hloop, -⟩ p' port'' hk'
    cases Option.some.inj (hk.symm.trans hk')
    obtain ⟨-, -, hl⟩ := (accepting_iff hk h).mp hloop
    exact ⟨l, hs.assertion_eq_some_iff.mp hl⟩
  · intro horderly
    obtain ⟨l, hlatest, hopen⟩ := horderly p port hk
    refine ⟨p, port, l, false, ?_, ?_⟩
    · exact (accepting_iff hk h).mpr ⟨rfl, rfl, hs.assertion_eq_some_iff.mpr ⟨hlatest, hopen⟩⟩
    · rw [hlisteners]
      exact hopen

theorem not_crashed (h : step s a = some s') : s.crashed = false := by
  unfold step at h
  split at h
  · cases h
  · rename_i hcrashed
    simpa using hcrashed

/-- What a step does is consistent exactly if it comes at the right time. -/
theorem step_consistent_iff (hs : s.Inv) (h : step s a = some s') :
    Consistent s a s' ↔ Orderly s a := by
  cases a with
  | startRequest portStr protocol =>
    exact iff_of_true (fun l => not_closes h fun _ _ _ => Action.noConfusion) trivial
  | proceed i err =>
    exact iff_of_true (fun l => not_closes h fun _ _ _ => Action.noConfusion) trivial
  | stopRequest portStr protocol err =>
    refine forall_congr' fun p => forall_congr' fun port => ?_
    refine imp_congr_right fun hparse => ?_
    have hs' : s.stopServer p port err = s' := by
      simp only [step, not_crashed h, hparse] at h
      exact Option.some.inj (Option.ite_none_right_eq_some.mp h).2
    rw [← hs']
    exact stop_consistent_iff hs
  | accept k =>
    have hrunning : ¬ s.crashed = true := by simp [not_crashed h]
    rw [step, if_neg hrunning] at h
    exact accept_consistent_iff hs h

end Steps

/-- In every run from any configuration, all steps are consistent if and only if every
accept loop and every stop comes at a time when the listener that was entered last for
its port is the one it is about. -/
theorem registry_consistent_iff (config : List (String × ℤ)) (actions : List Action) :
    AllSteps step (fun s a => ∀ s', step s a = some s' → Consistent s a s')
        (startup config) actions ↔
      AllSteps step (fun s a => ∀ s', step s a = some s' → Orderly s a)
        (startup config) actions := by
  refine allSteps_congr (fun s a s' => step_inv) ?_ (Sys.inv_startup config)
  intro s a hs
  exact forall_congr' fun s' => imp_congr_right fun h => step_consistent_iff hs h

section Samples

/-- A configuration with one port number for both protocols, worked off before the first
accept loop looks for its listener. -/
def bothProtocols : List Action :=
  [.proceed 0 none, .proceed 0 none, .proceed 0 none, .proceed 1 none, .proceed 1 none,
    .proceed 1 none]

/-- The first accept loop finds the listener of the other protocol and panics. -/
theorem accept_finds_other_protocol : ∃ s s' : Sys,
    run step (startup [("tcp", 5000), ("udp", 5000)]) bothProtocols = some s ∧
      s.loops[0]? = some ⟨.tcp, 5000, .starting⟩ ∧ s.OpenFor .tcp 5000 0 ∧
      s.listenerMap.val 5000 = some 1 ∧ s.OpenFor .udp 5000 1 ∧
      step s (.accept 0) = some s' ∧ s'.crashed = true ∧ ¬ Consistent s (.accept 0) s' := by
  refine ⟨_, _, rfl, rfl, rfl, rfl, rfl, rfl, rfl, ?_⟩
  rintro ⟨p, port, l, closed, hloop, -⟩
  cases hloop

end Samples

end Arcturus.ListenerRegistry
