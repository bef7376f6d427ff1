import Arcturus.TunnelManager

/-!
Which connections `CloseTunnel` closes. It looks the connection up by the address once
more, so that it can meet one that was dialled after the caller had failed.
-/

namespace Arcturus.TunnelManager

open StepRuns

/-- The connection is closed, or taken out of the map. -/
def Loses (m m' : Manager) (conn : ℕ) : Prop :=
  ∃ addr, (m.OpenTo addr conn ∧ ¬ m'.OpenTo addr conn) ∨
    (m.find addr = some conn ∧ m'.find addr ≠ some conn)

/-- Only the connection on which the sender failed is lost. -/
def ClosesOwn (s : Sys) (a : Action) (s' : Sys) : Prop :=
  ∀ conn, Loses s.manager s'.manager conn → ∃ x, ClosesAfter s a x conn

/-- No other connection to the address of the sender is open. -/
def NotReplaced (s : Sys) (a : Action) : Prop :=
  ∀ x conn, ClosesAfter s a x conn → ∀ other, s.manager.OpenTo x.addr other → other = conn

section Steps
variable {s s' : Sys} {a : Action}

theorem closesAfter_unique {x x' : Sender} {conn conn' : ℕ} (h : ClosesAfter s a x conn)
    (h' : ClosesAfter s a x' conn') : x = x' ∧ conn = conn' := by
  obtain ⟨i, err, ha, hx, hphase⟩ := h
  obtain ⟨i', err', ha', hx', hphase'⟩ := h'
  cases ha.symm.trans ha'
  cases Option.some.inj (hx.symm.trans hx')
  cases hphase.symm.trans hphase'
  exact ⟨rfl, rfl⟩

theorem ClosesAfter.step_eq {x : Sender} {conn : ℕ} (h : ClosesAfter s a x conn) :
    ∃ s', step s a = some s' ∧ s'.manager = s.manager.closeTunnel x.addr := by
  obtain ⟨i, err, rfl, hx, hphase⟩ := h
  simp [step, hx, proceed, hphase]

/-- `CloseTunnel` loses the connection that is open to the address, and no other step
loses one. -/
theorem loses_iff (hs : s.manager.Consistent) (h : step s a = some s') {conn : ℕ} :
    Loses s.manager s'.manager conn ↔
      ∃ x own, ClosesAfter s a x own ∧ s.manager.OpenTo x.addr conn := by
  constructor
  · rintro ⟨addr, hlost⟩
    have hopen : s.manager.OpenTo addr conn := by
      rcases hlost with hlost | hlost
      · exact hlost.1
      · exact (hs addr conn).mp hlost.1
    have hgone : ¬ s'.manager.OpenTo addr conn := by
      rcases hlost with hlost | hlost
      · exact hlost.2
      · rw [← step_consistent hs h addr conn]
        exact hlost.2
    -- whatever is open stays open, unless the step is a call of `CloseTunnel`
    rcases step_cases h with hsame | ⟨addr', -, hdial⟩ | ⟨conn', data, hwrite⟩ |
      ⟨x, own, hcloses, hclose⟩
    · rw [hsame] at hgone
      exact absurd hopen hgone
    · rw [hdial, Manager.openTo_dial] at hgone
      exact absurd (Or.inl hopen) hgone
    · rw [hwrite, Manager.openTo_write] at hgone
      exact absurd hopen hgone
    · rw [hclose, Manager.openTo_closeTunnel] at hgone
      refine ⟨x, own, hcloses, ?_⟩
      by_contra hother
      exact hgone ⟨hopen, fun hfind => hother ((hs _ _).mp hfind)⟩
  · rintro ⟨x, own, hcloses, hopen⟩
    obtain ⟨t, ht, hclose⟩ := hcloses.step_eq
    cases Option.some.inj (h.symm.trans ht)
    refine ⟨x.addr, Or.inl ⟨hopen, ?_⟩⟩
    rw [hclose, Manager.openTo_closeTunnel]
    exact fun hkept => hkept.2 ((hs x.addr conn).mpr hopen)

theorem step_closesOwn_iff (hs : s.manager.Consistent) :
    (∀ s', step s a = some s' → ClosesOwn s a s') ↔ NotReplaced s a := by
  constructor
  · intro hown x conn hcloses other hopen
    obtain ⟨s', hstep, -⟩ := hcloses.step_eq
    obtain ⟨x', hother⟩ := hown s' hstep other ((loses_iff hs hstep).mpr ⟨x, conn, hcloses, hopen⟩)
    exact (closesAfter_unique hother hcloses).2
  · intro hnot s' hstep conn hlost
    obtain ⟨x, own, hcloses, hopen⟩ := (loses_iff hs hstep).mp hlost
    cases hnot x own hcloses conn hopen
    exact ⟨x, hcloses⟩

theorem not_closesOwn {x : Sender} {conn other : ℕ} (hcloses : ClosesAfter s a x conn)
    (hopen : s.manager.OpenTo x.addr other) (hgone : ¬ s'.manager.OpenTo x.addr other)
    (hne : other ≠ conn) : ¬ ClosesOwn s a s' := by
  intro hown
  obtain ⟨x', hother⟩ := hown other ⟨x.addr, Or.inl ⟨hopen, hgone⟩⟩
  exact hne (closesAfter_unique hother hcloses).2

end Steps

/-- In every run, `CloseTunnel` closes and removes nothing but the connection on which
its caller failed if and only if it is never called while another connection to the
address is open. -/
theorem closesOwn_iff (actions : List Action) :
    AllSteps step (fun s a => ∀ s', step s a = some s' → ClosesOwn s a s')
        newTunnelManager actions ↔
      AllSteps step NotReplaced newTunnelManager actions :=
  allSteps_congr (fun _ _ _ hs hstep => step_consistent hs hstep)
    (fun _ _ hs => step_closesOwn_iff hs) consistent_start

section Samples

/-- Two calls fail on one connection; the first closes it, and a third call dials the
address again. -/
def redialled : List Action :=
  [.sendPacket (some "10.0.0.2") [1], .sendPacket (some "10.0.0.2") [2],
    .proceed 0 .lookup, .proceed 0 (.create .established), .proceed 1 .lookup,
    .proceed 0 (.openStream (some "timeout")), .proceed 1 (.openStream (some "timeout")),
    .proceed 0 .close, .sendPacket (some "10.0.0.2") [3], .proceed 2 .lookup,
    .proceed 2 (.create .established)]

/-- The second call closes the connection of the third. -/
theorem second_close_hits_fresh : ∃ s s' : Sys, ∃ x : Sender,
    run step newTunnelManager redialled = some s ∧
      step s (.proceed 1 .close) = some s' ∧
      ClosesAfter s (.proceed 1 .close) x 0 ∧
      s.manager.OpenTo x.addr 1 ∧ ¬ s'.manager.OpenTo x.addr 1 ∧
      ¬ ClosesOwn s (.proceed 1 .close) s' := by
  refine ⟨_, _, ⟨"10.0.0.2", [2], .close 0 "timeout"⟩, rfl, rfl, ?closes, ?opened, ?gone,
    not_closesOwn ?closes ?opened ?gone (by omega)⟩
  case closes => exact ⟨1, "timeout", rfl, rfl, rfl⟩
  case opened => exact ⟨⟨"10.0.0.2:4433", false, []⟩, rfl, by decide +kernel, rfl⟩
  case gone =>
    rintro ⟨c, hc, -, hopen⟩
    have hclosed : some c = some ⟨"10.0.0.2:4433", true, []⟩ := hc.symm
    cases Option.some.inj hclosed
    cases hopen

end Samples

end Arcturus.TunnelManager
