import Arcturus.StoreWatch

/-!
What the view shows over whole runs. While the watch is open, the view and the events on
their way together follow the store, so that in the end each key shows what the keys read
at the start and the events since the opening leave of it.
-/

namespace Arcturus.StoreWatch

open GoMaps KeyedLogs LastMile StepRuns

section Steps
variable {V O T : Type*} {client : Client V O} {read : String → Option T} {address : T → String}
  {p p' : Prefix V} {a : Action O} {actions : List (Action O)} {shown : V → String → Option T}

variable (hclient : Enters client read address shown)
include hclient

/-- The loop over the values leaves what it has met under each key. -/
theorem shown_foldl_enter {store : GoMap String (Option String)} (choice : O)
    (hvalid : ∀ k val, store.val k = some val → Valid read address k val) (order : List String)
    (v : V) (k : String) :
    shown ((getPrefixAll store order).foldl (fun v val => client.enter v val choice) v) k =
      if k ∈ order ∧ (store.val k).isSome then (store.val k).bind read else shown v k := by
  induction order generalizing v with
  | nil => simp [getPrefixAll]
  | cons a order ih =>
    cases hval : store.val a with
    | none =>
      have hskip : getPrefixAll store (a :: order) = getPrefixAll store order :=
        List.filterMap_cons_none hval
      rw [hskip, ih]
      by_cases hka : k = a
      · subst hka
        simp [hval]
      · simp [hka]
    | some val =>
      have hmeet : getPrefixAll store (a :: order) = val :: getPrefixAll store order :=
        List.filterMap_cons_some hval
      obtain ⟨t, ht, rfl⟩ := (hvalid a val hval).exists_read
      rw [hmeet, List.foldl_cons, ih, hclient.enter v val choice t ht (hvalid _ val hval).2.1]
      by_cases hka : k = address t
      · subst hka
        simp [hval, ht]
      · simp [hka]

/-- What the process has read is what its view shows. -/
theorem shown_loadView {answered : Bool} {order : List String} {choice : O}
    (hinv : Inv read address shown p) (hperm : order.Perm p.store.keys)
    (hnone : ∀ k, shown p.view k = none) :
    shown (loadView client p answered order choice) = snapshot read p answered := by
  funext k
  unfold loadView snapshot Prefix.stored
  cases answered with
  | false => exact hnone k
  | true =>
    rw [if_pos rfl, if_pos rfl, shown_foldl_enter hclient choice hinv.valid]
    by_cases hk : k ∈ order ∧ (p.store.val k).isSome
    · rw [if_pos hk]
    · rw [if_neg hk, hnone]
      cases hval : p.store.val k with
      | none => rfl
      | some val =>
        have hmem : k ∈ p.store.keys := by
          by_contra habsent
          rw [p.store.absent k habsent] at hval
          simp [Option.default_eq_none] at hval
        exact absurd ⟨hperm.mem_iff.mpr hmem, by simp [hval]⟩ hk

theorem shown_handle {e : Event} (he : Sent read address e) (v : V) (choice : O)
    (hnone : shown v "" = none) :
    shown (client.callback v e.eventType e.key e.val choice) = shown v ∧ e.eventType = .delete ∨
      ∃ t, read e.val = some t ∧ (e.eventType = .create ∨ e.eventType = .update) ∧ e.key ≠ "" ∧
        shown (client.callback v e.eventType e.key e.val choice) =
          Function.update (shown v) e.key (some t) := by
  rcases he with ⟨htype, hvalid⟩ | ⟨htype, hval⟩
  · obtain ⟨t, ht, hkey⟩ := hvalid.exists_read
    have hne : address t ≠ "" := hkey.symm ▸ hvalid.2.1
    refine Or.inr ⟨t, ht, htype, hvalid.2.1, ?_⟩
    rw [hclient.put v _ _ _ choice t htype hvalid.1 ht hne, hkey]
  · refine Or.inl ⟨?_, htype⟩
    rw [htype, hval]
    exact hclient.delete v _ choice hnone

/-- No value belongs to the nameless key, so none is entered for it. -/
theorem nameless_loadView (hinv : Inv read address shown p) (answered : Bool)
    (order : List String) (choice : O) :
    shown (loadView client p answered order choice) "" = none := by
  have hempty : p.store.val "" = none := by
    cases hval : p.store.val "" with
    | none => rfl
    | some val => exact absurd rfl (hinv.valid "" val hval).2.1
  unfold loadView
  split
  · rw [shown_foldl_enter hclient choice hinv.valid]
    simp [hempty, hinv.nameless]
  · exact hinv.nameless

theorem Inv.handle (hinv : Inv read address shown p) {e : Event} {rest : List Event}
    (hpending : p.pending = e :: rest) (choice : O) :
    Inv read address shown
      { p with pending := rest,
               view := client.callback p.view e.eventType e.key e.val choice } := by
  have he : e ∈ p.pending := by
    rw [hpending]
    exact List.mem_cons_self
  refine ⟨hinv.valid, ?_, ?_, ?_⟩
  · intro e' he'
    exact hinv.sent e' (by rw [hpending]; exact List.mem_cons_of_mem e he')
  · intro hphase
    have hnil := hinv.idle hphase
    rw [hpending] at hnil
    simp at hnil
  · rcases shown_handle hclient (hinv.sent e he) p.view choice hinv.nameless with
      ⟨hsame, -⟩ | ⟨t, -, -, hkey, hput⟩
    · exact (congrFun hsame "").trans hinv.nameless
    · refine (congrFun hput "").trans ?_
      rw [Function.update_of_ne (Ne.symm hkey)]
      exact hinv.nameless

theorem inv_step (hinv : Inv read address shown p)
    (h : step client read address p a = some p') : Inv read address shown p' := by
  obtain ⟨key, val, rfl, hvalid, rfl⟩ | ⟨key, rfl, -, rfl⟩ | ⟨answered, order, choice, rfl, hphase,
    hperm, rfl⟩ | ⟨rfl, hphase, rfl⟩ | ⟨rfl, hphase, rfl⟩ | ⟨choice, e, rest, rfl, hpending, rfl⟩ :=
      step_cases h
  · refine hinv.send ?_ (Or.inl ⟨?_, hvalid⟩)
    · intro k w hw
      by_cases hk : k = key
      · subst hk
        rw [GoMap.set_val_same, Option.some.injEq] at hw
        exact hw ▸ hvalid
      · rw [GoMap.set_val_of_ne _ _ hk] at hw
        exact hinv.valid k w hw
    · dsimp only
      split
      · exact Or.inr rfl
      · exact Or.inl rfl
  · refine hinv.send ?_ (Or.inr ⟨rfl, rfl⟩)
    intro k w hw
    by_cases hk : k = key
    · subst hk
      simp [Option.default_eq_none] at hw
    · rw [GoMap.erase_val_of_ne _ hk] at hw
      exact hinv.valid k w hw
  · exact ⟨hinv.valid, hinv.sent, fun _ => hinv.idle (by simp [hphase]),
      nameless_loadView hclient hinv answered order choice⟩
  · exact ⟨hinv.valid, hinv.sent, fun _ => hinv.idle (by simp [hphase]), hinv.nameless⟩
  · exact ⟨hinv.valid, hinv.sent, fun _ => hinv.idle (by simp [hphase]), hinv.nameless⟩
  · exact Inv.handle hclient hinv hpending choice

/-- Once the watch is open, the view misses deletions only. -/
theorem step_synced (hinv : Inv read address shown p) (hphase : p.phase = .watching)
    (h : step client read address p a = some p') :
    synced read shown p' = (opsOf read [a]).foldl entered (synced read shown p) := by
  obtain ⟨key, val, rfl, hvalid, rfl⟩ | ⟨key, rfl, -, rfl⟩ | ⟨answered, order, choice, rfl, hother,
    -, rfl⟩ | ⟨rfl, hother, rfl⟩ | ⟨rfl, hother, rfl⟩ | ⟨choice, e, rest, rfl, hpending, rfl⟩ :=
      step_cases h
  · obtain ⟨t, ht, -⟩ := hvalid.exists_read
    have hops : opsOf read [(Action.put key val : Action O)] = [.put key t] := by
      simp [opsOf, Action.op, ht]
    rw [hops, List.foldl_cons, List.foldl_nil]
    refine synced_send hphase ?_
    by_cases hkey : (p.store.val key).isSome
    · simp [Event.op, hkey, ht]
    · simp [Event.op, hkey, ht]
  · have hops : opsOf read [(Action.delete key : Action O)] = [.delete key] := rfl
    rw [hops, List.foldl_cons, List.foldl_nil]
    exact synced_send hphase rfl
  · simp [hphase] at hother
  · simp [hphase] at hother
  · simp [hphase] at hother
  · have he : e ∈ p.pending := by rw [hpending]; exact List.mem_cons_self
    have hops : opsOf read [(Action.handle choice : Action O)] = [] := rfl
    rw [hops, List.foldl_nil]
    unfold synced
    rw [hpending]
    rcases shown_handle hclient (hinv.sent e he) p.view choice hinv.nameless with
      ⟨hsame, htype⟩ | ⟨t, ht, htype, -, hput⟩
    · have hop : e.op read = some (.delete e.key) := by simp [Event.op, htype]
      rw [List.filterMap_cons_some hop, List.foldl_cons]
      simp only [hsame]
      rfl
    · have hop : e.op read = some (.put e.key t) := by
        rcases htype with htype | htype
        · simp [Event.op, htype, ht]
        · simp [Event.op, htype, ht]
      rw [List.filterMap_cons_some hop, List.foldl_cons]
      simp only [hput]
      rfl

/-- A run after the opening of the watch. -/
theorem run_watching (hinv : Inv read address shown p) (hphase : p.phase = .watching)
    (hrun : run (step client read address) p actions = some p') :
    p'.stored read = (opsOf read actions).foldl applied (p.stored read) ∧
      synced read shown p' = (opsOf read actions).foldl entered (synced read shown p) := by
  induction actions generalizing p with
  | nil =>
    cases Option.some.inj hrun
    exact ⟨rfl, rfl⟩
  | cons a actions ih =>
    rw [run_cons] at hrun
    obtain ⟨mid, hmid, hrest⟩ := Option.bind_eq_some_iff.mp hrun
    obtain ⟨hstored, hsynced⟩ :=
      ih (inv_step hclient hinv hmid) (step_watching hphase hmid) hrest
    rw [opsOf_cons, List.foldl_append, List.foldl_append, ← step_stored hmid,
      ← step_synced hclient hinv hphase hmid]
    exact ⟨hstored, hsynced⟩

theorem inv_run (hinv : Inv read address shown p)
    (hrun : run (step client read address) p actions = some p') : Inv read address shown p' :=
  run_keeps (fun _ _ _ hs hstep => inv_step hclient hs hstep) hinv hrun

/-- Until it has loaded, the process shows what it showed at the beginning. -/
theorem run_starting (hinv : Inv read address shown p)
    (hrun : run (step client read address) p actions = some p') (hstart : p'.phase = .starting) :
    p'.view = p.view := by
  revert hstart
  refine run_induction (motive := fun _ s => s.phase = .starting → s.view = p.view)
    (fun _ => rfl) ?_ hrun
  intro _ s a s' hs ih hstep hstart'
  have hstart := step_starting hstep hstart'
  rcases step_view (inv_run hclient hinv hs) (by simp [hstart]) hstep with hview | ⟨-, hl⟩
  · exact hview.trans (ih hstart)
  · rw [hl] at hstart'
    simp at hstart'

/-- Between the load and the opening of the watch the view stays as it is. -/
theorem run_gap (hinv : Inv read address shown p) (hloaded : p.phase ≠ .starting)
    (hrun : run (step client read address) p actions = some p') (hclosed : p'.phase ≠ .watching) :
    p'.view = p.view := by
  have hboth : p'.phase ≠ .starting ∧ (p'.phase ≠ .watching → p'.view = p.view) := by
    refine run_induction (motive := fun _ s => s.phase ≠ .starting ∧
      (s.phase ≠ .watching → s.view = p.view)) ⟨hloaded, fun _ => rfl⟩ ?_ hrun
    intro _ s a s' hs ih hstep
    refine ⟨fun hstart => ih.1 (step_starting hstep hstart), ?_⟩
    intro hclosed'
    have hclosed : s.phase ≠ .watching := fun hw => hclosed' (step_watching hw hstep)
    rcases step_view (inv_run hclient hinv hs) hclosed hstep with hview | ⟨hl, -⟩
    · exact hview.trans (ih.2 hclosed)
    · exact absurd hl ih.1
  exact hboth.2 hclosed

/-- What the view will show and what the store holds, from the opening of the watch on. -/
theorem run_split {view : V} (hnone : ∀ k, shown view k = none) {before gap after : List (Action O)}
    {answered : Bool} {order : List String} {choice : O} {loaded opened : Prefix V}
    (hloaded : run (step client read address) (start view) before = some loaded)
    (hopened : run (step client read address) (start view)
      (before ++ .load answered order choice :: gap) = some opened)
    (hrun : run (step client read address) (start view)
      (before ++ .load answered order choice :: (gap ++ .watch :: after)) = some p) :
    synced read shown p = (opsOf read after).foldl entered (snapshot read loaded answered) ∧
      p.stored read = (opsOf read after).foldl applied (opened.stored read) := by
  have hinv : Inv read address shown (start view) := inv_start hnone
  have hinvLoaded := inv_run hclient hinv hloaded
  have hinvOpened := inv_run hclient hinv hopened
  -- the load
  rw [run_append, hloaded, Option.bind_some, run_cons] at hopened
  obtain ⟨filled, hfilled, hgap⟩ := Option.bind_eq_some_iff.mp hopened
  rw [run_append, hloaded, Option.bind_some, run_cons, hfilled, Option.bind_some, run_append,
    hgap, Option.bind_some, run_cons] at hrun
  -- the opening of the watch
  obtain ⟨open', hopen, hafter⟩ := Option.bind_eq_some_iff.mp hrun
  obtain ⟨hphase, hopenEq⟩ := Option.ite_none_right_eq_some.mp hopen
  rw [Option.some.injEq] at hopenEq
  subst hopenEq
  obtain ⟨⟨hstart, hperm⟩, hfilledEq⟩ := Option.ite_none_right_eq_some.mp hfilled
  rw [Option.some.injEq] at hfilledEq
  have hview : opened.view = filled.view :=
    run_gap hclient (inv_step hclient hinvLoaded hfilled) (by simp [← hfilledEq]) hgap
      (by simp [hphase])
  have hshown : shown opened.view = snapshot read loaded answered := by
    rw [hview, ← hfilledEq]
    refine shown_loadView hclient hinvLoaded hperm ?_
    rw [run_starting hclient hinv hloaded hstart]
    exact hnone
  obtain ⟨hstored, hsynced⟩ := run_watching hclient (inv_step hclient hinvOpened hopen) rfl hafter
  refine ⟨?_, hstored⟩
  rw [hsynced, ← hshown]
  unfold synced
  rw [hinvOpened.idle (by simp [hphase])]
  rfl

end Steps

section Following
variable {V O T : Type*} {client : Client V O} {read : String → Option T} {address : T → String}
  {p p₀ : Prefix V} {actions : List (Action O)} {shown : V → String → Option T}

/-- A process that has loaded has made its load, and one whose watch is open has opened it. -/
theorem exists_split (hstart : p₀.phase = .starting)
    (hrun : run (step client read address) p₀ actions = some p) :
    ((p.phase = .loaded ∨ p.phase = .spawned) → ∃ before answered order choice gap,
      actions = before ++ .load answered order choice :: gap) ∧
    (p.phase = .watching → ∃ before answered order choice gap after,
      actions = before ++ .load answered order choice :: (gap ++ .watch :: after)) := by
  refine run_induction (motive := fun actions p =>
    ((p.phase = .loaded ∨ p.phase = .spawned) → ∃ before answered order choice gap,
      actions = before ++ .load answered order choice :: gap) ∧
    (p.phase = .watching → ∃ before answered order choice gap after,
      actions = before ++ .load answered order choice :: (gap ++ .watch :: after))) ?_ ?_ hrun
  · simp [hstart]
  · intro actions s a s' hs ih hstep
    -- a step that leaves the phase as it is
    have hsame : s'.phase = s.phase →
        ((s'.phase = .loaded ∨ s'.phase = .spawned) → ∃ before answered order choice gap,
          actions ++ [a] = before ++ .load answered order choice :: gap) ∧
        (s'.phase = .watching → ∃ before answered order choice gap after,
          actions ++ [a] = before ++ .load answered order choice :: (gap ++ .watch :: after)) := by
      intro hphase
      rw [hphase]
      constructor
      · intro h
        obtain ⟨before, answered, order, choice, gap, rfl⟩ := ih.1 h
        exact ⟨before, answered, order, choice, gap ++ [a], by simp⟩
      · intro h
        obtain ⟨before, answered, order, choice, gap, after, rfl⟩ := ih.2 h
        exact ⟨before, answered, order, choice, gap, after ++ [a], by simp⟩
    obtain ⟨key, val, rfl, -, rfl⟩ | ⟨key, rfl, -, rfl⟩ | ⟨answered, order, choice, rfl, hp, -,
      rfl⟩ | ⟨rfl, hp, rfl⟩ | ⟨rfl, hp, rfl⟩ | ⟨choice, e, rest, rfl, -, rfl⟩ := step_cases hstep
    · exact hsame rfl
    · exact hsame rfl
    · exact ⟨fun _ => ⟨actions, answered, order, choice, [], rfl⟩, by simp⟩
    · obtain ⟨before, answered, order, choice, gap, rfl⟩ := ih.1 (Or.inl hp)
      exact ⟨fun _ => ⟨before, answered, order, choice, gap ++ [.spawn], by simp⟩, by simp⟩
    · obtain ⟨before, answered, order, choice, gap, rfl⟩ := ih.1 (Or.inr hp)
      exact ⟨by simp, fun _ => ⟨before, answered, order, choice, gap, [], by simp⟩⟩
    · exact hsame rfl

/-- Once everything that was sent has been handled, the view is that of the store if and
only if nothing was missed. -/
theorem shown_eq_stored_iff {view : V} (hclient : Enters client read address shown)
    (hnone : ∀ k, shown view k = none)
    (hrun : run (step client read address) (start view) actions = some p) (hsettled : p.Settled) :
    shown p.view = p.stored read ↔ NothingMissed client read address (start view) actions := by
  have hsynced : synced read shown p = shown p.view := by
    unfold synced
    rw [hsettled.2]
    rfl
  constructor
  · rintro hfollow before answered order choice gap after loaded opened rfl hloaded hopened k
    obtain ⟨hview, hstored⟩ := run_split hclient hnone hloaded hopened hrun
    rw [← entered_eq_applied_iff, ← hview, ← hstored, hsynced, hfollow]
  · intro hmissed
    obtain ⟨before, answered, order, choice, gap, after, rfl⟩ :=
      (exists_split rfl hrun).2 hsettled.1
    have hsplit : before ++ Action.load answered order choice :: (gap ++ .watch :: after) =
      (before ++ .load answered order choice :: gap) ++ .watch :: after := by simp
    have hprefix := hrun
    rw [hsplit, run_append] at hprefix
    obtain ⟨opened, hopened, -⟩ := Option.bind_eq_some_iff.mp hprefix
    have hfirst := hrun
    rw [run_append] at hfirst
    obtain ⟨loaded, hloaded, -⟩ := Option.bind_eq_some_iff.mp hfirst
    obtain ⟨hview, hstored⟩ := run_split hclient hnone hloaded hopened hrun
    funext k
    rw [← hsynced, hview, hstored, entered_eq_applied_iff]
    exact hmissed before answered order choice gap after loaded opened rfl hloaded hopened k

end Following

end Arcturus.StoreWatch
