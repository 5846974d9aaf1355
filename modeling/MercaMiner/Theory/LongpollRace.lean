import MercaMiner.Basis.Transition
import MercaMiner.Core.MineLoop
import MercaMiner.Theory.TemplateFacts

/-!
# The Watcher and a Solved Candidate

The longpoll watcher and the main thread, run side by side from the moment
`Mine` reports a solution.

The watcher may have found that old work is invalid. The main thread asks it
to stop, joins it, and tests whether a refresh was requested before it tests
whether the work is invalid. The watcher, in turn, publishes the invalidity,
then loads the request to stop, and requests the refresh only if there was
none. So everything turns on one load: made before the main thread's store,
the candidate is discarded; made after it, the invalidity stands but the
refresh is missing, and the candidate is submitted.

## Main definitions

* `RaceState`, `RaceAction`, `raceStep`: The two threads.
* `LoadsEarly`: The condition on a schedule.
* `RaceOk`: The invariant.

## Theorems

* `raceStep_ok`: Every step keeps the invariant.
* `late_load_submits`: A schedule that submits invalidated work.
* `hard_cancel_discards_iff`: Exactly the early loads discard it.
-/

namespace MercaMiner

/-- The two threads, with the counters and the shutdown flag. -/
structure RaceState where
  watcher : Watcher
  shutdown : Bool
  stats : RuntimeStats
  main : FoundPc
  deriving DecidableEq

/-- A schedule names the thread that moves. The watcher's call ends as the
    action says. -/
inductive RaceAction where
  | watcher (call : LongpollCall)
  | main
  | raiseShutdown

/-- What the main thread's next statement reads from the watcher. A join
    waits for the thread to return. -/
def observe (w : Watcher) : FoundPc → Option LoopEvent
  | .finishing => some .requestCancel
  | .joining => if w.pc = .returned then some (.joined w.status) else none
  | .loadShutdown _ => some .advance
  | .loadRefresh _ => some (.refreshRequested w.refreshRequested)
  | .loadInvalidated => some (.oldWorkInvalidated w.hardCancel)
  | .decided _ => none

/-- A statement of the main thread, with its store to the watcher's flag. -/
def mainThreadStep (s : RaceState) : Option RaceState :=
  match observe s.watcher s.main with
  | none => none
  | some e => (foundStep s.shutdown s.stats s.main e).map fun r =>
      { s with
        watcher := if s.main = .finishing then s.watcher.requestCancel else s.watcher
        stats := r.1
        main := r.2 }

def raceStep (s : RaceState) : RaceAction → Option RaceState
  | .watcher call => (runStep s.watcher call).map fun w => { s with watcher := w }
  | .main => mainThreadStep s
  | .raiseShutdown => some { s with shutdown := true }

/-- The watcher has just been started, and a solution was reported. -/
def raceStart (expectedPreviousBlockHash : UInt256) (stats : RuntimeStats) : RaceState :=
  ⟨Watcher.start expectedPreviousBlockHash, false, stats, .finishing⟩

/-- Whenever the watcher loads the request to stop, after publishing what it
    learned, the main thread has not stored it yet. -/
def LoadsEarly (start : RaceState) (acts : List RaceAction) : Prop :=
  Transition.EachAfter (fun pre a => ∀ call t, a = .watcher call →
    Transition.run raceStep start pre = some t → t.watcher.pc = .loadCancelRequested →
      t.watcher.cancelRequested = false) acts

/-- What the watcher's position says about its flags, given whether its load
    was early. -/
def WatcherOk (w : Watcher) (early : Prop) : Prop :=
  match w.pc with
  | .calling | .storeTipChanged _ | .storeHardCancel _ | .handleCancelled =>
      w.hardCancel = false ∧ w.refreshRequested = false ∧ early
  | .loadCancelRequested => w.refreshRequested = false ∧ early
  | .storeStatus .templateChanged => w.refreshRequested = false ∧ early
  | .storeStatus .rpcError => w.refreshRequested = false ∧ w.hardCancel = false
  | .storeStatus .cancelled => w.refreshRequested = false ∧ (w.hardCancel = true → ¬early)
  | .storeStatus .running => False
  | .storeRefreshRequested => (w.status = .templateChanged ∧ early) ∨
      (w.status = .rpcError ∧ w.hardCancel = false)
  | .returned => (w.refreshRequested = true ∧ w.status ≠ .rpcError ∧ early) ∨
      (w.refreshRequested = true ∧ w.status = .rpcError ∧ w.hardCancel = false) ∨
      (w.refreshRequested = false ∧ (w.hardCancel = true → ¬early))

/-- What the main thread's position says. -/
def DecisionOk (stats : RuntimeStats) (s : RaceState) : Prop :=
  match s.main with
  | .finishing | .joining => s.stats = stats
  | .loadShutdown status | .loadRefresh status =>
      s.watcher.pc = .returned ∧ status = s.watcher.status ∧ s.stats = stats
  | .loadInvalidated => s.watcher.pc = .returned ∧ s.watcher.refreshRequested = true ∧
      s.watcher.status ≠ .rpcError ∧ s.stats = stats
  | .decided .stop => s.shutdown = true
  | .decided .discard => s.watcher.pc = .returned ∧ s.watcher.refreshRequested = true ∧
      s.stats = stats.countStale
  | .decided .submit => s.watcher.pc = .returned ∧ (s.watcher.refreshRequested = false ∨
      s.watcher.status = .rpcError ∨ s.watcher.hardCancel = false)

/-- The invariant of the two threads. -/
structure RaceOk (stats : RuntimeStats) (early : Prop) (s : RaceState) : Prop where
  watcher : WatcherOk s.watcher early
  decision : DecisionOk stats s

theorem watcherOk_congr (w : Watcher) (early early' : Prop) (h : early ↔ early')
    (hok : WatcherOk w early) : WatcherOk w early' := by
  rwa [← propext h]

/-- A store to the request to stop is not among the flags of the invariant. -/
theorem watcherOk_requestCancel (w : Watcher) (early : Prop) (hok : WatcherOk w early) :
    WatcherOk w.requestCancel early :=
  hok

/-- A step of the watcher, which keeps the schedule's condition unless it is
    a late load. -/
theorem runStep_ok (w w' : Watcher) (call : LongpollCall) (early early' : Prop)
    (hearly : early' ↔ early ∧ (w.pc = .loadCancelRequested → w.cancelRequested = false))
    (hok : WatcherOk w early) (h : runStep w call = some w') : WatcherOk w' early' := by
  have hkeep (pc : WatcherPc) (hpc : w.pc = pc) (hne : pc ≠ .loadCancelRequested) :
      early ↔ early' :=
    ⟨fun he => hearly.mpr ⟨he, fun hload => absurd (hpc.symm.trans hload) hne⟩,
      fun he => (hearly.mp he).1⟩
  rw [WatcherOk] at hok
  revert h
  fun_cases runStep w call with
  | case1 hpc =>
      -- The call ended with a template, and nothing is published yet.
      intro heq
      cases heq
      simp only [hpc] at hok
      exact ⟨hok.1, hok.2.1, (hkeep _ hpc (by decide)).mp hok.2.2⟩
  | case3 hpc =>
      -- The call was cancelled.
      intro heq
      cases heq
      simp only [hpc] at hok
      exact ⟨hok.1, hok.2.1, (hkeep _ hpc (by decide)).mp hok.2.2⟩
  | case2 hpc | case4 hpc | case10 _ hpc =>
      -- An exception is about to be published, and old work is still valid.
      intro heq
      cases heq
      simp only [hpc] at hok
      exact ⟨hok.2.1, hok.1⟩
  | case5 _ replacement hpc =>
      -- The tip's flag is not among those of the invariant.
      intro heq
      cases heq
      simp only [hpc] at hok
      refine ⟨hok.1, hok.2.1, (hkeep _ hpc ?_).mp hok.2.2⟩
      simp only [ne_eq, reduceCtorEq, not_false_eq_true]
  | case6 _ replacement hpc =>
      -- The invalidity is published, and the load is next.
      intro heq
      cases heq
      simp only [hpc] at hok
      refine ⟨hok.2.1, (hkeep _ hpc ?_).mp hok.2.2⟩
      simp only [ne_eq, reduceCtorEq, not_false_eq_true]
  | case7 _ hpc hcancel =>
      -- The late load: from here on the schedule's condition fails.
      intro heq
      cases heq
      simp only [hpc] at hok
      exact ⟨hok.1, fun _ he => absurd (hcancel.symm.trans ((hearly.mp he).2 hpc)) (by decide)⟩
  | case8 _ hpc hcancel =>
      -- The early load.
      intro heq
      cases heq
      simp only [hpc] at hok
      exact ⟨hok.1, hearly.mpr ⟨hok.2, fun _ => Bool.eq_false_iff.mpr hcancel⟩⟩
  | case9 _ hpc =>
      -- The cancellation was asked for, and there was no reply.
      intro heq
      cases heq
      simp only [hpc] at hok
      exact ⟨hok.2.1, fun hhard => absurd (hok.1.symm.trans hhard) (by decide)⟩
  | case11 _ status hpc =>
      -- The status is stored. Only a cancelled thread returns without a refresh.
      intro heq
      cases heq
      have hsame := hkeep _ hpc (by simp only [ne_eq, reduceCtorEq, not_false_eq_true])
      cases status with
      | running =>
          simp only [hpc] at hok
      | templateChanged =>
          simp only [hpc] at hok
          exact Or.inl ⟨rfl, hsame.mp hok.2⟩
      | rpcError =>
          simp only [hpc] at hok
          exact Or.inr ⟨rfl, hok.2⟩
      | cancelled =>
          simp only [hpc] at hok
          exact Or.inr (Or.inr ⟨hok.1, fun hhard he => hok.2 hhard (hsame.mpr he)⟩)
  | case12 _ hpc =>
      intro heq
      cases heq
      have hsame := hkeep _ hpc (by decide)
      simp only [hpc] at hok
      rcases hok with ⟨hstatus, he⟩ | ⟨hstatus, hhard⟩
      · refine Or.inl ⟨rfl, ?_, hsame.mp he⟩
        rw [hstatus]
        decide
      · exact Or.inr (Or.inl ⟨rfl, hstatus, hhard⟩)
  | case13 =>
      intro h
      exact absurd h (by simp only [reduceCtorEq, not_false_eq_true])

/-- The main thread's step. What it knows of the watcher it learns after the
    join, when the watcher has returned. -/
theorem mainThreadStep_ok (s s' : RaceState) (stats : RuntimeStats)
    (hok : DecisionOk stats s) (h : mainThreadStep s = some s') : DecisionOk stats s' := by
  rw [DecisionOk] at hok
  cases hmain : s.main with
  | finishing =>
      simp only [hmain] at hok
      simp only [mainThreadStep, hmain, observe, foundStep, Option.map_some, Option.some.injEq] at h
      rw [← h]
      exact hok
  | joining =>
      simp only [hmain] at hok
      simp only [mainThreadStep, hmain, observe] at h
      -- The join is where the two threads meet.
      by_cases hreturned : s.watcher.pc = .returned
      · rw [if_pos hreturned] at h
        simp only [foundStep, Option.map_some, Option.some.injEq, reduceCtorEq, if_false] at h
        rw [← h]
        exact ⟨hreturned, rfl, hok⟩
      · rw [if_neg hreturned] at h
        exact absurd h (by simp only [reduceCtorEq, not_false_eq_true])
  | loadShutdown status =>
      simp only [hmain] at hok
      simp only [mainThreadStep, hmain, observe, foundStep, reduceCtorEq, if_false] at h
      by_cases hshutdown : s.shutdown = true
      · rw [if_pos hshutdown, Option.map_some, Option.some.injEq] at h
        rw [← h]
        exact hshutdown
      · rw [if_neg hshutdown, Option.map_some, Option.some.injEq] at h
        rw [← h]
        exact hok
  | loadRefresh status =>
      simp only [hmain] at hok
      rcases hok with ⟨hreturned, hstatus, hstats⟩
      simp only [mainThreadStep, hmain, observe, foundStep, reduceCtorEq, if_false] at h
      -- Without a refresh the candidate goes to the node unquestioned.
      by_cases hrefresh : s.watcher.refreshRequested = true
      · rw [if_pos hrefresh] at h
        by_cases herror : status = .rpcError
        · rw [if_pos herror, Option.map_some, Option.some.injEq] at h
          rw [← h]
          exact ⟨hreturned, Or.inr (Or.inl (hstatus.symm.trans herror))⟩
        · rw [if_neg herror, Option.map_some, Option.some.injEq] at h
          rw [← h]
          exact ⟨hreturned, hrefresh, fun h => herror (hstatus.trans h), hstats⟩
      · rw [if_neg hrefresh, Option.map_some, Option.some.injEq] at h
        rw [← h]
        exact ⟨hreturned, Or.inl (Bool.eq_false_iff.mpr hrefresh)⟩
  | loadInvalidated =>
      simp only [hmain] at hok
      rcases hok with ⟨hreturned, hrefresh, _, hstats⟩
      simp only [mainThreadStep, hmain, observe, foundStep, reduceCtorEq, if_false] at h
      by_cases hhard : s.watcher.hardCancel = true
      · rw [if_pos hhard, Option.map_some, Option.some.injEq] at h
        rw [← h]
        exact ⟨hreturned, hrefresh, congrArg RuntimeStats.countStale hstats⟩
      · rw [if_neg hhard, Option.map_some, Option.some.injEq] at h
        rw [← h]
        exact ⟨hreturned, Or.inr (Or.inr (Bool.eq_false_iff.mpr hhard))⟩
  | decided d =>
      simp only [mainThreadStep, hmain, observe] at h
      exact absurd h (by simp only [reduceCtorEq, not_false_eq_true])

/-- A watcher that has returned does not move, and what the main thread knows
    is about such a watcher. -/
theorem decisionOk_watcher (s : RaceState) (w : Watcher) (stats : RuntimeStats)
    (call : LongpollCall) (hok : DecisionOk stats s) (h : runStep s.watcher call = some w) :
    DecisionOk stats { s with watcher := w } := by
  -- Past the join the watcher has returned, so it was not the watcher's turn.
  have hmoving (hreturned : s.watcher.pc = .returned) : False := by
    simp only [runStep, hreturned] at h
    exact absurd h (by simp only [reduceCtorEq, not_false_eq_true])
  rw [DecisionOk] at hok ⊢
  cases hmain : s.main with
  | finishing | joining => simpa only [hmain] using hok
  | loadShutdown _ | loadRefresh _ | loadInvalidated =>
      simp only [hmain] at hok
      exact (hmoving hok.1).elim
  | decided d =>
      cases d with
      | stop => simpa only [hmain] using hok
      | discard | submit =>
          simp only [hmain] at hok
          exact (hmoving hok.1).elim

/-- What a statement of the main thread does. -/
theorem mainThreadStep_cases (s s' : RaceState) (h : mainThreadStep s = some s') :
    ∃ e stats pc, foundStep s.shutdown s.stats s.main e = some (stats, pc) ∧
      s' = { s with
        watcher := if s.main = .finishing then s.watcher.requestCancel else s.watcher
        stats := stats
        main := pc } := by
  rw [mainThreadStep] at h
  cases hobserve : observe s.watcher s.main with
  | none =>
      simp only [hobserve] at h
      exact absurd h (by simp only [reduceCtorEq, not_false_eq_true])
  | some e =>
      simp only [hobserve] at h
      rcases Option.map_eq_some_iff.mp h with ⟨⟨stats, pc⟩, hstep, rfl⟩
      exact ⟨e, stats, pc, hstep, rfl⟩

/-- The watcher is untouched by the main thread, but for the request. -/
theorem mainThreadStep_watcher (s s' : RaceState) (h : mainThreadStep s = some s') :
    s'.watcher = if s.main = .finishing then s.watcher.requestCancel else s.watcher := by
  rcases mainThreadStep_cases s s' h with ⟨_, _, _, _, rfl⟩
  rfl

/-- One more action keeps the condition unless it is a late load. -/
theorem loadsEarly_snoc (start s : RaceState) (tr : List RaceAction) (a : RaceAction)
    (h : Transition.run raceStep start tr = some s) :
    LoadsEarly start (tr ++ [a]) ↔ LoadsEarly start tr ∧ ∀ call, a = .watcher call →
      s.watcher.pc = .loadCancelRequested → s.watcher.cancelRequested = false := by
  constructor
  · intro hearly
    rcases Transition.eachAfter_of_snoc _ tr a hearly with ⟨hbefore, hlast⟩
    exact ⟨hbefore, fun call hcall hpc => hlast call s hcall h hpc⟩
  · rintro ⟨hbefore, hlast⟩
    refine Transition.eachAfter_snoc _ tr a hbefore fun call t hcall ht hpc => ?_
    rw [h, Option.some.injEq] at ht
    rw [← ht] at hpc ⊢
    exact hlast call hcall hpc

/-- The condition is untouched by an action of another thread. -/
theorem loadsEarly_other (start s : RaceState) (tr : List RaceAction) (a : RaceAction)
    (h : Transition.run raceStep start tr = some s) (ha : ∀ call, a ≠ .watcher call) :
    LoadsEarly start tr ↔ LoadsEarly start (tr ++ [a]) := by
  rw [loadsEarly_snoc start s tr a h]
  exact (and_iff_left fun call hcall => absurd hcall (ha call)).symm

theorem raceStep_ok (start s s' : RaceState) (stats : RuntimeStats) (tr : List RaceAction)
    (a : RaceAction) (hrun : Transition.run raceStep start tr = some s)
    (hok : RaceOk stats (LoadsEarly start tr) s) (h : raceStep s a = some s') :
    RaceOk stats (LoadsEarly start (tr ++ [a])) s' := by
  cases a with
  | watcher call =>
      rcases Option.map_eq_some_iff.mp h with ⟨w, hw, rfl⟩
      refine ⟨runStep_ok s.watcher w call _ _ ?_ hok.watcher hw,
        decisionOk_watcher s w stats call hok.decision hw⟩
      -- The watcher's action is the only one the condition looks at.
      rw [loadsEarly_snoc start s tr _ hrun]
      exact and_congr_right fun _ => ⟨fun hload => hload call rfl, fun hload _ _ => hload⟩
  | main =>
      have hsame := loadsEarly_other start s tr .main hrun fun _ => by
        simp only [ne_eq, reduceCtorEq, not_false_eq_true]
      refine ⟨watcherOk_congr _ _ _ hsame ?_, mainThreadStep_ok s s' stats hok.decision h⟩
      rw [mainThreadStep_watcher s s' h]
      by_cases hfinishing : s.main = .finishing
      · rw [if_pos hfinishing]
        exact watcherOk_requestCancel _ _ hok.watcher
      · rw [if_neg hfinishing]
        exact hok.watcher
  | raiseShutdown =>
      have hsame := loadsEarly_other start s tr .raiseShutdown hrun fun _ => by
        simp only [ne_eq, reduceCtorEq, not_false_eq_true]
      simp only [raceStep, Option.some.injEq] at h
      rw [← h]
      refine ⟨watcherOk_congr _ _ _ hsame hok.watcher, ?_⟩
      have hdecision := hok.decision
      rw [DecisionOk] at hdecision ⊢
      cases hmain : s.main with
      | decided d =>
          cases d with
          | stop => simp only
          | discard | submit => simpa only [hmain] using hdecision
      | _ => simpa only [hmain] using hdecision

theorem run_raceOk (expected : UInt256) (stats : RuntimeStats) (acts : List RaceAction)
    (s : RaceState) (h : Transition.run raceStep (raceStart expected stats) acts = some s) :
    RaceOk stats (LoadsEarly (raceStart expected stats) acts) s :=
  Transition.run_trace_invariant raceStep
    (fun tr t => RaceOk stats (LoadsEarly (raceStart expected stats) tr) t)
    (raceStart expected stats) ⟨⟨rfl, rfl, Transition.eachAfter_nil _⟩, rfl⟩
    (fun tr t a t' hrun hok hstep => raceStep_ok _ t t' stats tr a hrun hok hstep) acts s h

/-- The main thread asks the watcher to stop only once. -/
theorem mainThreadStep_past (s s' : RaceState) (h : mainThreadStep s = some s') :
    s'.main ≠ .finishing := by
  rcases mainThreadStep_cases s s' h with ⟨e, stats, pc, hstep, rfl⟩
  exact foundStep_past s.shutdown s.stats stats s.main pc e hstep

/-- Once the join is over the watcher stays as it is. -/
theorem run_watcher_returned (t s : RaceState) (acts : List RaceAction)
    (hreturned : t.watcher.pc = .returned) (hmain : t.main ≠ .finishing)
    (h : Transition.run raceStep t acts = some s) : s.watcher = t.watcher := by
  refine (Transition.run_invariant raceStep
    (fun u => u.watcher = t.watcher ∧ u.main ≠ .finishing) ?_ t ⟨rfl, hmain⟩ acts s h).1
  rintro u a u' ⟨hwatcher, hpast⟩ hstep
  cases a with
  | watcher call =>
      rcases Option.map_eq_some_iff.mp hstep with ⟨w, hw, _⟩
      simp only [runStep, hwatcher, hreturned] at hw
      exact absurd hw (by simp only [reduceCtorEq, not_false_eq_true])
  | main =>
      refine ⟨?_, mainThreadStep_past u u' hstep⟩
      rw [mainThreadStep_watcher u u' hstep, if_neg hpast, hwatcher]
  | raiseShutdown =>
      simp only [raceStep, Option.some.injEq] at hstep
      rw [← hstep]
      exact ⟨hwatcher, hpast⟩

/-- If the watcher had found old work invalid when `Finish` returned, and no
    shutdown was asked for, the solved candidate is discarded and counted as
    stale exactly when the watcher loaded the request to stop before the main
    thread stored it. -/
theorem hard_cancel_discards_iff (expected : UInt256) (stats : RuntimeStats)
    (pre post : List RaceAction) (t s : RaceState) (status : LongpollStatus) (d : FoundDecision)
    (hpre : Transition.run raceStep (raceStart expected stats) pre = some t)
    (hfinish : t.main = .loadShutdown status) (hhard : t.watcher.hardCancel = true)
    (hpost : Transition.run raceStep t post = some s) (hend : s.main = .decided d)
    (hshutdown : s.shutdown = false) :
    (d ≠ .submit ∧ s.stats = stats.countStale) ↔ LoadsEarly (raceStart expected stats) pre := by
  have hokt := run_raceOk expected stats pre t hpre
  have hoks := run_raceOk expected stats (pre ++ post) s
    ((Transition.run_append raceStep _ t pre post hpre).trans hpost)
  have hdecisiont := hokt.decision
  have hwatchert := hokt.watcher
  have hdecisions := hoks.decision
  rw [DecisionOk, hfinish] at hdecisiont
  rw [WatcherOk, hdecisiont.1] at hwatchert
  have hsame := run_watcher_returned t s post hdecisiont.1
    (by rw [hfinish]; simp only [ne_eq, reduceCtorEq, not_false_eq_true]) hpost
  rw [DecisionOk, hend, hsame] at hdecisions
  -- The three ways a watcher returns.
  rcases hwatchert with ⟨hrefresh, herror, hearly⟩ | ⟨_, _, hsoft⟩ | ⟨hrefresh, hlate⟩
  · -- The load was early, and the refresh was requested.
    refine iff_of_true ?_ hearly
    cases d with
    | stop => exact absurd (hshutdown.symm.trans hdecisions) (by decide)
    | discard => exact ⟨by decide, hdecisions.2.2⟩
    | submit =>
        rcases hdecisions.2 with hnone | hfailed | hsoft
        · exact absurd (hnone.symm.trans hrefresh) (by decide)
        · exact absurd hfailed herror
        · exact absurd (hsoft.symm.trans hhard) (by decide)
  · -- After an exception old work was never found invalid.
    exact absurd (hsoft.symm.trans hhard) (by decide)
  · -- The load was late, and there is no refresh to see.
    refine iff_of_false ?_ (hlate hhard)
    rintro ⟨hsubmit, _⟩
    cases d with
    | stop => exact absurd (hshutdown.symm.trans hdecisions) (by decide)
    | discard => exact absurd (hrefresh.symm.trans hdecisions.2.1) (by decide)
    | submit => exact hsubmit rfl

/-- A step of the watcher after its call. -/
def watcherMoves : RaceAction :=
  .watcher (.failed "")

/-- The reply arrives, the watcher publishes that old work is invalid, and
    only then the main thread asks it to stop. -/
def lateSchedule : List RaceAction :=
  [.watcher (.reply regtestReply), watcherMoves, watcherMoves, .main, watcherMoves, watcherMoves,
    .main]

/-- The watcher's load comes before the main thread's store. -/
def earlySchedule : List RaceAction :=
  [.watcher (.reply regtestReply), watcherMoves, watcherMoves, watcherMoves, .main, watcherMoves,
    watcherMoves, .main]

/-- The watcher has the reply of the regression test network. -/
def replied : RaceState where
  watcher := { Watcher.start UInt256.zero with pc := .storeTipChanged regtestTemplate }
  shutdown := false
  stats := ⟨0, 0, 0⟩
  main := .finishing

theorem run_replied (acts : List RaceAction) :
    Transition.run raceStep (raceStart UInt256.zero ⟨0, 0, 0⟩)
      (.watcher (.reply regtestReply) :: acts) = Transition.run raceStep replied acts := by
  refine Transition.run_cons raceStep _ _ _ _ ?_
  simp only [raceStep, raceStart, runStep, Watcher.start, parseBlockTemplate_regtest, replied,
    Option.map_some]

/-- A solved candidate of a superseded tip is submitted, and not counted. -/
theorem late_load_submits :
    ∃ t s, Transition.run raceStep (raceStart UInt256.zero ⟨0, 0, 0⟩) lateSchedule = some t ∧
      t.main = .loadShutdown .cancelled ∧ t.watcher.hardCancel = true ∧
      Transition.run raceStep t [.main, .main] = some s ∧
      s.main = .decided .submit ∧ s.shutdown = false ∧ s.stats = ⟨0, 0, 0⟩ := by
  have hfinish : (Transition.run raceStep (raceStart UInt256.zero ⟨0, 0, 0⟩) lateSchedule).map
      (fun t => (t.main, t.watcher.hardCancel)) = some (.loadShutdown .cancelled, true) := by
    rw [lateSchedule, run_replied]
    decide +kernel
  have hend : (Transition.run raceStep (raceStart UInt256.zero ⟨0, 0, 0⟩)
      (lateSchedule ++ [.main, .main])).map (fun s => (s.main, s.shutdown, s.stats)) =
      some (.decided .submit, false, ⟨0, 0, 0⟩) := by
    rw [lateSchedule, List.cons_append, run_replied]
    decide +kernel
  rcases Option.map_eq_some_iff.mp hfinish with ⟨t, ht, hfacts⟩
  rcases Option.map_eq_some_iff.mp hend with ⟨s, hs, hfacts'⟩
  rw [Transition.run_append raceStep _ t lateSchedule _ ht] at hs
  rw [Prod.mk.injEq] at hfacts
  rw [Prod.mk.injEq, Prod.mk.injEq] at hfacts'
  exact ⟨t, s, ht, hfacts.1, hfacts.2, hs, hfacts'⟩

theorem hard_cancel_discards_iff_early :
    LoadsEarly (raceStart UInt256.zero ⟨0, 0, 0⟩) earlySchedule := by
  have hfinish : (Transition.run raceStep (raceStart UInt256.zero ⟨0, 0, 0⟩) earlySchedule).map
      (fun t => (t.main, t.watcher.hardCancel)) =
      some (.loadShutdown .templateChanged, true) := by
    rw [earlySchedule, run_replied]
    decide +kernel
  have hend : (Transition.run raceStep (raceStart UInt256.zero ⟨0, 0, 0⟩)
      (earlySchedule ++ [.main, .main, .main])).map (fun s => (s.main, s.shutdown, s.stats)) =
      some (.decided .discard, false, ⟨0, 1, 0⟩) := by
    rw [earlySchedule, List.cons_append, run_replied]
    decide +kernel
  rcases Option.map_eq_some_iff.mp hfinish with ⟨t, ht, hfacts⟩
  rcases Option.map_eq_some_iff.mp hend with ⟨s, hs, hfacts'⟩
  rw [Transition.run_append raceStep _ t earlySchedule _ ht] at hs
  rw [Prod.mk.injEq] at hfacts
  rw [Prod.mk.injEq, Prod.mk.injEq] at hfacts'
  exact (hard_cancel_discards_iff UInt256.zero ⟨0, 0, 0⟩ earlySchedule [.main, .main, .main] t s
    .templateChanged .discard ht hfacts.1 hfacts.2 hs hfacts'.1 hfacts'.2.1).mp
    ⟨by decide, hfacts'.2.2⟩

end MercaMiner
