import MercaMiner.Theory.SessionHashes

/-!
# A Session Shuts Down

After the shutdown flag was raised, a session ends within a bounded number of
steps, in every order of its threads and for every reply of the node.

That it does not run on is the measure, which every step lowers. That it does
not get stuck is that some thread can always move: the loop waits for the
watcher only in a join, for the workers only in a call, and for the node only
in a request, and none of these waits for the loop.

## Main definitions

* `SessionOk`: What holds of every session.
* `Closing`: A session whose flag is up.
* `SessionAction.ofMonitor`: The raising of the flag.
* `Session.Ended`: The loop has returned and no thread is left.

## Theorems

* `closing_ranked`: The measure ranks the steps of a closing session.
* `session_progress`, `session_never_stuck`: A session that has not ended can
  move.
* `session_shuts_down`: After the flag was raised it ends.
-/

namespace MercaMiner

open Transition

/-- What holds of every session. -/
structure SessionOk (setup : SessionSetup) (s : Session) : Prop where
  work : WorkOk setup s
  watch : ∃ tr, WatchOk tr s.loop.pc s.watcher
  shape : Shape s.loop

/-- A session whose flag is up. -/
structure Closing (setup : SessionSetup) (s : Session) : Prop extends SessionOk setup s where
  shutdown : s.loop.shutdown = true

/-- The monitor's action. Every other one is of the session's own threads. -/
def SessionAction.ofMonitor : SessionAction → Bool
  | .raiseShutdown => true
  | _ => false

/-- The loop was left, by its end or by an exception, no watcher is left, and
    no call of `Mine`. -/
structure Session.Ended (s : Session) : Prop where
  left : (∃ exit, s.loop.pc = .exited exit) ∨ ∃ what, s.loop.pc = .uncaught what
  watcher : s.watcher = none
  mine : s.mine = none

section

variable (setup : SessionSetup)

theorem Closing.step (s s' : Session) (a : SessionAction) (h : Closing setup s)
    (hstep : sessionStep setup s a = some s') : Closing setup s' := by
  rcases h with ⟨⟨hwork, ⟨tr, hwatch⟩, hshape⟩, hshutdown⟩
  rcases sessionStep_shutdown setup s s' a hshape hstep with ⟨hshape', hkept⟩
  exact ⟨⟨sessionStep_work setup s s' a hwork hstep,
    ⟨_, sessionStep_watch tr setup s s' a hshape hwatch hstep⟩, hshape'⟩, hkept hshutdown⟩

/-- The measure ranks the steps of a closing session. -/
theorem closing_ranked : Ranked (sessionStep setup) (Closing setup)
    fun s => s.closing setup.workerCount.toNat where
  keep := fun s a s' hs hstep => hs.step setup s s' a hstep
  lower := fun s a s' hs hstep => sessionStep_closing setup s s' a hs.shutdown hstep

/-- A component has the event ready that the loop waits for. -/
theorem loop_enabled (s : Session) (e : LoopEvent) (hoffer : (s.offer e).isSome = true)
    (hloop : (threadStep s.loop e).isSome = true) :
    ∃ a s', a.ofMonitor = false ∧ sessionStep setup s a = some s' := by
  rcases Option.isSome_iff_exists.mp hoffer with ⟨t, hready⟩
  rcases Option.isSome_iff_exists.mp hloop with ⟨loop, hstep⟩
  refine ⟨.loop e, t.afterLoop e loop, rfl, ?_⟩
  simp only [sessionStep, Session.loopMove, hready, hstep, Option.bind_eq_bind, Option.bind_some]

/-- Nobody but the thread itself stops a watcher's thread. -/
theorem watcher_enabled (s : Session) (w : OwnedWatcher) (hw : s.watcher = some w)
    (hpc : w.watcher.pc ≠ .returned) :
    ∃ a s', a.ofMonitor = false ∧ sessionStep setup s a = some s' := by
  have hsome : ∃ v, runStep w.watcher .rpcCancelled = some v := by
    cases hcase : w.watcher.pc with
    | returned => exact absurd hcase hpc
    | calling | storeTipChanged _ | storeHardCancel _ | storeStatus _ | storeRefreshRequested =>
        simp only [runStep, hcase, Option.some.injEq, exists_eq']
    | loadCancelRequested | handleCancelled =>
        by_cases hcancel : w.watcher.cancelRequested = true
        · simp only [runStep, hcase, if_pos hcancel, Option.some.injEq, exists_eq']
        · simp only [runStep, hcase, if_neg hcancel, Option.some.injEq, exists_eq']
  rcases hsome with ⟨v, hv⟩
  refine ⟨.watcher .rpcCancelled, { s with watcher := some { w with watcher := v } }, rfl, ?_⟩
  simp only [sessionStep, hw, ownedStep, hv, Option.map_some, Option.bind_eq_bind,
    Option.bind_some]

/-- Who waits in a join waits for the watcher's thread. -/
theorem join_enabled (s : Session) (w : OwnedWatcher) (destroying : Bool)
    (hw : s.watcher = some w) (howner : w.owner = .joining destroying) :
    ∃ a s', a.ofMonitor = false ∧ sessionStep setup s a = some s' := by
  by_cases hpc : w.watcher.pc = .returned
  · have hsome : s.joinWatcher.isSome = true := by
      simp only [Session.joinWatcher, hw, howner, OwnedWatcher.ownerStep, hpc, ne_eq,
        not_true_eq_false, and_false, if_false, Option.bind_eq_bind, Option.bind_some,
        Option.isSome_some]
    rcases Option.isSome_iff_exists.mp hsome with ⟨s', hstep⟩
    exact ⟨.joinWatcher, s', rfl, hstep⟩
  · exact watcher_enabled setup s w hw hpc

/-- `Finish` comes to its return. -/
theorem finish_enabled (s : Session) (w : OwnedWatcher) (hw : s.watcher = some w)
    (hready : StageOk w .joining)
    (hloop : ∀ status, (threadStep s.loop (.joined status)).isSome = true) :
    ∃ a s', a.ofMonitor = false ∧ sessionStep setup s a = some s' := by
  rcases hready with hjoining | ⟨hload, _⟩
  · exact join_enabled setup s w false hw hjoining
  · refine loop_enabled setup s (.joined w.watcher.status) ?_ (hloop _)
    change (s.finishEnd w.watcher.status).isSome = true
    simp only [Session.finishEnd, hw, hload, OwnedWatcher.ownerStep, and_self, if_true,
      Option.bind_eq_bind, Option.bind_some, Option.isSome_some]

theorem begin_enabled (s : Session) (w : OwnedWatcher) (hw : s.watcher = some w)
    (hready : StageOk w .before) (hloop : (threadStep s.loop .requestCancel).isSome = true) :
    ∃ a s', a.ofMonitor = false ∧ sessionStep setup s a = some s' := by
  refine loop_enabled setup s .requestCancel ?_ hloop
  change (s.watcher.bind fun w => (w.beginCancel false).bind fun w =>
    some { s with watcher := some w }).isSome = true
  simp only [hw, OwnedWatcher.beginCancel, hready.1, if_true, Option.bind_some,
    Option.isSome_some]

theorem readFlag_isSome (s : Session) (w : OwnedWatcher) (hw : s.watcher = some w)
    (flag : WatcherFlag) : (s.readFlag flag (w.watcher.flag flag)).isSome = true := by
  simp only [Session.readFlag, hw, if_true, Option.bind_eq_bind, Option.bind_some,
    Option.isSome_some]

/-- In a turn the loop's own statements do not wait. -/
theorem advance_enabled (s : Session) (hturn : s.loop.pc.inTurn = true ∨ s.watcher = none)
    (hloop : (threadStep s.loop .advance).isSome = true) :
    ∃ a s', a.ofMonitor = false ∧ sessionStep setup s a = some s' := by
  refine loop_enabled setup s .advance ?_ hloop
  change (if (s.watcher.isSome && !s.loop.pc.inTurn) = true then none else some s).isSome = true
  rcases hturn with hturn | hgone
  · simp only [hturn, Bool.not_true, Bool.and_false, Bool.false_eq_true, if_false,
      Option.isSome_some]
  · simp only [hgone, Option.isSome_none, Bool.false_and, Bool.false_eq_true, if_false,
      Option.isSome_some]

/-- The decisions about a solved candidate. -/
theorem found_progress (s : Session) (it : Iteration) (candidate : BlockCandidate) (pc : FoundPc)
    (w : OwnedWatcher) (hpc : s.loop.pc = .inner it (.found candidate pc))
    (hw : s.watcher = some w) (hready : StageOk w (foundStage pc)) :
    ∃ a s', a.ofMonitor = false ∧ sessionStep setup s a = some s' := by
  have hturn : s.loop.pc.inTurn = true := by rw [hpc]; rfl
  cases pc with
  | finishing =>
      exact begin_enabled setup s w hw hready
        (by simp only [threadStep, hpc, innerStep, foundStep, Option.map_some, Option.isSome_some])
  | joining =>
      exact finish_enabled setup s w hw hready
        fun status => by simp only [threadStep, hpc, innerStep, foundStep, Option.map_some,
          Option.isSome_some]
  | loadShutdown status =>
      refine advance_enabled setup s (Or.inl hturn) ?_
      simp only [threadStep, hpc, innerStep, foundStep]
      split <;> rfl
  | loadRefresh status =>
      refine loop_enabled setup s (.refreshRequested _)
        (readFlag_isSome s w hw .refreshRequested) ?_
      simp only [threadStep, hpc, innerStep, foundStep]
      split
      · split <;> rfl
      · rfl
  | loadInvalidated =>
      refine loop_enabled setup s (.oldWorkInvalidated _) (readFlag_isSome s w hw .hardCancel) ?_
      simp only [threadStep, hpc, innerStep, foundStep]
      split <;> rfl
  | decided d =>
      cases d with
      | stop | discard =>
          exact advance_enabled setup s (Or.inl hturn)
            (by simp only [threadStep, hpc, innerStep, Option.isSome_some])
      | submit =>
          exact loop_enabled setup s .callSubmit rfl
            (by simp only [threadStep, hpc, innerStep, Option.isSome_some])

/-- A submission waits for the node, which replies. -/
theorem submitting_progress (s : Session) (it : Iteration) (args : SubmitArguments)
    (frame : SubmitFrame) (hpc : s.loop.pc = .inner it (.submitting args frame)) :
    ∃ a s', a.ofMonitor = false ∧ sessionStep setup s a = some s' := by
  rcases frame with ⟨pc, rejection⟩
  have hstep (e : SubmitEvent)
      (h : (submitStep args (some s.loop.shutdown) ⟨pc, rejection⟩ e).isSome = true) :
      ∃ a s', a.ofMonitor = false ∧ sessionStep setup s a = some s' := by
    refine loop_enabled setup s (.submitting e) rfl ?_
    simp only [threadStep, hpc, innerStep, Option.isSome_map]
    exact h
  cases pc with
  | checkCancelled | handleCancelled =>
      refine hstep .advance ?_
      simp only [submitStep]
      split <;> rfl
  | callSubmit | callCount | callBest _ => exact hstep (.reply .rpcCancelled) rfl
  | reloadCookie => exact hstep .advance rfl
  | sleeping remaining =>
      refine hstep .advance ?_
      simp only [submitStep]
      split
      · rfl
      · split <;> rfl
  | returned outcome =>
      refine loop_enabled setup s (.submitted outcome) rfl ?_
      simp only [threadStep, hpc, innerStep, if_true, Option.isSome_some]
  | threw e =>
      refine advance_enabled setup s (Or.inl ?_) ?_
      · rw [hpc]
        rfl
      · simp only [threadStep, hpc, innerStep, Option.isSome_some]

/-- The loop calls `Mine`, or waits for its threads. -/
theorem mining_progress (s : Session) (hwork : WorkOk setup s) (it : Iteration)
    (m : MiningCandidate) (w : OwnedWatcher) (hpc : s.loop.pc = .inner it (.mining m))
    (hw : s.watcher = some w) : ∃ a s', a.ofMonitor = false ∧ sessionStep setup s a = some s' := by
  cases hmine : s.mine with
  | none =>
      have hsome : (s.callMine setup).isSome = true := by
        simp only [Session.callMine, hpc, hmine, hw, threadStep, innerStep, Option.map_some]
        split <;> rfl
      rcases Option.isSome_iff_exists.mp hsome with ⟨s', hstep⟩
      exact ⟨.callMine, s', rfl, hstep⟩
  | some call =>
      rcases call with ⟨c, st⟩
      rcases hwork.call setup s c st hmine with ⟨_, _, args, _, _, _, hruns⟩
      have hok := mineOk_store c (some s.completedHashes) True st
        (st.withFlags w.watcher s.loop.shutdown).shared hruns.ok rfl rfl rfl
      rcases mineStep_progress c _ True _ hok with ⟨result, after, hreturned⟩ |
        ⟨b, st', hown, hstep, _⟩
      · have hmain : st.main = .returned result after := hreturned
        refine loop_enabled setup s (.mined result.status after) ?_
          (by simp only [threadStep, hpc, innerStep, Option.isSome_some])
        change (s.mineEnd result.status after).isSome = true
        simp only [Session.mineEnd, hmine, MineState.returned, hmain, and_self, if_true,
          Option.bind_eq_bind, Option.bind_some, Option.isSome_some]
      · have hmove : s.mineMove b = some { s with mine := some (c, st') } := by
          simp only [Session.mineMove, hmine, hw, Option.bind_eq_bind, Option.bind_some]
          rw [show mineStep c (st.withFlags w.watcher s.loop.shutdown) b = some st' from hstep]
          rfl
        cases b with
        | worker i => exact ⟨.worker i, _, rfl, hmove⟩
        | main => exact ⟨.joinWorkers, _, rfl, hmove⟩
        | storeCancelled _ | storeCancelledSecondary _ | storeRefreshRequested _ =>
            exact absurd hown not_false

/-- In a turn some thread can move. -/
theorem inner_progress (s : Session) (hwork : WorkOk setup s) (it : Iteration) (pc : InnerPc)
    (w : OwnedWatcher) (hpc : s.loop.pc = .inner it pc) (hw : s.watcher = some w)
    (hready : StageOk w (innerStage it pc)) :
    ∃ a s', a.ofMonitor = false ∧ sessionStep setup s a = some s' := by
  have hturn : s.loop.pc.inTurn = true := by rw [hpc]; rfl
  cases pc with
  | test | loadShutdown _ | report _ =>
      refine advance_enabled setup s (Or.inl hturn) ?_
      simp only [threadStep, hpc, innerStep]
      split <;> rfl
  | nextCandidate =>
      exact loop_enabled setup s (.nextCandidate false) rfl
        (by simp only [threadStep, hpc, innerStep, Option.isSome_some])
  | mining m => exact mining_progress setup s hwork it m w hpc hw
  | loadRefresh =>
      refine loop_enabled setup s (.refreshRequested _)
        (readFlag_isSome s w hw .refreshRequested) ?_
      simp only [threadStep, hpc, innerStep]
      split <;> rfl
  | finishing site =>
      exact begin_enabled setup s w hw hready
        (by simp only [threadStep, hpc, innerStep, Option.isSome_some])
  | joining site =>
      exact finish_enabled setup s w hw hready
        fun status => by simp only [threadStep, hpc, innerStep, Option.isSome_some]
  | loadInvalidated =>
      exact loop_enabled setup s (.oldWorkInvalidated _) (readFlag_isSome s w hw .hardCancel)
        (by simp only [threadStep, hpc, innerStep, Option.isSome_some])
  | found candidate pc => exact found_progress setup s it candidate pc w hpc hw hready
  | submitting args frame => exact submitting_progress setup s it args frame hpc

/-- A fetch waits for the node, which replies. -/
theorem fetching_progress (s : Session) (hpc : s.loop.pc = .fetching) :
    ∃ a s', a.ofMonitor = false ∧ sessionStep setup s a = some s' := by
  have hreply (hsome : (fetchStep setup.network s.fetch .rpcCancelled).isSome = true) :
      ∃ a s', a.ofMonitor = false ∧ sessionStep setup s a = some s' := by
    rcases Option.isSome_iff_exists.mp hsome with ⟨f, hf⟩
    refine ⟨.fetchReply .rpcCancelled, { s with fetch := f }, rfl, ?_⟩
    simp only [sessionStep, hpc, if_true, hf, Option.map_some]
  cases hfetch : s.fetch with
  | callInfo | callTemplate _ =>
      refine hreply ?_
      rw [hfetch]
      rfl
  | returned work =>
      refine loop_enabled setup s (.fetched work) ?_
        (by simp only [threadStep, hpc, Option.isSome_some])
      change (if s.fetch = .returned work then some { s with fetch := .callInfo }
        else none).isSome = true
      rw [if_pos hfetch, Option.isSome_some]
  | threw e =>
      refine loop_enabled setup s (.threw e) ?_
        (by simp only [threadStep, hpc, Option.isSome_some])
      change (if s.fetch = .threw e then some { s with fetch := .callInfo } else none).isSome = true
      rw [if_pos hfetch, Option.isSome_some]

/-- A watcher whose turn was left is destroyed. -/
theorem released_progress (s : Session) (w : OwnedWatcher) (hw : s.watcher = some w)
    (hout : s.loop.pc.inTurn = false) (howner : w.owner = .idle ∨ w.owner = .joining true) :
    ∃ a s', a.ofMonitor = false ∧ sessionStep setup s a = some s' := by
  rcases howner with hidle | hjoining
  · have hsome : s.destroyWatcher.isSome = true := by
      simp only [Session.destroyWatcher, hw, hout, Bool.false_eq_true, if_false,
        OwnedWatcher.beginCancel, hidle, if_true, Option.bind_eq_bind, Option.bind_some,
        Option.isSome_some]
    rcases Option.isSome_iff_exists.mp hsome with ⟨s', hstep⟩
    exact ⟨.destroyWatcher, s', rfl, hstep⟩
  · exact join_enabled setup s w true hw hjoining

theorem inTurn_outside (pc : LoopPc) (h : stage pc = none) : pc.inTurn = false := by
  cases pc with
  | inner _ _ | afterInner _ | finishExhausted | joinExhausted =>
      exact absurd h (by simp only [stage, reduceCtorEq, not_false_eq_true])
  | _ => rfl

/-- A session that has not ended can move. -/
theorem session_progress (s : Session) (h : SessionOk setup s) (hnot : ¬s.Ended) :
    ∃ a s', a.ofMonitor = false ∧ sessionStep setup s a = some s' := by
  rcases h with ⟨hwork, ⟨tr, hwatch⟩, _⟩
  cases hstage : stage s.loop.pc with
  | some st =>
      rcases hwatch.inTurn tr _ _ st hstage with ⟨w, expected, hw, hturn⟩
      have hready := hturn.owner
      cases hpc : s.loop.pc with
      | inner it pc =>
          rw [hpc, stage, Option.some.injEq] at hstage
          rw [← hstage] at hready
          exact inner_progress setup s hwork it pc w hpc hw hready
      | afterInner it =>
          refine advance_enabled setup s (Or.inl (by rw [hpc]; rfl)) ?_
          simp only [threadStep, hpc]
          split <;> rfl
      | finishExhausted =>
          rw [hpc, stage, Option.some.injEq] at hstage
          rw [← hstage] at hready
          exact begin_enabled setup s w hw hready
            (by simp only [threadStep, hpc, Option.isSome_some])
      | joinExhausted =>
          rw [hpc, stage, Option.some.injEq] at hstage
          rw [← hstage] at hready
          exact finish_enabled setup s w hw hready
            fun status => by simp only [threadStep, hpc, Option.isSome_some]
      | _ => exact absurd hstage (by simp only [hpc, stage, reduceCtorEq, not_false_eq_true])
  | none =>
      cases hw : s.watcher with
      | some w =>
          exact released_progress setup s w hw (inTurn_outside _ hstage)
            (hwatch.outside tr _ _ w hstage hw).2.owner
      | none =>
          have hposition := hwork.position
          rw [PositionOk] at hposition
          cases hpc : s.loop.pc with
          | whileTest =>
              refine advance_enabled setup s (Or.inr hw) ?_
              simp only [threadStep, hpc]
              split <;> rfl
          | fetching => exact fetching_progress setup s hpc
          | catching e =>
              refine advance_enabled setup s (Or.inr hw) ?_
              simp only [threadStep, hpc]
              cases e with
              | rpcCancelled | rpc _ | other _ => simp only; split <;> rfl
          | reloadCookie =>
              exact advance_enabled setup s (Or.inr hw)
                (by simp only [threadStep, hpc, Option.isSome_some])
          | sleeping remaining =>
              refine advance_enabled setup s (Or.inr hw) ?_
              simp only [threadStep, hpc]
              split
              · rfl
              · split <;> rfl
          | leaving =>
              refine advance_enabled setup s (Or.inr hw) ?_
              simp only [threadStep, hpc]
              split <;> rfl
          | exited exit =>
              simp only [hpc] at hposition
              exact absurd ⟨Or.inl ⟨exit, hpc⟩, hw, hposition⟩ hnot
          | uncaught what =>
              simp only [hpc] at hposition
              exact absurd ⟨Or.inr ⟨what, hpc⟩, hw, hposition⟩ hnot
          | inner _ _ | afterInner _ | finishExhausted | joinExhausted =>
              exact absurd hstage (by simp only [hpc, stage, reduceCtorEq, not_false_eq_true])

end

section

variable (setup : SessionSetup) (blockLimit : UInt64) (payoutScript : Bytes)

theorem session_ok (acts : List SessionAction) (s : Session)
    (h : run (sessionStep setup) (sessionStart blockLimit payoutScript) acts = some s) :
    SessionOk setup s :=
  ⟨session_workOk setup blockLimit payoutScript acts s h,
    ⟨acts, session_watchOk setup blockLimit payoutScript acts s h⟩,
    session_shape setup blockLimit payoutScript acts s h⟩

/-- A session does not come to a standstill before its end: in every state it
    can reach, one of its own threads can move. -/
theorem session_never_stuck (acts : List SessionAction) (s : Session)
    (h : run (sessionStep setup) (sessionStart blockLimit payoutScript) acts = some s) :
    s.Ended ∨ ∃ a s', a.ofMonitor = false ∧ sessionStep setup s a = some s' := by
  by_cases hended : s.Ended
  · exact Or.inl hended
  · exact Or.inr (session_progress setup s (session_ok setup blockLimit payoutScript acts s h)
      hended)

theorem session_never_stuck_regtest :
    ∃ s, run (sessionStep regtestSetup) (sessionStart 0 [0x51]) regtestTurn = some s ∧
      (s.Ended ∨
        ∃ a s', a.ofMonitor = false ∧ sessionStep regtestSetup s a = some s') := by
  rcases regtestTurn_submits with ⟨s, _, _, _, hrun, _⟩
  exact ⟨s, hrun, session_never_stuck regtestSetup 0 [0x51] regtestTurn s hrun⟩

/-- Under a raised flag the loop returns only because of it. -/
theorem sessionStep_exit (s s' : Session) (a : SessionAction) (hshutdown : s.loop.shutdown = true)
    (h : sessionStep setup s a = some s')
    (hexit : s'.loop.pc = .exited .requestedBlockCountReached) :
    s.loop.pc = .exited .requestedBlockCountReached := by
  rcases sessionStep_loop setup s s' a h with hsame | ⟨e, he⟩
  · rw [← hsame]
    exact hexit
  · rcases (loopStep_outer s.loop s'.loop e he).exited hexit with hpc | ⟨_, hdown⟩
    · exact hpc
    · exact absurd (hdown.symm.trans hshutdown) Bool.false_ne_true

/-- After the flag was raised a session takes a bounded number of steps, in
    whatever order its threads move and whatever the node replies, and it ends. -/
theorem session_shuts_down (before : List SessionAction) (s : Session)
    (hrun : run (sessionStep setup) (sessionStart blockLimit payoutScript) before = some s)
    (hshutdown : s.loop.shutdown = true) :
    (∀ acts t, run (sessionStep setup) s acts = some t →
      acts.length ≤ 6 * setup.workerCount.toNat + 28 ∧
      (t.loop.pc = .exited .requestedBlockCountReached →
        s.loop.pc = .exited .requestedBlockCountReached) ∧
      (Stuck (sessionStep setup) t → t.Ended)) ∧
    ∃ acts t, run (sessionStep setup) s acts = some t ∧ t.Ended := by
  have hclosing : Closing setup s := ⟨session_ok setup blockLimit payoutScript before s hrun,
    hshutdown⟩
  have hranked := closing_ranked setup
  have hprogress (u : Session) (hu : Closing setup u) (hnot : ¬u.Ended) :
      ∃ a u', sessionStep setup u a = some u' := by
    rcases session_progress setup u hu.toSessionOk hnot with ⟨a, u', _, hstep⟩
    exact ⟨a, u', hstep⟩
  refine ⟨fun acts t hacts => ⟨?_, ?_, hranked.final_of_stuck Session.Ended hprogress s t acts
    hclosing hacts⟩, hranked.completes Session.Ended hprogress s hclosing⟩
  · exact Nat.le_trans (hranked.length_le s t acts hclosing hacts)
      (s.closing_le setup hclosing.work)
  · refine (run_invariant (sessionStep setup) (fun u => Closing setup u ∧
      (u.loop.pc = .exited .requestedBlockCountReached →
        s.loop.pc = .exited .requestedBlockCountReached))
      (fun u a u' hu hstep => ⟨hu.1.step setup u u' a hstep, fun hexit => hu.2 ?_⟩)
      s ⟨hclosing, id⟩ acts t hacts).2
    exact sessionStep_exit setup u u' a hu.1.shutdown hstep hexit

theorem session_shuts_down_regtest :
    ∃ s, run (sessionStep regtestSetup) (sessionStart 0 [0x51]) regtestClosing = some s ∧
      ∃ acts t, run (sessionStep regtestSetup) s acts = some t ∧ t.Ended ∧
        acts.length ≤ 34 := by
  rcases regtestClosing_run with ⟨s, _, hrun, hshutdown, _⟩
  rcases session_shuts_down regtestSetup 0 [0x51] regtestClosing s hrun hshutdown with
    ⟨hall, acts, t, hacts, hended⟩
  exact ⟨s, hrun, acts, t, hacts, hended, (hall acts t hacts).1⟩

end

end MercaMiner
