import MercaMiner.Basis.Transition
import MercaMiner.Core.MineLoop

/-!
# Phases of the Mining Loop

An abstract machine that says what one turn of the mining loop is for, and
the proof that the loop is one.

A turn fetches a template, mines candidates of it until its watcher is
finished, and then settles it: it counts the work, submits a solution first
if there is one, or is stopped. The machine knows a few kinds of events;
whatever else the loop reads is quiet. A phase forgets the loop's data, so a
property of the order of events needs a case analysis of the machine's steps
and not of the whole loop.

The counters are not part of the machine. They are a function of the events,
and `loopStep_effect` says so together with the simulation.

## Main definitions

* `EventKind`: The kinds of events.
* `countEvent`: What an event does to the counters.
* `Phase`, `PhaseStep`: The abstract machine.
* `phase`: The phase of a position in the loop.
* `Shape`: What positions inside the loop know about its variables.

## Theorems

* `loopStep_effect`: A step of the loop is a step of the machine, and the
  counters change as its event says.
-/

namespace MercaMiner

/-- What the machine knows of an event. -/
inductive EventKind where
  | fetched
  | mining
  | joined
  | callSubmit
  | counting
  | quiet
  deriving DecidableEq

/-- A mining event builds a candidate or is the result of mining it; a
    counting event makes one of the counters go up. -/
def LoopEvent.kind : LoopEvent → EventKind
  | fetched _ => .fetched
  | nextCandidate _ | mined _ _ => .mining
  | joined _ => .joined
  | callSubmit => .callSubmit
  | oldWorkInvalidated b => if b then .counting else .quiet
  | submitted .cancelled => .quiet
  | submitted _ => .counting
  | _ => .quiet

/-- What an event does to the counters. -/
def countEvent (stats : RuntimeStats) : LoopEvent → RuntimeStats
  | .oldWorkInvalidated true => stats.countStale
  | .submitted .accepted => stats.countAccepted
  | .submitted .rejected => stats.countRejected
  | .submitted .notCurrentTip => stats.countStale
  | _ => stats

/-- Where a turn is. Between turns the machine is outside, and after an
    exception it has failed. -/
inductive Phase where
  | outside
  | fetching
  | mining
  | finished
  | solved
  | deciding
  | submitting
  | settled
  | failed
  deriving DecidableEq

/-- The steps of the abstract machine. -/
inductive PhaseStep (shutdown : Bool) : Phase → LoopEvent → Phase → Prop
  | pass (p : Phase) (e : LoopEvent) (h : e.kind = .quiet) : PhaseStep shutdown p e p
  | enter (e : LoopEvent) (h : e.kind = .quiet) : PhaseStep shutdown .outside e .fetching
  | fetch (e : LoopEvent) (p : Phase) (h : e.kind = .fetched)
      (hp : p = .mining ∨ p = .outside ∨ p = .failed) : PhaseStep shutdown .fetching e p
  | mine (e : LoopEvent) (p : Phase) (h : e.kind = .mining)
      (hp : p = .mining ∨ p = .solved ∨ p = .failed) : PhaseStep shutdown .mining e p
  | finish (e : LoopEvent) (p : Phase) (h : e.kind = .joined)
      (hp : p = .finished ∨ p = .failed) : PhaseStep shutdown .mining e p
  | decide (e : LoopEvent) (h : e.kind = .joined) : PhaseStep shutdown .solved e .deciding
  | submit (e : LoopEvent) (h : e.kind = .callSubmit) :
      PhaseStep shutdown .deciding e .submitting
  | count (e : LoopEvent) (p : Phase) (h : e.kind = .counting)
      (hp : p = .finished ∨ p = .deciding ∨ p = .submitting) : PhaseStep shutdown p e .settled
  | dismiss (e : LoopEvent) (h : e.kind = .quiet) : PhaseStep shutdown .finished e .settled
  | stop (e : LoopEvent) (p : Phase) (h : e.kind = .quiet) (hshutdown : shutdown = true)
      (hp : p = .deciding ∨ p = .submitting) : PhaseStep shutdown p e .settled
  | leave (e : LoopEvent) (p : Phase) (h : e.kind = .quiet)
      (hp : p = .mining ∨ p = .settled ∨ p = .failed) : PhaseStep shutdown p e .outside
  | fail (e : LoopEvent) (p : Phase) (h : e.kind = .quiet)
      (hp : p = .fetching ∨ p = .mining ∨ p = .submitting) : PhaseStep shutdown p e .failed

def foundPhase : FoundPc → Phase
  | .finishing | .joining => .solved
  | .loadShutdown _ | .loadRefresh _ | .loadInvalidated | .decided .submit => .deciding
  | .decided .stop | .decided .discard => .settled

/-- At the test of the inner loop, and after it, the variable decides whether
    the template is done with. -/
def testPhase (it : Iteration) : Phase :=
  if it.refreshTemplate then .settled else .mining

def innerPhase (it : Iteration) : InnerPc → Phase
  | .test => testPhase it
  | .nextCandidate | .mining _ | .loadRefresh | .finishing _ | .joining _ => .mining
  | .loadShutdown _ | .report _ | .loadInvalidated => .finished
  | .found _ pc => foundPhase pc
  | .submitting _ _ => .submitting

def phase : LoopPc → Phase
  | .whileTest | .leaving | .exited _ => .outside
  | .fetching => .fetching
  | .inner it pc => innerPhase it pc
  | .afterInner it => testPhase it
  | .finishExhausted | .joinExhausted => .mining
  | .catching _ | .reloadCookie | .sleeping _ | .uncaught _ => .failed

/-- Past the test of the inner loop no refresh was asked for, and a
    submission that gave up saw the shutdown flag. -/
def InnerShape (shutdown : Bool) (it : Iteration) : InnerPc → Prop
  | .test => True
  | .submitting _ frame =>
      it.refreshTemplate = false ∧ (frame.pc = .returned .cancelled → shutdown = true)
  | _ => it.refreshTemplate = false

def Shape (s : LoopState) : Prop :=
  match s.pc with
  | .inner it pc => InnerShape s.shutdown it pc
  | _ => True

/-- What a step does, as far as the machine and the counters are concerned. -/
structure LoopEffect (s s' : LoopState) (e : LoopEvent) : Prop where
  phase : PhaseStep s.shutdown (phase s.pc) e (phase s'.pc)
  stats : s'.stats = countEvent s.stats e
  shape : Shape s'
  blockLimit : s'.blockLimit = s.blockLimit
  shutdown : s.shutdown = true → s'.shutdown = true

theorem foundStep_effect (shutdown : Bool) (stats stats' : RuntimeStats) (pc pc' : FoundPc)
    (e : LoopEvent) (h : foundStep shutdown stats pc e = some (stats', pc')) :
    PhaseStep shutdown (foundPhase pc) e (foundPhase pc') ∧ stats' = countEvent stats e := by
  revert h
  fun_cases foundStep shutdown stats pc e with
  | case1 =>
      intro heq
      cases heq
      exact ⟨.pass _ _ rfl, rfl⟩
  | case2 =>
      intro heq
      cases heq
      exact ⟨.decide _ rfl, rfl⟩
  | case3 _ hshutdown =>
      -- The only decision that drops the candidate without counting it.
      intro heq
      cases heq
      exact ⟨.stop _ _ rfl hshutdown (Or.inl rfl), rfl⟩
  | case4 | case5 | case6 | case7 =>
      intro heq
      cases heq
      exact ⟨.pass _ _ rfl, rfl⟩
  | case8 =>
      intro heq
      cases heq
      exact ⟨.count _ _ rfl (Or.inr (Or.inl rfl)), rfl⟩
  | case9 b hb =>
      rw [Bool.not_eq_true] at hb
      subst hb
      intro heq
      cases heq
      exact ⟨.pass _ _ rfl, rfl⟩
  | case10 =>
      intro h
      exact absurd h (by simp only [reduceCtorEq, not_false_eq_true])

theorem throw_effect (s : LoopState) (e : LoopEvent) (exn : LoopException)
    (hstep : PhaseStep s.shutdown (phase s.pc) e .failed)
    (hcount : countEvent s.stats e = s.stats) : LoopEffect s (s.throw exn) e := by
  cases exn with
  | rpcCancelled | rpc _ | other _ => exact ⟨hstep, hcount.symm, trivial, rfl, id⟩

theorem resolved_effect (s : LoopState) (it : Iteration) (args : SubmitArguments)
    (frame : SubmitFrame) (outcome : ResolvedSubmitOutcome)
    (hpc : s.pc = .inner it (.submitting args frame))
    (hshutdown : outcome = .cancelled → s.shutdown = true) :
    LoopEffect s (s.resolved it outcome) (.submitted outcome) := by
  have hphase : phase s.pc = .submitting := by rw [hpc]; rfl
  cases outcome with
  | cancelled =>
      exact ⟨by rw [hphase]; exact .stop _ _ rfl (hshutdown rfl) (Or.inr rfl), rfl, trivial, rfl,
        id⟩
  | accepted | rejected | notCurrentTip =>
      exact ⟨by rw [hphase]; exact .count _ _ rfl (Or.inr (Or.inr rfl)), rfl, trivial, rfl, id⟩

theorem innerStep_effect (s s' : LoopState) (it : Iteration) (pc : InnerPc) (e : LoopEvent)
    (hpc : s.pc = .inner it pc) (hshape : InnerShape s.shutdown it pc)
    (h : innerStep s it pc e = some s') : LoopEffect s s' e := by
  have hphase : phase s.pc = innerPhase it pc := by rw [hpc]; rfl
  revert h
  fun_cases innerStep s it pc e with
  | case1 hmore =>
      -- The test of the inner loop succeeded, so no refresh was asked for.
      intro heq
      cases heq
      simp only [Bool.and_eq_true, Bool.not_eq_true'] at hmore
      have htest : phase s.pc = .mining := by
        rw [hphase, innerPhase, testPhase, hmore.1.2]
        rfl
      exact ⟨by rw [htest]; exact .pass _ _ rfl, rfl, hmore.1.2, rfl, id⟩
  | case2 =>
      -- The test failed.
      intro heq
      cases heq
      exact ⟨by rw [hphase]; exact .pass _ _ rfl, rfl, trivial, rfl, id⟩
  | case3 outOfMemory =>
      -- The next candidate, or the exception that there is none.
      intro heq
      cases heq
      cases hnext : it.job.nextCandidate outOfMemory with
      | mk result job =>
          cases result with
          | error err =>
              refine throw_effect s (.nextCandidate outOfMemory) (.other err.what) ?_ rfl
              rw [hphase]
              exact .mine _ _ rfl (Or.inr (Or.inr rfl))
          | ok candidate =>
              exact ⟨by rw [hphase]; exact .mine _ _ rfl (Or.inl rfl), rfl, hshape, rfl, id⟩
  | case4 _ status _ =>
      -- `Mine` returned.
      intro heq
      cases heq
      cases status with
      | found => exact ⟨by rw [hphase]; exact .mine _ _ rfl (Or.inr (Or.inl rfl)), rfl, hshape, rfl,
          id⟩
      | exhausted | cancelled =>
          exact ⟨by rw [hphase]; exact .mine _ _ rfl (Or.inl rfl), rfl, hshape, rfl, id⟩
  | case5 =>
      intro heq
      cases heq
      exact throw_effect s _ _ (by rw [hphase]; exact .fail _ _ rfl (Or.inr (Or.inl rfl))) rfl
  | case6 | case8 =>
      intro heq
      cases heq
      exact ⟨by rw [hphase]; exact .pass _ _ rfl, rfl, hshape, rfl, id⟩
  | case7 =>
      -- Exhausted, with no refresh to do: back to the test, still mining.
      intro heq
      cases heq
      have htest : innerPhase it .test = .mining := by
        rw [innerPhase, testPhase, show it.refreshTemplate = false from hshape]
        rfl
      refine ⟨?_, rfl, trivial, rfl, id⟩
      rw [hphase, show phase (s.goto (.inner it .test)).pc = .mining from htest]
      exact .pass _ _ rfl
  | case9 site status =>
      -- The watcher was joined, at either of the two places.
      intro heq
      cases heq
      cases site with
      | cancelled | exhausted =>
          exact ⟨by rw [hphase]; exact .finish _ _ rfl (Or.inl rfl), rfl, hshape, rfl, id⟩
  | case10 =>
      -- Shutdown after a cancelled `Mine`.
      intro heq
      cases heq
      exact ⟨by rw [hphase]; exact .dismiss _ rfl, rfl, trivial, rfl, id⟩
  | case11 | case13 =>
      intro heq
      cases heq
      exact ⟨by rw [hphase]; exact .pass _ _ rfl, rfl, hshape, rfl, id⟩
  | case12 =>
      -- The watcher failed, so nothing is known to be stale.
      intro heq
      cases heq
      exact ⟨by rw [hphase]; exact .dismiss _ rfl, rfl, trivial, rfl, id⟩
  | case14 b =>
      -- Stale work is counted here when no candidate was solved.
      intro heq
      cases heq
      cases b with
      | true => exact ⟨by rw [hphase]; exact .count _ _ rfl (Or.inl rfl), rfl, trivial, rfl, id⟩
      | false => exact ⟨by rw [hphase]; exact .dismiss _ rfl, rfl, trivial, rfl, id⟩
  | case15 | case16 =>
      -- A decided candidate was settled by the decision.
      intro heq
      cases heq
      exact ⟨by rw [hphase]; exact .pass _ _ rfl, rfl, trivial, rfl, id⟩
  | case17 =>
      -- The one call of the submission.
      intro heq
      cases heq
      refine ⟨by rw [hphase]; exact .submit _ rfl, rfl, ⟨hshape, ?_⟩, rfl, id⟩
      exact fun hstart => absurd hstart (by simp only [SubmitFrame.start, reduceCtorEq,
        not_false_eq_true])
  | case18 candidate pc =>
      intro h
      rcases Option.map_eq_some_iff.mp h with ⟨⟨stats, pc'⟩, hfound, rfl⟩
      rcases foundStep_effect _ _ _ _ _ _ hfound with ⟨hstep, hcount⟩
      exact ⟨by rw [hphase]; exact hstep, hcount, hshape, rfl, id⟩
  | case19 args frame e =>
      -- A step of the submission, which gives up only at a raised flag.
      intro h
      rcases Option.map_eq_some_iff.mp h with ⟨frame', hframe, rfl⟩
      refine ⟨by rw [hphase]; exact .pass _ _ rfl, rfl, ⟨hshape.1, fun hcancelled => ?_⟩, rfl, id⟩
      have hraised := submitStep_cancelled args _ frame frame' e hframe hcancelled
      simp only [raised, beq_iff_eq, Option.some.injEq] at hraised
      exact hraised
  | case20 args rejection outcome =>
      -- The submission returned.
      intro heq
      cases heq
      refine resolved_effect s it args _ outcome hpc fun hcancelled => hshape.2 ?_
      rw [hcancelled]
  | case22 args exn =>
      -- The submission threw.
      intro heq
      cases heq
      have hstep : PhaseStep s.shutdown (phase s.pc) .advance .failed := by
        rw [hphase]
        exact .fail _ _ rfl (Or.inr (Or.inr rfl))
      cases exn with
      | rpcCancelled => exact throw_effect s .advance .rpcCancelled hstep rfl
      | runtimeError what => exact throw_effect s .advance (.other what) hstep rfl
  | case21 | case23 =>
      intro h
      exact absurd h (by simp only [reduceCtorEq, not_false_eq_true])

theorem fetched_effect (s : LoopState) (work : CurrentWork) (hpc : s.pc = .fetching) :
    LoopEffect s (s.fetched work) (.fetched work) := by
  have hphase : phase s.pc = .fetching := by rw [hpc]; rfl
  fun_cases LoopState.fetched s work with
  | case1 =>
      exact throw_effect s _ _ (by rw [hphase]; exact .fetch _ _ rfl (Or.inr (Or.inr rfl))) rfl
  | case2 => exact ⟨by rw [hphase]; exact .fetch _ _ rfl (Or.inl rfl), rfl, trivial, rfl, id⟩
  | case3 =>
      exact ⟨by rw [hphase]; exact .fetch _ _ rfl (Or.inr (Or.inl rfl)), rfl, trivial, rfl, id⟩

/-- After the loop over the candidates, the template is left whether it was
    settled or not. -/
theorem testPhase_leave (shutdown : Bool) (it : Iteration) :
    PhaseStep shutdown (testPhase it) .advance .outside := by
  rw [testPhase]
  by_cases h : it.refreshTemplate = true
  · rw [if_pos h]
    exact .leave _ _ rfl (Or.inr (Or.inl rfl))
  · rw [if_neg h]
    exact .leave _ _ rfl (Or.inl rfl)

theorem threadStep_effect (s s' : LoopState) (e : LoopEvent) (hshape : Shape s)
    (h : threadStep s e = some s') : LoopEffect s s' e := by
  revert h
  fun_cases threadStep s e with
  | case1 hpc =>
      intro heq
      cases heq
      exact ⟨by rw [hpc]; exact .enter _ rfl, rfl, trivial, rfl, id⟩
  | case2 hpc | case8 hpc | case11 hpc | case13 _ _ hpc | case14 hpc | case17 _ hpc
  | case18 hpc | case19 hpc =>
      intro heq
      cases heq
      exact ⟨by rw [hpc]; exact .pass _ _ rfl, rfl, trivial, rfl, id⟩
  | case3 work hpc =>
      intro heq
      cases heq
      exact fetched_effect s work hpc
  | case4 exn hpc =>
      -- The fetch threw.
      intro heq
      cases heq
      refine throw_effect s (.threw exn) exn ?_ rfl
      rw [hpc]
      exact .fail _ _ rfl (Or.inl rfl)
  | case5 it pc _ hpc =>
      intro h
      rw [Shape, hpc] at hshape
      exact innerStep_effect s s' it pc e hpc hshape h
  | case6 it hpc hlast =>
      -- The candidates ran out with the watcher still running.
      intro heq
      cases heq
      simp only [Bool.and_eq_true, Bool.not_eq_true'] at hlast
      have htest : phase s.pc = .mining := by
        rw [hpc, phase, testPhase, hlast.1.2]
        rfl
      exact ⟨by rw [htest]; exact .pass _ _ rfl, rfl, trivial, rfl, id⟩
  | case7 it hpc =>
      intro heq
      cases heq
      exact ⟨by rw [hpc]; exact testPhase_leave _ it, rfl, trivial, rfl, id⟩
  | case9 status hpc =>
      -- The exhausted extranonce space is reported by an exception.
      intro heq
      cases heq
      refine throw_effect s (.joined status) _ ?_ rfl
      rw [hpc]
      exact .finish _ _ rfl (Or.inr rfl)
  | case10 hpc | case12 _ _ hpc | case15 hpc | case16 _ hpc =>
      -- The handlers and the pause lead out of the turn.
      intro heq
      cases heq
      exact ⟨by rw [hpc]; exact .leave _ _ rfl (Or.inr (Or.inr rfl)), rfl, trivial, rfl, id⟩
  | case20 =>
      intro h
      exact absurd h (by simp only [reduceCtorEq, not_false_eq_true])

theorem loopStep_effect (s s' : LoopState) (e : LoopEvent) (hshape : Shape s)
    (h : loopStep s e = some s') : LoopEffect s s' e := by
  revert h
  fun_cases loopStep s e with
  | case1 =>
      -- Raising the flag moves no one, and every position tolerates it.
      intro heq
      cases heq
      refine ⟨.pass _ _ rfl, rfl, ?_, rfl, fun _ => rfl⟩
      rw [Shape] at hshape ⊢
      cases hpc : s.pc with
      | inner it pc =>
          simp only [hpc] at hshape ⊢
          cases pc with
          | submitting args frame => exact ⟨hshape.1, fun _ => rfl⟩
          | _ => exact hshape
      | _ => trivial
  | case2 =>
      intro h
      exact threadStep_effect s s' e hshape h

end MercaMiner
