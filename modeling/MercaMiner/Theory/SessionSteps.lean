import MercaMiner.Basis.Ranking
import MercaMiner.Core.Session
import MercaMiner.Theory.LongpollCoherence
import MercaMiner.Theory.LoopAccounting

/-!
# The Steps of a Session

What a step of a session can be, and what the mining loop notices of it.

A step of one of the components leaves the loop where it is, and a step of the
loop is one of the loop's own machine, with an event the components have
ready. So every session is a run of the mining loop, and whatever holds of all
runs of the loop, where the results of its calls are arbitrary, holds of
sessions.

## Main definitions

* `SessionEffect`: Everything a step can do.
* `ThreadFrame`: What the loop's own thread leaves alone.

## Theorems

* `sessionStep_effect`: The inversion of a step.
* `offer_frame`, `offer_mined`: What an event does to the components.
* `sessionStep_loop`, `session_run_loop`: A session is a run of the loop.
* `threadStep_frame`, `sessionStep_raised`, `session_stopped`: Who raises the
  flag, and what returns because of it.
-/

namespace MercaMiner

open Transition

/-- What a step does. -/
inductive SessionEffect (setup : SessionSetup) (s : Session) : SessionAction → Session → Prop
  | raised (h : s.loop.shutdown = false) :
      SessionEffect setup s .raiseShutdown { s with loop := { s.loop with shutdown := true } }
  | watched (call : LongpollCall) (w : OwnedWatcher) (v : Watcher) (hw : s.watcher = some w)
      (h : runStep w.watcher call = some v) :
      SessionEffect setup s (.watcher call) { s with watcher := some { w with watcher := v } }
  | worked (a : SessionAction) (b : MineAction) (c : MineContext) (m m' : MineState)
      (w : OwnedWatcher) (hab : (∃ i, a = .worker i ∧ b = .worker i) ∨ a = .joinWorkers ∧ b = .main)
      (hmine : s.mine = some (c, m)) (hw : s.watcher = some w)
      (h : mineStep c (m.withFlags w.watcher s.loop.shutdown) b = some m') :
      SessionEffect setup s a { s with mine := some (c, m') }
  | fetched (r : RpcReply) (f : FetchPc) (hpc : s.loop.pc = .fetching)
      (h : fetchStep setup.network s.fetch r = some f) :
      SessionEffect setup s (.fetchReply r) { s with fetch := f }
  | called (it : Iteration) (m : MiningCandidate) (w : OwnedWatcher)
      (entered : MineContext × MineState) (hpc : s.loop.pc = .inner it (.mining m))
      (hmine : s.mine = none) (hw : s.watcher = some w)
      (h : mineStart setup.hashV1 m.candidate it.work.blockTemplate.target
        (s.mineArguments setup it w.watcher) = .ok entered) :
      SessionEffect setup s .callMine { s with mine := some entered }
  | refused (it : Iteration) (m : MiningCandidate) (w : OwnedWatcher) (e : MineError)
      (loop : LoopState) (hpc : s.loop.pc = .inner it (.mining m)) (hmine : s.mine = none)
      (hw : s.watcher = some w)
      (h : mineStart setup.hashV1 m.candidate it.work.blockTemplate.target
        (s.mineArguments setup it w.watcher) = .error e)
      (hloop : threadStep s.loop (.threw (.other e.what)) = some loop) :
      SessionEffect setup s .callMine { s with loop := loop }
  | joined (w : OwnedWatcher) (destroying : Bool) (hw : s.watcher = some w)
      (howner : w.owner = .joining destroying)
      (hreturned : w.joinable = true → w.watcher.pc = .returned) :
      SessionEffect setup s .joinWatcher { s with
        watcher := if destroying then none
          else some { w with joinable := false, owner := .loadStatus } }
  | destroyed (w : OwnedWatcher) (hw : s.watcher = some w) (hout : s.loop.pc.inTurn = false)
      (hidle : w.owner = .idle) :
      SessionEffect setup s .destroyWatcher { s with
        watcher := some { w with watcher := w.watcher.requestCancel, owner := .joining true } }
  | looped (e : LoopEvent) (t : Session) (loop : LoopState) (hoffer : s.offer e = some t)
      (hloop : threadStep s.loop e = some loop) :
      SessionEffect setup s (.loop e) (t.afterLoop e loop)

section

variable (setup : SessionSetup) (s s' : Session)

theorem mineMove_effect (a : SessionAction) (b : MineAction)
    (hab : (∃ i, a = .worker i ∧ b = .worker i) ∨ a = .joinWorkers ∧ b = .main)
    (h : s.mineMove b = some s') : SessionEffect setup s a s' := by
  unfold Session.mineMove at h
  simp only [Option.bind_eq_bind, Option.bind_eq_some_iff] at h
  rcases h with ⟨⟨c, m⟩, hmine, w, hw, m', hstep, heq⟩
  rw [Option.some.injEq] at heq
  rw [← heq]
  exact .worked a b c m m' w hab hmine hw hstep

theorem callMine_effect (h : s.callMine setup = some s') :
    SessionEffect setup s .callMine s' := by
  revert h
  fun_cases Session.callMine s setup with
  | case1 it m w hw hmine hpc entered hentered =>
      intro heq
      cases heq
      exact .called it m w entered hpc hmine hw hentered
  | case2 it m w hw hmine hpc e he =>
      intro h
      rcases Option.map_eq_some_iff.mp h with ⟨loop, hloop, rfl⟩
      exact .refused it m w e loop hpc hmine hw he hloop
  | case3 =>
      intro h
      exact absurd h (by simp only [reduceCtorEq, not_false_eq_true])

theorem joinWatcher_effect (h : s.joinWatcher = some s') :
    SessionEffect setup s .joinWatcher s' := by
  unfold Session.joinWatcher at h
  simp only [Option.bind_eq_bind, Option.bind_eq_some_iff] at h
  rcases h with ⟨w, hw, h⟩
  cases howner : w.owner with
  | joining destroying =>
      simp only [howner, Option.bind_eq_some_iff] at h
      rcases h with ⟨w', hstep, heq⟩
      rw [Option.some.injEq] at heq
      rcases ownerStep_eq_some w w' hstep with ⟨d, hd, hreturned, rfl⟩ | ⟨hload, _⟩
      · rw [howner, OwnerPc.joining.injEq] at hd
        subst hd
        rw [← heq]
        have heffect : SessionEffect setup s .joinWatcher _ :=
          .joined w destroying hw howner hreturned
        cases destroying with
        | true | false => exact heffect
      · exact absurd (howner.symm.trans hload) (by simp only [reduceCtorEq, not_false_eq_true])
  | _ => exact absurd h (by simp only [howner, reduceCtorEq, not_false_eq_true])

theorem destroyWatcher_effect (h : s.destroyWatcher = some s') :
    SessionEffect setup s .destroyWatcher s' := by
  unfold Session.destroyWatcher at h
  simp only [Option.bind_eq_bind, Option.bind_eq_some_iff] at h
  rcases h with ⟨w, hw, h⟩
  by_cases hin : s.loop.pc.inTurn = true
  · exact absurd h (by simp only [if_pos hin, reduceCtorEq, not_false_eq_true])
  simp only [if_neg hin, Option.bind_eq_some_iff] at h
  rcases h with ⟨w', hbegin, heq⟩
  rcases beginCancel_eq_some w w' true hbegin with ⟨hidle, rfl⟩
  rw [Option.some.injEq] at heq
  rw [← heq]
  exact .destroyed w hw (Bool.not_eq_true _ ▸ hin) hidle

theorem loopMove_effect (e : LoopEvent) (h : s.loopMove e = some s') :
    SessionEffect setup s (.loop e) s' := by
  unfold Session.loopMove at h
  simp only [Option.bind_eq_bind, Option.bind_eq_some_iff, Option.some.injEq] at h
  rcases h with ⟨t, hoffer, loop, hloop, rfl⟩
  exact .looped e t loop hoffer hloop

theorem sessionStep_effect (a : SessionAction) (h : sessionStep setup s a = some s') :
    SessionEffect setup s a s' := by
  cases a with
  | raiseShutdown =>
      simp only [sessionStep] at h
      by_cases hshutdown : s.loop.shutdown = true
      · exact absurd h (by simp only [if_pos hshutdown, reduceCtorEq, not_false_eq_true])
      · rw [if_neg hshutdown, Option.some.injEq] at h
        rw [← h]
        exact .raised (Bool.not_eq_true _ ▸ hshutdown)
  | watcher call =>
      simp only [sessionStep, ownedStep, Option.bind_eq_bind, Option.bind_eq_some_iff,
        Option.map_eq_some_iff, Option.some.injEq] at h
      rcases h with ⟨w, hw, w', ⟨v, hv, rfl⟩, rfl⟩
      exact .watched call w v hw hv
  | worker i => exact mineMove_effect setup s s' _ (.worker i) (Or.inl ⟨i, rfl, rfl⟩) h
  | joinWorkers => exact mineMove_effect setup s s' _ .main (Or.inr ⟨rfl, rfl⟩) h
  | fetchReply r =>
      simp only [sessionStep] at h
      by_cases hpc : s.loop.pc = .fetching
      · rw [if_pos hpc] at h
        rcases Option.map_eq_some_iff.mp h with ⟨f, hf, rfl⟩
        exact .fetched r f hpc hf
      · exact absurd h (by simp only [if_neg hpc, reduceCtorEq, not_false_eq_true])
  | callMine => exact callMine_effect setup s s' h
  | joinWatcher => exact joinWatcher_effect setup s s' h
  | destroyWatcher => exact destroyWatcher_effect setup s s' h
  | loop e => exact loopMove_effect setup s s' e h

end

/-- The result of a call of `Mine` is that of its calling thread. -/
theorem offer_mined (s t : Session) (status : ScanStatus) (candidate : BlockCandidate)
    (h : s.offer (.mined status candidate) = some t) :
    ∃ c m result, s.mine = some (c, m) ∧ m.main = .returned result candidate ∧
      result.status = status ∧ t = { s with
        mine := none
        completedHashes := m.shared.liveHashes.getD s.completedHashes
        hashed := s.hashed + (m.workers.map fun w => w.hashed.length).sum } := by
  change s.mineEnd status candidate = some t at h
  simp only [Session.mineEnd, Option.bind_eq_bind, Option.bind_eq_some_iff] at h
  rcases h with ⟨⟨c, m⟩, hmine, ⟨result, after⟩, hreturned, h⟩
  by_cases hsame : result.status = status ∧ after = candidate
  · rw [if_pos hsame, Option.some.injEq] at h
    rw [MineState.returned_eq, hsame.2] at hreturned
    exact ⟨c, m, result, hmine, hreturned, hsame.1, h.symm⟩
  · exact absurd h (by simp only [if_neg hsame, reduceCtorEq, not_false_eq_true])

/-- Joining through `Finish` ends with the status the watcher published. -/
theorem offer_joined (s t : Session) (status : LongpollStatus)
    (h : s.offer (.joined status) = some t) :
    ∃ w, s.watcher = some w ∧ w.owner = .loadStatus ∧ w.watcher.status = status ∧
      t = { s with watcher := some { w with
        finished := w.finished ++ [w.watcher.status], owner := .idle } } := by
  change s.finishEnd status = some t at h
  simp only [Session.finishEnd, Option.bind_eq_bind, Option.bind_eq_some_iff] at h
  rcases h with ⟨w, hw, h⟩
  by_cases hready : w.owner = .loadStatus ∧ w.watcher.status = status
  · simp only [if_pos hready, Option.bind_eq_some_iff, Option.some.injEq] at h
    rcases h with ⟨w', hstep, rfl⟩
    rcases ownerStep_eq_some w w' hstep with ⟨d, hd, _⟩ | ⟨_, rfl⟩
    · exact absurd (hready.1.symm.trans hd) (by simp only [reduceCtorEq, not_false_eq_true])
    · exact ⟨w, hw, hready.1, hready.2, rfl⟩
  · exact absurd h (by simp only [if_neg hready, reduceCtorEq, not_false_eq_true])

theorem offer_requestCancel (s t : Session) (h : s.offer .requestCancel = some t) :
    ∃ w, s.watcher = some w ∧ w.owner = .idle ∧
      t = { s with watcher := some { w with
        watcher := w.watcher.requestCancel, owner := .joining false } } := by
  change (s.watcher.bind fun w => (w.beginCancel false).bind fun w =>
    some { s with watcher := some w }) = some t at h
  simp only [Option.bind_eq_some_iff, Option.some.injEq] at h
  rcases h with ⟨w, hw, w', hbegin, rfl⟩
  rcases beginCancel_eq_some w w' false hbegin with ⟨hidle, rfl⟩
  exact ⟨w, hw, hidle, rfl⟩

theorem readFlag_eq_some (s t : Session) (flag : WatcherFlag) (b : Bool)
    (h : s.readFlag flag b = some t) :
    ∃ w, s.watcher = some w ∧ w.watcher.flag flag = b ∧ t = s := by
  simp only [Session.readFlag, Option.bind_eq_bind, Option.bind_eq_some_iff] at h
  rcases h with ⟨w, hw, h⟩
  by_cases hflag : w.watcher.flag flag = b
  · rw [if_pos hflag, Option.some.injEq] at h
    exact ⟨w, hw, hflag, h.symm⟩
  · exact absurd h (by simp only [if_neg hflag, reduceCtorEq, not_false_eq_true])

/-- The events of a fetch are those it ended with. -/
theorem offer_fetched (s t : Session) (work : CurrentWork)
    (h : s.offer (.fetched work) = some t) :
    s.fetch = .returned work ∧ t = { s with fetch := .callInfo } := by
  change (if s.fetch = .returned work then some { s with fetch := .callInfo } else none) = some t
    at h
  by_cases hfetch : s.fetch = .returned work
  · rw [if_pos hfetch, Option.some.injEq] at h
    exact ⟨hfetch, h.symm⟩
  · exact absurd h (by simp only [if_neg hfetch, reduceCtorEq, not_false_eq_true])

theorem offer_threw (s t : Session) (e : LoopException) (h : s.offer (.threw e) = some t) :
    s.fetch = .threw e ∧ t = { s with fetch := .callInfo } := by
  change (if s.fetch = .threw e then some { s with fetch := .callInfo } else none) = some t at h
  by_cases hfetch : s.fetch = .threw e
  · rw [if_pos hfetch, Option.some.injEq] at h
    exact ⟨hfetch, h.symm⟩
  · exact absurd h (by simp only [if_neg hfetch, reduceCtorEq, not_false_eq_true])

theorem offer_advance (s t : Session) (h : s.offer .advance = some t) :
    t = s ∧ (s.watcher.isSome = true → s.loop.pc.inTurn = true) := by
  change (if (s.watcher.isSome && !s.loop.pc.inTurn) = true then none else some s) = some t at h
  by_cases hwait : (s.watcher.isSome && !s.loop.pc.inTurn) = true
  · exact absurd h (by simp only [if_pos hwait, reduceCtorEq, not_false_eq_true])
  · rw [if_neg hwait, Option.some.injEq] at h
    refine ⟨h.symm, fun hsome => ?_⟩
    simp only [hsome, Bool.true_and, Bool.not_eq_true', Bool.not_eq_false] at hwait
    exact hwait

/-- An event of the loop changes neither the loop nor, unless it ends a call,
    the calls. -/
theorem offer_frame (s t : Session) (e : LoopEvent) (h : s.offer e = some t) :
    t.loop = s.loop ∧ (t.fetch = s.fetch ∨ t.fetch = .callInfo) ∧
      ((∀ status candidate, e ≠ .mined status candidate) →
        t.mine = s.mine ∧ t.completedHashes = s.completedHashes ∧ t.hashed = s.hashed) := by
  cases e with
  | advance =>
      rcases offer_advance s t h with ⟨rfl, _⟩
      exact ⟨rfl, Or.inl rfl, fun _ => ⟨rfl, rfl, rfl⟩⟩
  | raiseShutdown =>
      exact absurd h (Option.some_ne_none t).symm
  | fetched work =>
      rcases offer_fetched s t work h with ⟨_, rfl⟩
      exact ⟨rfl, Or.inr rfl, fun _ => ⟨rfl, rfl, rfl⟩⟩
  | threw e =>
      rcases offer_threw s t e h with ⟨_, rfl⟩
      exact ⟨rfl, Or.inr rfl, fun _ => ⟨rfl, rfl, rfl⟩⟩
  | mined status candidate =>
      rcases offer_mined s t status candidate h with ⟨_, _, _, _, _, _, rfl⟩
      exact ⟨rfl, Or.inl rfl, fun hne => absurd rfl (hne status candidate)⟩
  | requestCancel =>
      rcases offer_requestCancel s t h with ⟨_, _, _, rfl⟩
      exact ⟨rfl, Or.inl rfl, fun _ => ⟨rfl, rfl, rfl⟩⟩
  | joined status =>
      rcases offer_joined s t status h with ⟨_, _, _, _, rfl⟩
      exact ⟨rfl, Or.inl rfl, fun _ => ⟨rfl, rfl, rfl⟩⟩
  | refreshRequested b | oldWorkInvalidated b =>
      rcases readFlag_eq_some s t _ b h with ⟨_, _, _, rfl⟩
      exact ⟨rfl, Or.inl rfl, fun _ => ⟨rfl, rfl, rfl⟩⟩
  | nextCandidate _ | callSubmit | submitting _ | submitted _ =>
      have hsame : s = t := Option.some.inj h
      rw [hsame]
      exact ⟨rfl, Or.inl rfl, fun _ => ⟨rfl, rfl, rfl⟩⟩

/-- Only a turn that was entered constructs a watcher. -/
theorem afterLoop_cases (t : Session) (e : LoopEvent) (loop : LoopState) :
    t.afterLoop e loop = { t with loop := loop } ∨
      ∃ work it pc, e = .fetched work ∧ loop.pc = .inner it pc ∧
        t.afterLoop e loop = { t with
          loop := loop
          watcher := some (OwnedWatcher.start work.blockTemplate.previousBlockHash) } := by
  fun_cases Session.afterLoop t e loop with
  | case1 work it pc hpc => exact Or.inr ⟨work, it, pc, rfl, hpc, rfl⟩
  | case2 => exact Or.inl rfl

theorem afterLoop_loop (t : Session) (e : LoopEvent) (loop : LoopState) :
    (t.afterLoop e loop).loop = loop := by
  rcases afterLoop_cases t e loop with h | ⟨_, _, _, _, _, h⟩
  · rw [h]
  · rw [h]

/-- The loop's own step is a step of its machine. -/
theorem loopStep_of_threadStep (s s' : LoopState) (e : LoopEvent)
    (h : threadStep s e = some s') : loopStep s e = some s' := by
  cases e with
  | raiseShutdown =>
      -- No position reads this event, so a step of a thread cannot have it.
      revert h
      unfold threadStep
      cases s.pc with
      | inner it pc =>
          cases pc with
          | found _ pc =>
              cases pc with
              | decided d => cases d <;> exact fun h => absurd h (by simp only [innerStep,
                  foundStep, Option.map_none, reduceCtorEq, not_false_eq_true])
              | _ => exact fun h => absurd h (by simp only [innerStep, foundStep,
                  Option.map_none, reduceCtorEq, not_false_eq_true])
          | _ => exact fun h => absurd h (by simp only [innerStep, reduceCtorEq,
              not_false_eq_true])
      | _ => exact fun h => absurd h (by simp only [reduceCtorEq, not_false_eq_true])
  | _ => exact h

/-- What the loop notices of a step of the session. -/
theorem sessionStep_loop (setup : SessionSetup) (s s' : Session) (a : SessionAction)
    (h : sessionStep setup s a = some s') :
    s'.loop = s.loop ∨ ∃ e, loopStep s.loop e = some s'.loop := by
  cases sessionStep_effect setup s s' a h with
  | raised _ => exact Or.inr ⟨.raiseShutdown, rfl⟩
  | watched _ _ _ _ _ | worked _ _ _ _ _ _ _ _ _ | fetched _ _ _ _ | called _ _ _ _ _ _ _
  | joined _ _ _ _ _ | destroyed _ _ _ _ => exact Or.inl rfl
  | refused _ _ _ _ loop _ _ _ _ hloop =>
      exact Or.inr ⟨_, loopStep_of_threadStep _ _ _ hloop⟩
  | looped e t loop _ hloop =>
      refine Or.inr ⟨e, ?_⟩
      rw [afterLoop_loop]
      exact loopStep_of_threadStep _ _ _ hloop

/-- The positions inside the loop. -/
def LoopPc.running : LoopPc → Bool
  | .exited _ => false
  | _ => true

/-- What the loop's own thread leaves alone: the script, the flag, and the way
    out that is for a raised flag. -/
structure ThreadFrame (s s' : LoopState) : Prop where
  script : s'.payoutScript = s.payoutScript
  shutdown : s'.shutdown = s.shutdown
  stopped : s'.pc = .exited .shutdownComplete → s.shutdown = true

theorem threadFrame_running (s s' : LoopState) (hscript : s'.payoutScript = s.payoutScript)
    (hshutdown : s'.shutdown = s.shutdown) (hrunning : s'.pc.running = true) :
    ThreadFrame s s' := by
  refine ⟨hscript, hshutdown, fun hpc => ?_⟩
  rw [hpc] at hrunning
  exact absurd hrunning Bool.false_ne_true

theorem throw_frame (s : LoopState) (exn : LoopException) : ThreadFrame s (s.throw exn) := by
  cases exn with
  | rpcCancelled | rpc _ | other _ => exact threadFrame_running s _ rfl rfl rfl

theorem innerStep_frame (s s' : LoopState) (it : Iteration) (pc : InnerPc) (e : LoopEvent)
    (h : innerStep s it pc e = some s') : ThreadFrame s s' := by
  revert h
  fun_cases innerStep s it pc e with
  | case3 outOfMemory =>
      intro heq
      cases heq
      fun_cases LoopState.candidateBuilt s it (it.job.nextCandidate outOfMemory) with
      | case1 | case2 => exact threadFrame_running s _ rfl rfl rfl
  | case4 _ status =>
      intro heq
      cases heq
      cases status with
      | found | exhausted | cancelled => exact threadFrame_running s _ rfl rfl rfl
  | case5 _ exn =>
      intro heq
      cases heq
      exact throw_frame s exn
  | case9 site =>
      intro heq
      cases heq
      cases site with
      | cancelled | exhausted => exact threadFrame_running s _ rfl rfl rfl
  | case18 | case19 =>
      intro h
      rcases Option.map_eq_some_iff.mp h with ⟨_, _, rfl⟩
      exact threadFrame_running s _ rfl rfl rfl
  | case20 _ _ outcome =>
      intro heq
      cases heq
      cases outcome with
      | accepted | rejected | notCurrentTip | cancelled =>
          exact threadFrame_running s _ rfl rfl rfl
  | case22 _ exn =>
      intro heq
      cases heq
      cases exn with
      | rpcCancelled | runtimeError _ => exact threadFrame_running s _ rfl rfl rfl
  | case21 | case23 =>
      intro h
      exact absurd h (by simp only [reduceCtorEq, not_false_eq_true])
  | _ =>
      intro heq
      cases heq
      exact threadFrame_running s _ rfl rfl rfl

theorem threadStep_frame (s s' : LoopState) (e : LoopEvent) (h : threadStep s e = some s') :
    ThreadFrame s s' := by
  revert h
  fun_cases threadStep s e with
  | case3 work =>
      intro heq
      cases heq
      fun_cases LoopState.fetched s work with
      | case1 => exact throw_frame s _
      | case2 | case3 => exact threadFrame_running s _ rfl rfl rfl
  | case4 | case9 =>
      intro heq
      cases heq
      exact throw_frame s _
  | case5 it pc => exact innerStep_frame s s' it pc e
  | case18 _ hshutdown =>
      -- The return that a raised flag leads to.
      intro heq
      cases heq
      exact ⟨rfl, rfl, fun _ => hshutdown⟩
  | case19 =>
      intro heq
      cases heq
      refine ⟨rfl, rfl, fun h => ?_⟩
      exact absurd h (by simp only [LoopState.goto, LoopPc.exited.injEq, reduceCtorEq,
        not_false_eq_true])
  | case20 =>
      intro h
      exact absurd h (by simp only [reduceCtorEq, not_false_eq_true])
  | _ =>
      intro heq
      cases heq
      exact threadFrame_running s _ rfl rfl rfl

/-- The loop returns for a raised flag only when it is. -/
theorem loopStep_stopped (s s' : LoopState) (e : LoopEvent) (h : loopStep s e = some s') :
    s'.pc = .exited .shutdownComplete → s'.shutdown = true := by
  revert h
  fun_cases loopStep s e with
  | case1 =>
      intro heq
      cases heq
      exact fun _ => rfl
  | case2 =>
      intro h hpc
      have hframe := threadStep_frame s s' e h
      rw [hframe.shutdown]
      exact hframe.stopped hpc

/-- Only the monitor raises the flag. -/
theorem sessionStep_raised (setup : SessionSetup) (s s' : Session) (a : SessionAction)
    (h : sessionStep setup s a = some s') (hraised : s'.loop.shutdown = true) :
    s.loop.shutdown = true ∨ a = .raiseShutdown := by
  cases sessionStep_effect setup s s' a h with
  | raised _ => exact Or.inr rfl
  | watched _ _ _ _ _ | worked _ _ _ _ _ _ _ _ _ | fetched _ _ _ _ | called _ _ _ _ _ _ _
  | joined _ _ _ _ _ | destroyed _ _ _ _ => exact Or.inl hraised
  | refused _ _ _ _ loop _ _ _ _ hloop =>
      rw [← (threadStep_frame _ _ _ hloop).shutdown]
      exact Or.inl hraised
  | looped e t loop _ hloop =>
      rw [afterLoop_loop, (threadStep_frame _ _ _ hloop).shutdown] at hraised
      exact Or.inl hraised

/-- Every session is a run of the mining loop. -/
theorem session_run_loop (setup : SessionSetup) (s t : Session) (acts : List SessionAction)
    (h : run (sessionStep setup) s acts = some t) :
    ∃ events, run loopStep s.loop events = some t.loop :=
  run_project (sessionStep setup) loopStep Session.loop
    (fun s a s' => sessionStep_loop setup s s' a) s t acts h

theorem session_stopped (setup : SessionSetup) (blockLimit : UInt64) (payoutScript : Bytes)
    (acts : List SessionAction) (s : Session)
    (h : run (sessionStep setup) (sessionStart blockLimit payoutScript) acts = some s) :
    s.loop.pc = .exited .shutdownComplete → s.loop.shutdown = true := by
  rcases session_run_loop setup _ s acts h with ⟨events, hevents⟩
  exact run_invariant loopStep (fun t => t.pc = .exited .shutdownComplete → t.shutdown = true)
    (fun t e t' _ hstep => loopStep_stopped t t' e hstep) _
    (fun hpc => absurd hpc (by simp only [sessionStart, loopStart, reduceCtorEq,
      not_false_eq_true])) events s.loop hevents

end MercaMiner
