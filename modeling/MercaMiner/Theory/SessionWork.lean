import MercaMiner.Theory.BlockForm
import MercaMiner.Theory.JobUniqueness
import MercaMiner.Theory.MineOutcome
import MercaMiner.Theory.SessionSteps

/-!
# The Work of a Session

Where the data of a session comes from, in every state it can reach.

The invariant follows a template from the two replies it was parsed from to
the candidate that is submitted. A fetch that returned has parsed and checked
its template; a turn works on a template that builds on the tip, with a job
for the session's script; a candidate that is mined was built from them; the
call of `Mine` is a run of its threads on that candidate; and a candidate that
is decided about or submitted is the built one with a nonce that meets the
target. Outside of the call no thread of it exists.

The counter the workers share is part of it: between calls it holds the number
of all nonces hashed so far.

## Main definitions

* `SoundWork`, `SoundTurn`: What is known of a template and of a turn.
* `Solved`: A candidate with proof of work.
* `CallRuns`: A running call of `Mine`.
* `WorkOk`: The invariant.

## Theorems

* `innerStep_work`, `threadStep_work`: The loop's steps keep it.
* `session_workOk`: It holds in every session.
-/

namespace MercaMiner

open Outcome Tiling Transition

/-- The replies behind a fetched template. -/
structure SoundWork (network : NetworkIdentity) (work : CurrentWork) : Prop where
  parsed : ∃ value, parseBlockTemplate value = .ok work.blockTemplate
  target : validateProofOfWorkTarget network work.blockTemplate.target = .ok ()
  blockchain : ∃ value info, parseBlockchainInfo value = .ok info ∧
    work.blocks = info.blocks ∧ work.bestBlockHash = info.bestBlockHash

/-- A turn that reached its candidates. -/
structure SoundTurn (network : NetworkIdentity) (payoutScript : Bytes) (it : Iteration) : Prop
    extends SoundWork network it.work where
  tip : templateMatchesTip it.work = true
  jobTemplate : it.job.blockTemplate = it.work.blockTemplate
  jobScript : it.job.payoutScript = payoutScript

/-- A block built from the template that was given a nonce with which its
    header meets the target. -/
def Solved (hashV1 : Bytes → UInt256) (t : BlockTemplate) (payoutScript : Bytes)
    (candidate : BlockCandidate) : Prop :=
  ∃ extranonce base nonce,
    buildBlockCandidate t payoutScript (encodeExtranonce64 extranonce) = .ok base ∧
    candidate = applySolvedNonce base nonce ∧
    t.nonceMin.toNat ≤ nonce.toNat ∧ nonce.toNat ≤ t.nonceMax.toNat ∧
    meetsTarget (hashV1 (headerBytes base.header nonce)) t.target = true

/-- A call of `Mine` with the given arguments is running, on a candidate and
    with the shared counter at `live` when it was entered. -/
structure CallRuns (setup : SessionSetup) (t : BlockTemplate) (candidate : BlockCandidate)
    (live : UInt64) (args : MineArguments) (c : MineContext) (m : MineState) : Prop where
  nonceBegin : args.nonceBegin = t.nonceMin
  nonceEnd : args.nonceEnd = t.nonceMax
  liveHashes : args.liveHashes = some live
  entered : Entered setup.hashV1 candidate t.target args c
  threads : c.ranges.length ≤ setup.workerCount.toNat
  ok : MineOk c (some live) True m

/-- What is known of the candidate a turn is at. -/
def InnerData (setup : SessionSetup) (payoutScript : Bytes) (it : Iteration) : InnerPc → Prop
  | .mining m => buildBlockCandidate it.work.blockTemplate payoutScript
      (encodeExtranonce64 m.extranonce) = .ok m.candidate
  | .found candidate _ => Solved setup.hashV1 it.work.blockTemplate payoutScript candidate
  | .submitting args _ => ∃ candidate, args = submitArguments it candidate ∧
      Solved setup.hashV1 it.work.blockTemplate payoutScript candidate
  | _ => True

/-- The threads of `Mine` are those of the call the loop is in. -/
def CallOk (setup : SessionSetup) (s : Session) (it : Iteration) : InnerPc → Prop
  | .mining m => ∀ c st, s.mine = some (c, st) → ∃ args,
      CallRuns setup it.work.blockTemplate m.candidate s.completedHashes args c st
  | _ => s.mine = none

def PositionOk (setup : SessionSetup) (s : Session) : Prop :=
  match s.loop.pc with
  | .inner it pc => SoundTurn setup.network s.loop.payoutScript it ∧
      InnerData setup s.loop.payoutScript it pc ∧ CallOk setup s it pc
  | _ => s.mine = none

/-- What a fetch knows. Elsewhere it has not begun. -/
def FetchOk (setup : SessionSetup) (s : Session) : Prop :=
  match s.fetch with
  | .callInfo => True
  | .callTemplate blockchain => s.loop.pc = .fetching ∧
      ∃ value, parseBlockchainInfo value = .ok blockchain
  | .returned work => s.loop.pc = .fetching ∧ SoundWork setup.network work
  | .threw _ => s.loop.pc = .fetching

/-- The invariant of a session's work. -/
structure WorkOk (setup : SessionSetup) (s : Session) : Prop where
  fetch : FetchOk setup s
  position : PositionOk setup s
  counted : s.completedHashes = UInt64.ofNat s.hashed

theorem FetchOk.idle (setup : SessionSetup) (s : Session) (h : FetchOk setup s)
    (hpc : s.loop.pc ≠ .fetching) : s.fetch = .callInfo := by
  rw [FetchOk] at h
  cases hfetch : s.fetch with
  | callInfo => rfl
  | callTemplate _ | returned _ =>
      simp only [hfetch] at h
      exact absurd h.1 hpc
  | threw _ =>
      simp only [hfetch] at h
      exact absurd h hpc

theorem fetchOk_callInfo (setup : SessionSetup) (s : Session) (h : s.fetch = .callInfo) :
    FetchOk setup s := by
  rw [FetchOk, h]
  trivial

theorem callOk_none (setup : SessionSetup) (s : Session) (it : Iteration) (pc : InnerPc)
    (h : s.mine = none) : CallOk setup s it pc := by
  cases pc with
  | mining m =>
      intro c st hmine
      exact absurd (h.symm.trans hmine) (by simp only [reduceCtorEq, not_false_eq_true])
  | _ => exact h

/-- The invariant looks at the position, the script, the fetch, the call and
    the two counts, and at nothing else. -/
theorem workOk_congr (setup : SessionSetup) (s s' : Session) (h : WorkOk setup s)
    (hpc : s'.loop.pc = s.loop.pc) (hscript : s'.loop.payoutScript = s.loop.payoutScript)
    (hfetch : s'.fetch = s.fetch) (hmine : s'.mine = s.mine)
    (hcompleted : s'.completedHashes = s.completedHashes) (hhashed : s'.hashed = s.hashed) :
    WorkOk setup s' := by
  rcases h with ⟨hfetchOk, hposition, hcounted⟩
  refine ⟨?_, ?_, by rw [hcompleted, hhashed, hcounted]⟩
  · rw [FetchOk] at hfetchOk ⊢
    rw [hfetch, hpc]
    exact hfetchOk
  · rw [PositionOk] at hposition ⊢
    rw [hpc]
    cases hold : s.loop.pc with
    | inner it pc =>
        simp only [hold] at hposition ⊢
        rw [hscript]
        refine ⟨hposition.1, hposition.2.1, ?_⟩
        cases pc with
        | mining m =>
            rw [CallOk, hmine, hcompleted]
            exact hposition.2.2
        | _ => exact hmine.trans hposition.2.2
    | _ =>
        simp only [hold] at hposition ⊢
        rw [hmine]
        exact hposition

/-- Where a thread of `Mine` exists, its call was made. -/
theorem WorkOk.call (setup : SessionSetup) (s : Session) (h : WorkOk setup s) (c : MineContext)
    (m : MineState) (hmine : s.mine = some (c, m)) :
    ∃ it candidate args, s.loop.pc = .inner it (.mining candidate) ∧
      SoundTurn setup.network s.loop.payoutScript it ∧
      buildBlockCandidate it.work.blockTemplate s.loop.payoutScript
        (encodeExtranonce64 candidate.extranonce) = .ok candidate.candidate ∧
      CallRuns setup it.work.blockTemplate candidate.candidate s.completedHashes args c m := by
  have hposition := h.position
  rw [PositionOk] at hposition
  have hnot (hnone : s.mine = none) : False :=
    absurd (hnone.symm.trans hmine) (by simp only [reduceCtorEq, not_false_eq_true])
  cases hpc : s.loop.pc with
  | inner it pc =>
      simp only [hpc] at hposition
      rcases hposition with ⟨hturn, hdata, hcall⟩
      cases pc with
      | mining candidate =>
          rcases hcall c m hmine with ⟨args, hruns⟩
          exact ⟨it, candidate, args, rfl, hturn, hdata, hruns⟩
      | _ => exact (hnot hcall).elim
  | _ =>
      simp only [hpc] at hposition
      exact (hnot hposition).elim

theorem SoundTurn.refresh (network : NetworkIdentity) (payoutScript : Bytes) (it : Iteration)
    (h : SoundTurn network payoutScript it) :
    SoundTurn network payoutScript { it with refreshTemplate := true } :=
  ⟨h.toSoundWork, h.tip, h.jobTemplate, h.jobScript⟩

/-- The nonces a running call has hashed fit the counter's step. -/
theorem CallRuns.covered_lt (setup : SessionSetup) (t : BlockTemplate)
    (candidate : BlockCandidate) (live : UInt64) (args : MineArguments) (c : MineContext)
    (m : MineState) (h : CallRuns setup t candidate live args c m) :
    covered (c.ranges.map NonceRange.span) < 2 ^ 64 := by
  have hcovered := tiles_covered _ _ _ h.entered.tiles
  have hend := args.nonceEnd.toNat_lt
  omega

/-- A call that has returned. Its live counter says how many nonces it hashed,
    and what it found is solved. -/
theorem CallRuns.returned (setup : SessionSetup) (t : BlockTemplate) (payoutScript : Bytes)
    (candidate : MiningCandidate) (live : UInt64) (args : MineArguments) (c : MineContext)
    (m : MineState) (result : ParallelMineResult) (after : BlockCandidate)
    (h : CallRuns setup t candidate.candidate live args c m)
    (hbuilt : buildBlockCandidate t payoutScript (encodeExtranonce64 candidate.extranonce)
      = .ok candidate.candidate)
    (hmain : m.main = .returned result after) (hfound : result.status = .found) :
    Solved setup.hashV1 t payoutScript after := by
  have hok : MineOk c args.liveHashes True m := by
    rw [h.liveHashes]
    exact h.ok
  have hmainOk := hok.main
  rw [MainOk, hmain] at hmainOk
  rcases hmainOk with ⟨results, hresults, _, _, hconcluded⟩
  rw [hfound] at hconcluded
  rcases hconcluded with ⟨i, best, _, ⟨hbest, hstatus, _⟩, _, _, hafter⟩
  -- The winner is a worker that found its nonce.
  rcases (results_get m results hresults i best).mp hbest with ⟨w, hw, hdone⟩
  rcases found_sound setup.hashV1 candidate.candidate t.target args c _ m h.entered hok i w best hw
    hdone hstatus with ⟨_, hlow, hhigh, hhash, hmeets⟩
  refine ⟨candidate.extranonce, candidate.candidate, best.nonce, hbuilt, ?_, ?_, ?_, ?_⟩
  · rw [hafter, h.entered.candidate_eq]
  · rw [← h.nonceBegin]
    exact hlow
  · rw [← h.nonceEnd]
    exact hhigh
  · rw [← hhash]
    exact hmeets

/-- The next candidate is built from the template for the session's script,
    and the job stays the same otherwise. -/
theorem nextCandidate_sound (network : NetworkIdentity) (payoutScript : Bytes) (it : Iteration)
    (outOfMemory : Bool) (candidate : MiningCandidate) (job : MiningJob)
    (hturn : SoundTurn network payoutScript it)
    (h : it.job.nextCandidate outOfMemory = (.ok candidate, job)) :
    SoundTurn network payoutScript { it with job := job } ∧
    buildBlockCandidate it.work.blockTemplate payoutScript
      (encodeExtranonce64 candidate.extranonce) = .ok candidate.candidate := by
  rcases nextCandidate_cases it.job outOfMemory with ⟨e, he⟩ | ⟨built, _, hbuilt, hok⟩
  · rw [he] at h
    exact absurd (Prod.mk.inj h).1 (by simp only [reduceCtorEq, not_false_eq_true])
  · rw [hok, Prod.mk.injEq, Except.ok.injEq] at h
    rcases h with ⟨rfl, rfl⟩
    rcases advance_kept it.job with ⟨htemplate, hscript⟩
    rw [hturn.jobTemplate, hturn.jobScript] at hbuilt
    exact ⟨⟨hturn.toSoundWork, hturn.tip, htemplate.trans hturn.jobTemplate,
      hscript.trans hturn.jobScript⟩, hbuilt⟩

/-- Between two calls: no thread of `Mine` exists, no fetch has begun, and the
    counts agree. -/
structure Between (s : Session) : Prop where
  fetch : s.fetch = .callInfo
  mine : s.mine = none
  counted : s.completedHashes = UInt64.ofNat s.hashed

section

variable (setup : SessionSetup) (t : Session)

/-- Outside of the loop over the candidates nothing else is to be known. -/
theorem workOk_outside (hbetween : Between t) (hpc : ∀ it pc, t.loop.pc ≠ .inner it pc) :
    WorkOk setup t := by
  refine ⟨fetchOk_callInfo setup t hbetween.fetch, ?_, hbetween.counted⟩
  rw [PositionOk]
  cases h : t.loop.pc with
  | inner it pc => exact absurd h (hpc it pc)
  | _ => exact hbetween.mine

theorem workOk_inner (hbetween : Between t) (it : Iteration) (pc : InnerPc)
    (hpc : t.loop.pc = .inner it pc) (hturn : SoundTurn setup.network t.loop.payoutScript it)
    (hdata : InnerData setup t.loop.payoutScript it pc) : WorkOk setup t := by
  refine ⟨fetchOk_callInfo setup t hbetween.fetch, ?_, hbetween.counted⟩
  simp only [PositionOk, hpc]
  exact ⟨hturn, hdata, callOk_none setup t it pc hbetween.mine⟩

theorem Between.withLoop (hbetween : Between t) (loop : LoopState) :
    Between { t with loop := loop } :=
  ⟨hbetween.fetch, hbetween.mine, hbetween.counted⟩

/-- A statement of the loop threw, wherever it stood. -/
theorem workOk_throw (hbetween : Between t) (e : LoopException) :
    WorkOk setup { t with loop := t.loop.throw e } := by
  refine workOk_outside setup _ (hbetween.withLoop t _) fun it pc h => ?_
  cases e with
  | rpcCancelled | rpc _ | other _ =>
      exact absurd h (by simp only [LoopState.throw, LoopState.goto, reduceCtorEq,
        not_false_eq_true])

/-- The loop goes on elsewhere, outside of the candidates. -/
theorem workOk_leave (hbetween : Between t) (pc : LoopPc) (hpc : ∀ it p, pc ≠ .inner it p) :
    WorkOk setup { t with loop := t.loop.goto pc } :=
  workOk_outside setup _ (hbetween.withLoop t _) hpc

/-- A move to another position of the same turn. -/
theorem workOk_goto (hbetween : Between t) (it : Iteration) (pc : InnerPc)
    (hturn : SoundTurn setup.network t.loop.payoutScript it)
    (hdata : InnerData setup t.loop.payoutScript it pc) :
    WorkOk setup { t with loop := t.loop.goto (.inner it pc) } :=
  workOk_inner setup _ (hbetween.withLoop t _) it pc rfl hturn hdata

theorem workOk_refresh (hbetween : Between t) (it : Iteration) (stats : RuntimeStats)
    (hturn : SoundTurn setup.network t.loop.payoutScript it) :
    WorkOk setup { t with loop := t.loop.refresh it stats } :=
  workOk_inner setup _ (hbetween.withLoop t _) { it with refreshTemplate := true } .test rfl
    hturn.refresh trivial

/-- The loop's steps in a turn, when a solution that is reported is one. -/
theorem innerStep_work (hbetween : Between t) (it : Iteration) (pc : InnerPc) (e : LoopEvent)
    (loop : LoopState)
    (hturn : SoundTurn setup.network t.loop.payoutScript it)
    (hdata : InnerData setup t.loop.payoutScript it pc)
    (hmined : ∀ candidate, e = .mined .found candidate →
      Solved setup.hashV1 it.work.blockTemplate t.loop.payoutScript candidate)
    (h : innerStep t.loop it pc e = some loop) : WorkOk setup { t with loop := loop } := by
  have hleave (pc : LoopPc) (hpc : ∀ it p, pc ≠ .inner it p) :=
    workOk_leave setup t hbetween pc hpc
  revert h
  fun_cases innerStep t.loop it pc e with
  | case1 | case6 | case7 | case8 | case11 | case13 =>
      intro heq
      cases heq
      exact workOk_goto setup t hbetween it _ hturn trivial
  | case2 | case10 | case15 =>
      intro heq
      cases heq
      exact hleave _ (by simp only [ne_eq, reduceCtorEq, not_false_eq_true, implies_true])
  | case3 outOfMemory =>
      -- The next candidate, built for the session's script.
      intro heq
      cases heq
      cases hnext : it.job.nextCandidate outOfMemory with
      | mk result job =>
          cases result with
          | error err => exact workOk_throw setup t hbetween (.other err.what)
          | ok candidate =>
              rcases nextCandidate_sound setup.network t.loop.payoutScript it outOfMemory candidate
                job hturn hnext with ⟨hturn', hbuilt⟩
              exact workOk_goto setup t hbetween _ _ hturn' hbuilt
  | case4 _ status candidate =>
      intro heq
      cases heq
      cases status with
      | found => exact workOk_goto setup t hbetween it _ hturn (hmined candidate rfl)
      | exhausted | cancelled => exact workOk_goto setup t hbetween it _ hturn trivial
  | case5 =>
      intro heq
      cases heq
      exact workOk_throw setup t hbetween _
  | case9 site =>
      intro heq
      cases heq
      cases site with
      | cancelled | exhausted => exact workOk_goto setup t hbetween it _ hturn trivial
  | case12 | case14 | case16 =>
      intro heq
      cases heq
      exact workOk_refresh setup t hbetween it _ hturn
  | case17 candidate =>
      -- The one place at which a submission begins.
      intro heq
      cases heq
      exact workOk_goto setup t hbetween it _ hturn ⟨candidate, rfl, hdata⟩
  | case18 candidate pc =>
      intro h
      rcases Option.map_eq_some_iff.mp h with ⟨r, _, rfl⟩
      exact workOk_inner setup _ (hbetween.withLoop t _) it _ rfl hturn hdata
  | case19 args frame e =>
      intro h
      rcases Option.map_eq_some_iff.mp h with ⟨frame', _, rfl⟩
      exact workOk_goto setup t hbetween it _ hturn hdata
  | case20 args rejection outcome =>
      intro heq
      cases heq
      cases outcome with
      | cancelled =>
          exact hleave _ (by simp only [ne_eq, reduceCtorEq, not_false_eq_true, implies_true])
      | accepted | rejected | notCurrentTip => exact workOk_refresh setup t hbetween it _ hturn
  | case22 args exn =>
      intro heq
      cases heq
      cases exn with
      | rpcCancelled => exact workOk_throw setup t hbetween .rpcCancelled
      | runtimeError what => exact workOk_throw setup t hbetween (.other what)
  | case21 | case23 =>
      intro h
      exact absurd h (by simp only [reduceCtorEq, not_false_eq_true])

/-- Where no call is made, an event of the loop leaves none behind. -/
theorem between_offer (s : Session) (e : LoopEvent) (hok : WorkOk setup s)
    (hoffer : s.offer e = some t) (hmine : s.mine = none) (hpc : s.loop.pc ≠ .fetching) :
    Between t := by
  rcases offer_frame s t e hoffer with ⟨_, hfetch, hcalls⟩
  have hidle := hok.fetch.idle setup s hpc
  have hkept : ∀ status candidate, e ≠ .mined status candidate := by
    intro status candidate he
    rw [he] at hoffer
    rcases offer_mined s t status candidate hoffer with ⟨_, _, _, hsome, _⟩
    exact absurd (hmine.symm.trans hsome) (by simp only [reduceCtorEq, not_false_eq_true])
  rcases hcalls hkept with ⟨hsame, hcompleted, hhashed⟩
  refine ⟨hfetch.elim (fun h => h.trans hidle) id, hsame.trans hmine, ?_⟩
  rw [hcompleted, hhashed]
  exact hok.counted

/-- `Mine` returned. The shared counter went up by what it hashed. -/
theorem between_mined (s : Session) (it : Iteration) (m : MiningCandidate) (status : ScanStatus)
    (candidate : BlockCandidate) (hok : WorkOk setup s) (hpc : s.loop.pc = .inner it (.mining m))
    (hoffer : s.offer (.mined status candidate) = some t) :
    Between t ∧ (status = .found →
      Solved setup.hashV1 it.work.blockTemplate s.loop.payoutScript candidate) := by
  rcases offer_mined s t status candidate hoffer with ⟨c, st, result, hmine, hmain, hstatus, rfl⟩
  rcases hok.call setup s c st hmine with ⟨it', m', args, hpc', _, hbuilt, hruns⟩
  have hsame := hpc.symm.trans hpc'
  rw [LoopPc.inner.injEq, InnerPc.mining.injEq] at hsame
  rcases hsame with ⟨rfl, rfl⟩
  refine ⟨⟨hok.fetch.idle setup s ?_, rfl, ?_⟩, fun hfound => ?_⟩
  · rw [hpc]
    simp only [ne_eq, reduceCtorEq, not_false_eq_true]
  · -- The invariant of the call relates its counter to what it hashed.
    simp only [hruns.ok.live, Option.map_some, Option.getD_some]
    rw [hok.counted, ← UInt64.ofNat_add]
    rfl
  · exact hruns.returned setup _ s.loop.payoutScript m _ args c st result candidate hbuilt hmain
      (hstatus.trans hfound)

/-- In a turn, an event of the loop leaves no call behind. -/
theorem between_inner (s : Session) (it : Iteration) (pc : InnerPc) (e : LoopEvent)
    (loop : LoopState) (hok : WorkOk setup s) (hpc : s.loop.pc = .inner it pc)
    (hoffer : s.offer e = some t) (h : innerStep s.loop it pc e = some loop) :
    Between t ∧ ∀ candidate, e = .mined .found candidate →
      Solved setup.hashV1 it.work.blockTemplate s.loop.payoutScript candidate := by
  have hne : s.loop.pc ≠ .fetching := by
    rw [hpc]
    simp only [ne_eq, reduceCtorEq, not_false_eq_true]
  have hposition := hok.position
  simp only [PositionOk, hpc] at hposition
  have hother (hmine : s.mine = none) : Between t ∧ ∀ candidate, e = .mined .found candidate →
      Solved setup.hashV1 it.work.blockTemplate s.loop.payoutScript candidate := by
    refine ⟨between_offer setup t s e hok hoffer hmine hne, fun candidate he => ?_⟩
    rw [he] at hoffer
    rcases offer_mined s t _ candidate hoffer with ⟨_, _, _, hsome, _⟩
    exact absurd (hmine.symm.trans hsome) (by simp only [reduceCtorEq, not_false_eq_true])
  cases pc with
  | mining m =>
      -- Only the end of the call is ready here: no fetch has thrown.
      cases e with
      | mined status candidate =>
          rcases between_mined setup t s it m status candidate hok hpc hoffer with
            ⟨hbetween, hsolved⟩
          refine ⟨hbetween, fun found hfound => ?_⟩
          rw [LoopEvent.mined.injEq] at hfound
          rw [← hfound.2]
          exact hsolved hfound.1
      | threw exn =>
          rcases offer_threw s t exn hoffer with ⟨hthrew, _⟩
          exact absurd ((hok.fetch.idle setup s hne).symm.trans hthrew) (by simp only [reduceCtorEq,
            not_false_eq_true])
      | _ => exact absurd h (by simp only [innerStep, reduceCtorEq, not_false_eq_true])
  | _ => exact hother hposition.2.2

/-- The loop uses the template of a fetch that returned. -/
theorem fetched_work (work : CurrentWork) (hbetween : Between t)
    (hwork : SoundWork setup.network work) :
    WorkOk setup { t with loop := t.loop.fetched work } := by
  fun_cases LoopState.fetched t.loop work with
  | case1 => exact workOk_throw setup t hbetween _
  | case2 htip job hjob =>
      refine workOk_goto setup t hbetween ⟨work, job, false⟩ .test ?_ trivial
      unfold MiningJob.create at hjob
      by_cases hscript : t.loop.payoutScript = []
      · exact absurd hjob (by simp only [dif_pos hscript, reduceCtorEq, not_false_eq_true])
      · rw [dif_neg hscript, Except.ok.injEq] at hjob
        rw [← hjob]
        exact ⟨hwork, htip, rfl, rfl⟩
  | case3 =>
      exact workOk_leave setup t hbetween _ (by simp only [ne_eq, reduceCtorEq, not_false_eq_true,
        implies_true])

/-- Every step of the loop keeps the invariant. -/
theorem threadStep_work (s : Session) (e : LoopEvent) (loop : LoopState) (hok : WorkOk setup s)
    (hoffer : s.offer e = some t) (h : threadStep s.loop e = some loop) :
    WorkOk setup { t with loop := loop } := by
  have hloop := (offer_frame s t e hoffer).1
  have hposition := hok.position
  rw [PositionOk] at hposition
  -- Outside of a turn there is no call, and the step leads outside again.
  have houtside (hmine : s.mine = none) (hpc : s.loop.pc ≠ .fetching) (pc : LoopPc)
      (hto : ∀ it p, pc ≠ .inner it p) : WorkOk setup { t with loop := s.loop.goto pc } := by
    rw [← hloop]
    exact workOk_leave setup t (between_offer setup t s e hok hoffer hmine hpc) pc hto
  revert h
  fun_cases threadStep s.loop e with
  | case1 hpc | case2 hpc | case6 _ hpc | case7 _ hpc | case8 hpc | case10 hpc | case11 hpc
  | case12 _ _ hpc | case13 _ _ hpc | case14 hpc | case15 hpc | case16 _ hpc | case17 _ hpc
  | case18 hpc | case19 hpc =>
      intro heq
      cases heq
      simp only [hpc] at hposition
      refine houtside hposition ?_ _ ?_
      · rw [hpc]
        simp only [ne_eq, reduceCtorEq, not_false_eq_true]
      · simp only [ne_eq, reduceCtorEq, not_false_eq_true, implies_true]
  | case3 work hpc =>
      intro heq
      cases heq
      rcases offer_fetched s t work hoffer with ⟨hreturned, rfl⟩
      have hfetch := hok.fetch
      simp only [FetchOk, hreturned] at hfetch
      simp only [hpc] at hposition
      exact fetched_work setup { s with fetch := .callInfo } work ⟨rfl, hposition, hok.counted⟩
        hfetch.2
  | case4 exn hpc =>
      intro heq
      cases heq
      rcases offer_threw s t exn hoffer with ⟨_, rfl⟩
      simp only [hpc] at hposition
      exact workOk_throw setup { s with fetch := .callInfo } ⟨rfl, hposition, hok.counted⟩ exn
  | case5 it pc _ hpc =>
      intro h
      simp only [hpc] at hposition
      rcases between_inner setup t s it pc e loop hok hpc hoffer h with ⟨hbetween, hmined⟩
      rw [← hloop] at h hposition hmined
      exact innerStep_work setup t hbetween it pc e loop hposition.1 hposition.2.1 hmined h
  | case9 status hpc =>
      intro heq
      cases heq
      simp only [hpc] at hposition
      rw [← hloop]
      refine workOk_throw setup t (between_offer setup t s _ hok hoffer hposition ?_) _
      rw [hpc]
      simp only [ne_eq, reduceCtorEq, not_false_eq_true]
  | case20 =>
      intro h
      exact absurd h (by simp only [reduceCtorEq, not_false_eq_true])

/-- Entering `Mine` with the template's range starts a run of its threads. -/
theorem callRuns_start (s : Session) (it : Iteration) (m : MiningCandidate) (w : Watcher)
    (c : MineContext) (m₀ : MineState)
    (h : mineStart setup.hashV1 m.candidate it.work.blockTemplate.target
      (s.mineArguments setup it w) = .ok (c, m₀)) :
    CallRuns setup it.work.blockTemplate m.candidate s.completedHashes
      (s.mineArguments setup it w) c m₀ := by
  rcases mineStart_ok _ _ _ _ c m₀ h with ⟨hentered, hok⟩
  have hthreads : c.ranges.length ≤ setup.workerCount.toNat := by
    simp only [mineStart, bind_ok, pure_ok, Prod.mk.injEq] at h
    rcases h with ⟨_, _, ranges, hranges, rfl, _⟩
    rw [(partitionNonceRange_ok _ _ _ _ hranges).2.2]
    exact Nat.min_le_right _ _
  exact ⟨rfl, rfl, rfl, hentered, hthreads, hok.later c _ _ True m₀ False.elim⟩

/-- The flags a worker reads are stored by others. -/
theorem CallRuns.step (t : BlockTemplate) (candidate : BlockCandidate) (live : UInt64)
    (args : MineArguments) (c : MineContext) (m m' : MineState) (w : Watcher) (shutdown : Bool)
    (b : MineAction) (hruns : CallRuns setup t candidate live args c m)
    (h : mineStep c (m.withFlags w shutdown) b = some m') :
    CallRuns setup t candidate live args c m' :=
  { hruns with
    ok := mineStep_ok c (some live) True hruns.covered_lt (m.withFlags w shutdown) b m'
      (mineOk_store c (some live) True m _ hruns.ok rfl rfl rfl) (fun _ => trivial) h }

/-- A reply to a call of the fetch. -/
theorem fetchStep_ok (s : Session) (r : RpcReply) (f : FetchPc) (hok : FetchOk setup s)
    (hpc : s.loop.pc = .fetching) (h : fetchStep setup.network s.fetch r = some f) :
    FetchOk setup { s with fetch := f } := by
  generalize hcalling : s.fetch = pc at h
  revert h
  fun_cases fetchStep setup.network pc r with
  | case1 blockchain hinfo =>
      intro heq
      cases heq
      simp only [fetchInfo, bind_ok] at hinfo
      rcases hinfo with ⟨value, _, hparse⟩
      exact ⟨hpc, value, (mapError_ok _ _ _).mp hparse⟩
  | case2 | case4 =>
      intro heq
      cases heq
      exact hpc
  | case3 blockchain work hwork =>
      intro heq
      cases heq
      rw [FetchOk, hcalling] at hok
      rcases hok with ⟨_, info, hinfo⟩
      simp only [fetchTemplate, bind_ok, pure_ok] at hwork
      rcases hwork with ⟨value, _, t, hparse, _, htarget, rfl⟩
      exact ⟨hpc, ⟨value, (mapError_ok _ _ _).mp hparse⟩, (mapError_ok _ _ _).mp htarget, info,
        blockchain, hinfo, rfl, rfl⟩
  | case5 =>
      intro h
      exact absurd h (by simp only [reduceCtorEq, not_false_eq_true])

/-- Every step of a session keeps the invariant. -/
theorem sessionStep_work (s s' : Session) (a : SessionAction) (hok : WorkOk setup s)
    (h : sessionStep setup s a = some s') : WorkOk setup s' := by
  cases sessionStep_effect setup s s' a h with
  | raised _ | watched _ _ _ _ _ | joined _ _ _ _ _ | destroyed _ _ _ _ =>
      exact workOk_congr setup s _ hok rfl rfl rfl rfl rfl rfl
  | worked _ b c m m' w _ hmine _ hstep =>
      rcases hok.call setup s c m hmine with ⟨it, candidate, args, hpc, hturn, hbuilt, hruns⟩
      refine ⟨?_, ?_, hok.counted⟩
      · refine fetchOk_callInfo setup _ (hok.fetch.idle setup s ?_)
        rw [hpc]
        simp only [ne_eq, reduceCtorEq, not_false_eq_true]
      · simp only [PositionOk, hpc]
        refine ⟨hturn, hbuilt, fun c' m'' heq => ⟨args, ?_⟩⟩
        rw [Option.some.injEq, Prod.mk.injEq] at heq
        rcases heq with ⟨rfl, rfl⟩
        exact hruns.step setup _ _ _ _ c m m' _ _ b hstep
  | fetched r f hpc hstep =>
      refine ⟨fetchStep_ok setup s r f hok.fetch hpc hstep, ?_, hok.counted⟩
      have hposition := hok.position
      simp only [PositionOk, hpc] at hposition ⊢
      exact hposition
  | called it m w entered hpc _ _ hentered =>
      have hposition := hok.position
      simp only [PositionOk, hpc] at hposition
      refine ⟨?_, ?_, hok.counted⟩
      · refine fetchOk_callInfo setup _ (hok.fetch.idle setup s ?_)
        rw [hpc]
        simp only [ne_eq, reduceCtorEq, not_false_eq_true]
      · simp only [PositionOk, hpc]
        refine ⟨hposition.1, hposition.2.1, fun c m₀ heq => ?_⟩
        rw [Option.some.injEq] at heq
        rw [heq] at hentered
        exact ⟨_, callRuns_start setup s it m w.watcher c m₀ hentered⟩
  | refused it m _ e loop hpc hmine _ _ hloop =>
      have hfetch : s.fetch = .callInfo := hok.fetch.idle setup s (by
        rw [hpc]
        simp only [ne_eq, reduceCtorEq, not_false_eq_true])
      simp only [threadStep, hpc, innerStep, Option.some.injEq] at hloop
      rw [← hloop]
      exact workOk_throw setup s ⟨hfetch, hmine, hok.counted⟩ _
  | looped e t loop hoffer hloop =>
      refine workOk_congr setup { t with loop := loop } _
        (threadStep_work setup t s e loop hok hoffer hloop) ?_ ?_ ?_ ?_ ?_ ?_
      all_goals
        rcases afterLoop_cases t e loop with h | ⟨_, _, _, _, _, h⟩
        · rw [h]
        · rw [h]

/-- The invariant holds in every session. -/
theorem session_workOk (blockLimit : UInt64) (payoutScript : Bytes) (acts : List SessionAction)
    (s : Session)
    (h : run (sessionStep setup) (sessionStart blockLimit payoutScript) acts = some s) :
    WorkOk setup s :=
  run_invariant (sessionStep setup) (WorkOk setup)
    (fun s a s' hok hstep => sessionStep_work setup s s' a hok hstep) _
    (workOk_outside setup _ ⟨rfl, rfl, rfl⟩ (by simp only [sessionStart, loopStart, ne_eq,
      reduceCtorEq, not_false_eq_true, implies_true])) acts s h

end

end MercaMiner
