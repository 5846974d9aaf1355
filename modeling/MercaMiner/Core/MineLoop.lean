import MercaMiner.Core.Longpoll
import MercaMiner.Core.MiningJob
import MercaMiner.Core.Submission

/-!
# The Mining Loop

The main thread from the first template fetch to its exit, from
`mine_loop.cpp`.

The loop is a step function. A program counter names the next statement that
reads something the thread does not decide: a flag, a return value, an
exception. What it reads is the step's event, and the event is arbitrary,
except that the shutdown flag is a variable of the state, since the loop
tests it in many places and another thread can only raise it. The submission
of a solved candidate is the machine of `submitStep`, run inside the loop.

The decisions after a solved candidate was found are a machine of their own,
`foundStep`, so that they can also be run beside the longpoll watcher.

The steps print messages; these are left out.

## Main definitions

* `RuntimeStats`: The three counters.
* `LoopEvent`: What a step reads.
* `FoundPc`, `foundStep`: The decisions about a solved candidate.
* `InnerPc`, `innerStep`: The loop over the candidates of a template.
* `LoopPc`, `LoopState`, `loopStep`: The whole loop.

## Theorems

* `foundStep_past`: The decisions finish the watcher once.
-/

namespace MercaMiner

structure CurrentWork where
  blocks : UInt64
  bestBlockHash : UInt256
  blockTemplate : BlockTemplate
  deriving DecidableEq

def templateMatchesTip (work : CurrentWork) : Bool :=
  -- The height of the next block would wrap.
  if work.blocks = 0xffffffffffffffff then false
  else work.blockTemplate.previousBlockHash == work.bestBlockHash &&
    work.blockTemplate.height == work.blocks + 1

/-- The counters of the session that count blocks. -/
structure RuntimeStats where
  acceptedBlocks : UInt64
  staleWork : UInt64
  rejectedBlocks : UInt64
  deriving DecidableEq

namespace RuntimeStats

def countAccepted (stats : RuntimeStats) : RuntimeStats :=
  { stats with acceptedBlocks := stats.acceptedBlocks + 1 }

def countStale (stats : RuntimeStats) : RuntimeStats :=
  { stats with staleWork := stats.staleWork + 1 }

def countRejected (stats : RuntimeStats) : RuntimeStats :=
  { stats with rejectedBlocks := stats.rejectedBlocks + 1 }

end RuntimeStats

/-- The exceptions a statement of the loop can throw: the two kinds the loop
    catches, and every other. -/
inductive LoopException where
  | rpcCancelled
  | rpc (what : String)
  | other (what : String)
  deriving DecidableEq

/-- What a call throws out of a statement of the loop when its response cannot
    be used. -/
def LoopException.ofFailure : RpcFailure → LoopException
  | .rpcException what _ => .rpc (ofText what)
  | .outOfRange what => .other (ofText what)

/-- What a step reads. -/
inductive LoopEvent where
  /-- Nothing but the thread's own variables and the shutdown flag. -/
  | advance
  /-- Another thread raises the shutdown flag. -/
  | raiseShutdown
  /-- The template was fetched, and the job and the watcher were built. -/
  | fetched (work : CurrentWork)
  /-- The next candidate was asked for. -/
  | nextCandidate (outOfMemory : Bool)
  /-- `Mine` returned, leaving its argument changed. -/
  | mined (status : ScanStatus) (candidate : BlockCandidate)
  /-- `Finish` asked the watcher to stop. -/
  | requestCancel
  /-- `Finish` returned. -/
  | joined (status : LongpollStatus)
  /-- `RefreshRequested` returned. -/
  | refreshRequested (b : Bool)
  /-- `OldWorkInvalidated` returned. -/
  | oldWorkInvalidated (b : Bool)
  /-- `SubmitCandidateReliably` was called. -/
  | callSubmit
  /-- `SubmitCandidateReliably` made a step. -/
  | submitting (e : SubmitEvent)
  /-- `SubmitCandidateReliably` returned. -/
  | submitted (outcome : ResolvedSubmitOutcome)
  /-- A statement threw. -/
  | threw (e : LoopException)

/-- What becomes of a solved candidate. -/
inductive FoundDecision where
  | stop
  | discard
  | submit
  deriving DecidableEq

inductive FoundPc where
  | finishing
  | joining
  | loadShutdown (status : LongpollStatus)
  | loadRefresh (status : LongpollStatus)
  | loadInvalidated
  | decided (d : FoundDecision)
  deriving DecidableEq

/-- One step of the decisions about a solved candidate. -/
def foundStep (shutdown : Bool) (stats : RuntimeStats) (pc : FoundPc) (e : LoopEvent) :
    Option (RuntimeStats × FoundPc) :=
  match pc, e with
  | .finishing, .requestCancel => some (stats, .joining)
  | .joining, .joined status => some (stats, .loadShutdown status)
  | .loadShutdown status, .advance =>
      if shutdown then some (stats, .decided .stop) else some (stats, .loadRefresh status)
  | .loadRefresh status, .refreshRequested b =>
      if b then
        -- A watcher that failed says nothing about the work.
        if status = .rpcError then some (stats, .decided .submit) else some (stats, .loadInvalidated)
      else some (stats, .decided .submit)
  | .loadInvalidated, .oldWorkInvalidated b =>
      if b then some (stats.countStale, .decided .discard) else some (stats, .decided .submit)
  | _, _ => none

/-- The watcher is asked to stop only once. -/
theorem foundStep_past (shutdown : Bool) (stats stats' : RuntimeStats) (pc pc' : FoundPc)
    (e : LoopEvent) (h : foundStep shutdown stats pc e = some (stats', pc')) :
    pc' ≠ .finishing := by
  revert h
  fun_cases foundStep shutdown stats pc e with
  | case10 => exact fun h => absurd h (by simp only [reduceCtorEq, not_false_eq_true])
  | _ =>
      rintro ⟨⟩
      simp only [ne_eq, reduceCtorEq, not_false_eq_true]

/-- The two other places that finish the watcher and then look at it. -/
inductive FinishSite where
  | cancelled
  | exhausted
  deriving DecidableEq

/-- Where the thread is in the loop over a template's candidates. -/
inductive InnerPc where
  | test
  | nextCandidate
  | mining (candidate : MiningCandidate)
  | loadRefresh
  | finishing (site : FinishSite)
  | joining (site : FinishSite)
  | loadShutdown (status : LongpollStatus)
  | report (status : LongpollStatus)
  | loadInvalidated
  | found (candidate : BlockCandidate) (pc : FoundPc)
  | submitting (args : SubmitArguments) (frame : SubmitFrame)
  deriving DecidableEq

/-- The variables of one turn of the outer loop. -/
structure Iteration where
  work : CurrentWork
  job : MiningJob
  refreshTemplate : Bool
  deriving DecidableEq

/-- How a session ends when no exception ends it. -/
inductive LoopExit where
  | shutdownComplete
  | requestedBlockCountReached
  deriving DecidableEq

/-- Where the thread is. `leaving` is after the outer loop. -/
inductive LoopPc where
  | whileTest
  | fetching
  | inner (it : Iteration) (pc : InnerPc)
  | afterInner (it : Iteration)
  | finishExhausted
  | joinExhausted
  | catching (e : LoopException)
  | reloadCookie
  | sleeping (remaining : Nat)
  | leaving
  | exited (exit : LoopExit)
  | uncaught (what : String)
  deriving DecidableEq

structure LoopState where
  blockLimit : UInt64
  payoutScript : Bytes
  shutdown : Bool
  stats : RuntimeStats
  pc : LoopPc
  deriving DecidableEq

namespace LoopState

def goto (s : LoopState) (pc : LoopPc) : LoopState :=
  { s with pc := pc }

/-- An exception leaves the body of the outer loop. -/
def throw (s : LoopState) (e : LoopException) : LoopState :=
  match e with
  | .other what => s.goto (.uncaught what)
  | e => s.goto (.catching e)

/-- `refresh_template = true; continue;` with the counters given. -/
def refresh (s : LoopState) (it : Iteration) (stats : RuntimeStats) : LoopState :=
  { s with stats := stats, pc := .inner { it with refreshTemplate := true } .test }

/-- `refresh_template = true; break;`. -/
def breakInner (s : LoopState) (it : Iteration) : LoopState :=
  s.goto (.afterInner { it with refreshTemplate := true })

/-- After a fetch: the template is used if it builds on the tip. -/
def fetched (s : LoopState) (work : CurrentWork) : LoopState :=
  if templateMatchesTip work then
    match MiningJob.create work.blockTemplate s.payoutScript work.blockTemplate.height with
    | .error e => s.throw (.other e.what)
    | .ok job => s.goto (.inner ⟨work, job, false⟩ .test)
  else s.goto .whileTest

/-- After a call of `NextCandidate`. -/
def candidateBuilt (s : LoopState) (it : Iteration)
    (r : Except JobError MiningCandidate × MiningJob) : LoopState :=
  match r with
  | (.error e, _) => s.throw (.other e.what)
  | (.ok candidate, job) => s.goto (.inner { it with job := job } (.mining candidate))

/-- After `Mine` returned. -/
def mineReturned (s : LoopState) (it : Iteration) (status : ScanStatus)
    (candidate : BlockCandidate) : LoopState :=
  match status with
  | .cancelled => s.goto (.inner it (.finishing .cancelled))
  | .exhausted => s.goto (.inner it .loadRefresh)
  | .found => s.goto (.inner it (.found candidate .finishing))

/-- After the watcher was finished in one of the other two places. -/
def finished (s : LoopState) (it : Iteration) (site : FinishSite) (status : LongpollStatus) :
    LoopState :=
  match site with
  | .cancelled => s.goto (.inner it (.loadShutdown status))
  | .exhausted => s.goto (.inner it (.report status))

/-- After the submission returned. -/
def resolved (s : LoopState) (it : Iteration) (outcome : ResolvedSubmitOutcome) : LoopState :=
  match outcome with
  | .cancelled => s.breakInner it
  | .rejected => s.refresh it s.stats.countRejected
  | .notCurrentTip => s.refresh it s.stats.countStale
  | .accepted => s.refresh it s.stats.countAccepted

/-- After the submission threw. -/
def submitThrew (s : LoopState) (e : SubmitException) : LoopState :=
  match e with
  | .rpcCancelled => s.throw .rpcCancelled
  | .runtimeError what => s.throw (.other what)

end LoopState

/-- What is submitted for a solved candidate. -/
def submitArguments (it : Iteration) (candidate : BlockCandidate) : SubmitArguments :=
  ⟨candidate, it.work.blockTemplate.height, doubleSha256 candidate.header.serialize⟩

/-- One step in the loop over a template's candidates. -/
def innerStep (s : LoopState) (it : Iteration) (pc : InnerPc) (e : LoopEvent) : Option LoopState :=
  match pc, e with
  | .test, .advance =>
      if it.job.hasMoreCandidates && !it.refreshTemplate && !s.shutdown then
        some (s.goto (.inner it .nextCandidate))
      else some (s.goto (.afterInner it))
  | .nextCandidate, .nextCandidate outOfMemory =>
      some (s.candidateBuilt it (it.job.nextCandidate outOfMemory))
  | .mining _, .mined status candidate => some (s.mineReturned it status candidate)
  | .mining _, .threw e => some (s.throw e)
  | .loadRefresh, .refreshRequested b =>
      if b then some (s.goto (.inner it (.finishing .exhausted)))
      else some (s.goto (.inner it .test))
  | .finishing site, .requestCancel => some (s.goto (.inner it (.joining site)))
  | .joining site, .joined status => some (s.finished it site status)
  | .loadShutdown status, .advance =>
      if s.shutdown then some (s.breakInner it) else some (s.goto (.inner it (.report status)))
  | .report status, .advance =>
      if status = .rpcError then some (s.refresh it s.stats)
      else some (s.goto (.inner it .loadInvalidated))
  | .loadInvalidated, .oldWorkInvalidated b =>
      some (s.refresh it (if b then s.stats.countStale else s.stats))
  | .found _ (.decided .stop), .advance => some (s.breakInner it)
  | .found _ (.decided .discard), .advance => some (s.refresh it s.stats)
  | .found candidate (.decided .submit), .callSubmit =>
      some (s.goto (.inner it (.submitting (submitArguments it candidate) SubmitFrame.start)))
  | .found candidate pc, e =>
      (foundStep s.shutdown s.stats pc e).map fun r =>
        { s with stats := r.1, pc := .inner it (.found candidate r.2) }
  | .submitting args frame, .submitting e =>
      (submitStep args (some s.shutdown) frame e).map fun frame =>
        s.goto (.inner it (.submitting args frame))
  -- The loop goes on with what the submission returned.
  | .submitting _ ⟨.returned outcome, _⟩, .submitted outcome' =>
      if outcome' = outcome then some (s.resolved it outcome) else none
  | .submitting _ ⟨.threw e, _⟩, .advance => some (s.submitThrew e)
  | _, _ => none

/-- One step of the thread. -/
def threadStep (s : LoopState) (e : LoopEvent) : Option LoopState :=
  match s.pc, e with
  | .whileTest, .advance =>
      if !s.shutdown && (s.blockLimit == 0 || s.stats.acceptedBlocks < s.blockLimit) then
        some (s.goto .fetching)
      else some (s.goto .leaving)
  | .fetching, .fetched work => some (s.fetched work)
  | .fetching, .threw e => some (s.throw e)
  | .inner it pc, e => innerStep s it pc e
  | .afterInner it, .advance =>
      if !it.job.hasMoreCandidates && !it.refreshTemplate && !s.shutdown then
        some (s.goto .finishExhausted)
      else some (s.goto .whileTest)
  | .finishExhausted, .requestCancel => some (s.goto .joinExhausted)
  | .joinExhausted, .joined _ => some (s.throw (.other "64-bit extranonce space exhausted"))
  | .catching .rpcCancelled, .advance =>
      -- Outside of a shutdown a cancelled request is an error nobody handles.
      if s.shutdown then some (s.goto .leaving)
      else some (s.goto (.uncaught "RPC request cancelled"))
  | .catching _, .advance =>
      if s.shutdown then some (s.goto .leaving) else some (s.goto .reloadCookie)
  | .reloadCookie, .advance => some (s.goto (.sleeping 1000))
  | .sleeping remaining, .advance =>
      if remaining = 0 then some (s.goto .whileTest)
      else match sleepSlice (some s.shutdown) remaining with
        | none => some (s.goto .leaving)
        | some left => some (s.goto (.sleeping left))
  | .leaving, .advance =>
      if s.shutdown then some (s.goto (.exited .shutdownComplete))
      else some (s.goto (.exited .requestedBlockCountReached))
  | _, _ => none

/-- One step of the loop, or of a thread that asks for shutdown. -/
def loopStep (s : LoopState) (e : LoopEvent) : Option LoopState :=
  match e with
  | .raiseShutdown => some { s with shutdown := true }
  | e => threadStep s e

/-- The state before the outer loop. -/
def loopStart (blockLimit : UInt64) (payoutScript : Bytes) : LoopState :=
  ⟨blockLimit, payoutScript, false, ⟨0, 0, 0⟩, .whileTest⟩

end MercaMiner
