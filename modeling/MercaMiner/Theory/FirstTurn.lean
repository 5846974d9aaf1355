import MercaMiner.Theory.BalancedPartition
import MercaMiner.Theory.BlockForm
import MercaMiner.Theory.ScanEquivalence
import MercaMiner.Theory.SessionSteps

/-!
# A First Turn That Submits

A session submits whatever its first candidate allows it to submit: replies
that lead a lone worker to a candidate lead to the submission of that
candidate, if its first nonce is a solution.

The turn is followed state by state. What the calls of the loop return is
known from the fields of `FirstTurn`, so no hash is computed on the way, and
the two places that depend on one are its `built` and the hypothesis that the
first hash meets the target. The watcher of the turn waits for the node until
the block is found, and is cancelled then.

## Main definitions

* `FirstTurn`: A first turn with what its calls return.
* `FirstTurn.opening`: The actions up to the first hash.
* `FirstTurn.submission`: The actions from there to the submission.

## Theorems

* `FirstTurn.opening_run`: The worker comes to its first hash.
* `FirstTurn.submission_run`: A solution is submitted.
-/

namespace MercaMiner

open Transition

/-- Writing the nonce a candidate has changes nothing. -/
theorem applySolvedNonce_self (candidate : BlockCandidate)
    (hvalid : validateBlockCandidateForMining candidate = .ok ()) :
    applySolvedNonce candidate candidate.header.nonce = candidate := by
  rcases (validate_ok candidate ()).mp hvalid with ⟨body, hbody⟩
  have hblock := applySolvedNonce_block candidate candidate.header.nonce body hbody
  have hheader : headerBytes candidate.header candidate.header.nonce =
      candidate.header.serialize := rfl
  rw [hheader, ← hbody] at hblock
  cases candidate
  exact congrArg (BlockCandidate.mk _ _) hblock

/-- A statement of the loop, with what the components have ready for it. -/
theorem sessionStep_of_loop (setup : SessionSetup) (s t : Session) (e : LoopEvent)
    (loop : LoopState) (hoffer : s.offer e = some t) (hstep : threadStep s.loop e = some loop) :
    sessionStep setup s (.loop e) = some (t.afterLoop e loop) := by
  change (s.offer e).bind (fun t => (threadStep s.loop e).bind fun loop =>
    some (t.afterLoop e loop)) = _
  rw [hoffer, Option.bind_some, hstep, Option.bind_some]

/-- A first turn of a session with one worker. The replies are usable, and the
    first block of the template they bring can be built. -/
structure FirstTurn where
  setup : SessionSetup
  blockLimit : UInt64
  payoutScript : Bytes
  infoReply : RpcReply
  templateReply : RpcReply
  blockchain : BlockchainInfo
  work : CurrentWork
  candidate : BlockCandidate
  payoutScript_ne : payoutScript ≠ []
  lone : setup.workerCount = 1
  info : fetchInfo infoReply = .ok blockchain
  template : fetchTemplate setup.network blockchain templateReply = .ok work
  tip : templateMatchesTip work = true
  nonces : work.blockTemplate.nonceMin ≤ work.blockTemplate.nonceMax
  built : buildBlockCandidate work.blockTemplate payoutScript
    (encodeExtranonce64 work.blockTemplate.height) = .ok candidate

namespace FirstTurn

variable (t : FirstTurn)

/-- The job of the turn before its first candidate. -/
def job : MiningJob :=
  ⟨t.work.blockTemplate, t.payoutScript, t.work.blockTemplate.height, false, t.payoutScript_ne⟩

def range : NonceRange :=
  ⟨t.work.blockTemplate.nonceMin, t.work.blockTemplate.nonceMax⟩

/-- The call of `Mine` in the turn. -/
def call : MineContext :=
  ⟨t.setup.hashV1, t.candidate, t.work.blockTemplate.target, t.work.blockTemplate.nonceMax,
    [t.range]⟩

/-- The hash of the candidate with its first nonce. -/
def firstHash : UInt256 :=
  t.setup.hashV1 (headerBytes t.candidate.header t.range.rangeBegin)

/-- The watcher before it makes a step. -/
def watcher : OwnedWatcher :=
  OwnedWatcher.start t.work.blockTemplate.previousBlockHash

def loop (pc : LoopPc) : LoopState :=
  ⟨t.blockLimit, t.payoutScript, false, ⟨0, 0, 0⟩, pc⟩

/-- The session while it fetches the template. -/
def fetching (fetch : FetchPc) : Session :=
  ⟨t.loop .fetching, fetch, none, none, 0, 0⟩

/-- The session in the loop over the candidates, before the first of them. -/
def starting (pc : InnerPc) : Session :=
  ⟨t.loop (.inner ⟨t.work, t.job, false⟩ pc), .callInfo, none, some t.watcher, 0, 0⟩

/-- The turn's variables from the first candidate on. -/
def iteration : Iteration :=
  ⟨t.work, t.job.advance, false⟩

/-- The session while `Mine` is called. -/
def mining (call : Option (MineContext × MineState)) : Session :=
  ⟨t.loop (.inner t.iteration (.mining ⟨t.candidate, t.work.blockTemplate.height⟩)), .callInfo,
    call, some t.watcher, 0, 0⟩

/-- The threads of the call before the first hash. -/
def scanning (pc : WorkerPc) : MineState :=
  ⟨[⟨pc, []⟩], ⟨false, some false, some false, some false, some 0, false⟩, .joining⟩

/-- The worker at its first hash. -/
def hashing : WorkerPc :=
  .scanning .hash 0 (ScanFrame.start t.range.rangeBegin (chunkEndOf t.range t.range.rangeBegin))

def result : ScanResult :=
  ⟨.found, t.range.rangeBegin, t.firstHash, 1⟩

/-- The threads of the call after the first hash, which is a solution. -/
def found (pc : WorkerPc) (stop : Bool) (main : MainPc) : MineState :=
  ⟨[⟨pc, [t.range.rangeBegin]⟩], ⟨stop, some false, some false, some false, some 1, false⟩, main⟩

/-- The main thread when `Mine` returns. -/
def returned : MainPc :=
  .returned ⟨.found, t.range.rangeBegin, t.firstHash, 1, some 0, 1⟩
    (applySolvedNonce t.candidate t.range.rangeBegin)

/-- The session after `Mine` returned. -/
def finishing : Session :=
  ⟨t.loop (.inner t.iteration (.found t.candidate .finishing)), .callInfo, none, some t.watcher,
    1, 1⟩

/-- The turn up to the worker's first hash. -/
def opening : List SessionAction :=
  [.loop .advance, .fetchReply t.infoReply, .fetchReply t.templateReply, .loop (.fetched t.work),
    .loop .advance, .loop (.nextCandidate false), .callMine, .worker 0, .worker 0, .worker 0,
    .worker 0]

/-- The rest of the turn up to the request to the node. -/
def submission : List SessionAction :=
  [.worker 0, .worker 0, .joinWorkers, .joinWorkers, .joinWorkers,
    .loop (.mined .found t.candidate), .loop .requestCancel, .watcher .rpcCancelled,
    .watcher .rpcCancelled, .watcher .rpcCancelled, .joinWatcher, .loop (.joined .cancelled),
    .loop .advance, .loop (.refreshRequested false), .loop .callSubmit,
    .loop (.submitting .advance)]

/-- The candidate was built with the nonce its worker hashes first. -/
theorem written_eq : applySolvedNonce t.candidate t.range.rangeBegin = t.candidate := by
  have hself := applySolvedNonce_self t.candidate (built_valid _ _ _ _ t.built)
  rw [built_nonce _ _ _ _ t.built] at hself
  exact hself

theorem fetching_run :
    run (sessionStep t.setup) (sessionStart t.blockLimit t.payoutScript)
      [.loop .advance, .fetchReply t.infoReply, .fetchReply t.templateReply] =
    some (t.fetching (.returned t.work)) := by
  have hlimit : t.blockLimit = 0 ∨ (0 : UInt64) < t.blockLimit := by
    rw [UInt64.pos_iff_ne_zero]
    exact em _
  have htest : sessionStep t.setup (sessionStart t.blockLimit t.payoutScript) (.loop .advance) =
      some (t.fetching .callInfo) := by
    refine sessionStep_of_loop t.setup (sessionStart t.blockLimit t.payoutScript) _ .advance
      (t.loop .fetching) rfl (if_pos ?_)
    change (true && (t.blockLimit == 0 || decide ((0 : UInt64) < t.blockLimit))) = true
    rw [Bool.true_and, Bool.or_eq_true, beq_iff_eq, decide_eq_true_iff]
    exact hlimit
  have hinfo : sessionStep t.setup (t.fetching .callInfo) (.fetchReply t.infoReply) =
      some (t.fetching (.callTemplate t.blockchain)) := by
    simp only [sessionStep, fetching, loop, fetchStep, t.info, if_true, Option.map_some]
  have htemplate : sessionStep t.setup (t.fetching (.callTemplate t.blockchain))
      (.fetchReply t.templateReply) = some (t.fetching (.returned t.work)) := by
    simp only [sessionStep, fetching, loop, fetchStep, t.template, if_true, Option.map_some]
  rw [run_cons _ _ _ _ _ htest, run_cons _ _ _ _ _ hinfo, run_cons _ _ _ _ _ htemplate, run_nil]

theorem building_run :
    run (sessionStep t.setup) (t.fetching (.returned t.work))
      [.loop (.fetched t.work), .loop .advance, .loop (.nextCandidate false)] =
    some (t.mining none) := by
  have hcreate : MiningJob.create t.work.blockTemplate t.payoutScript t.work.blockTemplate.height =
      .ok t.job := dif_neg t.payoutScript_ne
  have hnext : t.job.nextCandidate false =
      (.ok ⟨t.candidate, t.work.blockTemplate.height⟩, t.job.advance) := by
    simp only [job, MiningJob.nextCandidate, MiningJob.buildNext, t.built, Bool.false_eq_true,
      if_false]
  have hfetched : sessionStep t.setup (t.fetching (.returned t.work)) (.loop (.fetched t.work)) =
      some (t.starting .test) := by
    refine sessionStep_of_loop t.setup _ (t.fetching .callInfo) _ (t.starting .test).loop
      (if_pos rfl) ?_
    simp only [threadStep, fetching, starting, loop, LoopState.fetched, t.tip, if_true, hcreate,
      LoopState.goto]
  have htest : sessionStep t.setup (t.starting .test) (.loop .advance) =
      some (t.starting .nextCandidate) := rfl
  have hcandidate : sessionStep t.setup (t.starting .nextCandidate) (.loop (.nextCandidate false)) =
      some (t.mining none) := by
    refine sessionStep_of_loop t.setup _ (t.starting .nextCandidate) _ (t.mining none).loop rfl ?_
    simp only [threadStep, starting, loop, innerStep, hnext]
    rfl
  rw [run_cons _ _ _ _ _ hfetched, run_cons _ _ _ _ _ htest, run_cons _ _ _ _ _ hcandidate,
    run_nil]

theorem scanning_run :
    run (sessionStep t.setup) (t.mining none)
      [.callMine, .worker 0, .worker 0, .worker 0, .worker 0] =
    some (t.mining (some (t.call, scanning t.hashing))) := by
  have hranges : partitionNonceRange t.work.blockTemplate.nonceMin t.work.blockTemplate.nonceMax
      t.setup.workerCount = .ok [t.range] := by
    have heq := partitionNonceRange_eq _ _ 1 t.nonces (by decide)
    rw [t.lone, heq]
    exact congrArg Except.ok (partition_single _ _ _ heq)
  have hcall : sessionStep t.setup (t.mining none) .callMine =
      some (t.mining (some (t.call, scanning (.refreshBefore t.range.rangeBegin 0)))) := by
    simp only [sessionStep, Session.callMine, mining, loop, iteration, mineStart,
      built_valid _ _ _ _ t.built, Session.mineArguments, hranges]
    rfl
  have henter : sessionStep t.setup
      (t.mining (some (t.call, scanning (.refreshBefore t.range.rangeBegin 0)))) (.worker 0) =
      some (t.mining (some (t.call, scanning (.scanning .readCancelled 0
        (ScanFrame.start t.range.rangeBegin (chunkEndOf t.range t.range.rangeBegin)))))) := by
    rw [← enterScan_eq t.range t.range.rangeBegin 0 t.nonces]
    rfl
  rw [run_cons _ _ _ _ _ hcall, run_cons _ _ _ _ _ henter]
  rfl

/-- The worker comes to its first hash. -/
theorem opening_run :
    run (sessionStep t.setup) (sessionStart t.blockLimit t.payoutScript) t.opening =
    some (t.mining (some (t.call, scanning t.hashing))) :=
  (run_append _ _ _ _ _ t.fetching_run).trans
    ((run_append _ _ _ _ _ t.building_run).trans t.scanning_run)

/-- The worker computes its first hash and keeps it as its result. -/
theorem hash_step (hmeets : meetsTarget t.firstHash t.work.blockTemplate.target = true) :
    sessionStep t.setup (t.mining (some (t.call, scanning t.hashing))) (.worker 0) =
    some (t.mining (some (t.call, t.found (.storeStop t.result) false .joining))) := by
  have hconclude : (ScanFrame.start t.range.rangeBegin
      (chunkEndOf t.range t.range.rangeBegin)).conclude t.call.target
      (t.call.hashOf t.range.rangeBegin) = .inr t.result := if_pos hmeets
  have hworker : workerStep t.call t.range (scanning t.hashing).shared ⟨t.hashing, []⟩ =
      some (⟨.storeStop t.result, [t.range.rangeBegin]⟩,
        (t.found (.storeStop t.result) false .joining).shared) := by
    unfold hashing
    simp only [workerStep, Worker.hashNonce, ScanFrame.start] at hconclude ⊢
    rw [hconclude]
    rfl
  have hmine : mineStep t.call (scanning t.hashing) (.worker 0) =
      some (t.found (.storeStop t.result) false .joining) := by
    change (some t.range).bind (fun range => (some (⟨t.hashing, []⟩ : Worker)).bind fun w =>
      (workerStep t.call range (scanning t.hashing).shared w).bind fun r =>
        some (⟨[r.1], r.2, .joining⟩ : MineState)) = _
    rw [Option.bind_some, Option.bind_some, hworker]
    rfl
  change (mineStep t.call (scanning t.hashing) (.worker 0)).bind (fun m =>
    some (t.mining (some (t.call, m)))) = _
  rw [hmine]
  rfl

theorem solving_run (hmeets : meetsTarget t.firstHash t.work.blockTemplate.target = true) :
    run (sessionStep t.setup) (t.mining (some (t.call, scanning t.hashing)))
      [.worker 0, .worker 0, .joinWorkers, .joinWorkers, .joinWorkers,
        .loop (.mined .found t.candidate)] =
    some t.finishing := by
  have hjoin : run (sessionStep t.setup)
      (t.mining (some (t.call, t.found (.storeStop t.result) false .joining)))
      [.worker 0, .joinWorkers, .joinWorkers, .joinWorkers] =
      some (t.mining (some (t.call, t.found (.done t.result) true t.returned))) := rfl
  have hmined : sessionStep t.setup
      (t.mining (some (t.call, t.found (.done t.result) true t.returned)))
      (.loop (.mined .found t.candidate)) = some t.finishing :=
    sessionStep_of_loop t.setup
      (t.mining (some (t.call, t.found (.done t.result) true t.returned)))
      { t.mining none with completedHashes := 1, hashed := 1 } (.mined .found t.candidate)
      t.finishing.loop (if_pos ⟨rfl, t.written_eq⟩) rfl
  rw [run_cons _ _ _ _ _ (t.hash_step hmeets)]
  exact (run_append _ _ _ _ _ hjoin).trans (run_cons _ _ _ _ [] hmined)

/-- A solution is submitted. -/
theorem submission_run (hmeets : meetsTarget t.firstHash t.work.blockTemplate.target = true) :
    ∃ s, run (sessionStep t.setup) (sessionStart t.blockLimit t.payoutScript)
      (t.opening ++ t.submission) = some s ∧
      s.loop.pc = .inner t.iteration
        (.submitting (submitArguments t.iteration t.candidate) ⟨.callSubmit, []⟩) := by
  refine ⟨_, (run_append _ _ _ _ _ t.opening_run).trans
    ((run_append _ _ _ _ _ (t.solving_run hmeets)).trans rfl), rfl⟩

end FirstTurn

end MercaMiner
