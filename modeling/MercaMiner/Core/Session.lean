import MercaMiner.Core.MineLoop
import MercaMiner.Core.Network
import MercaMiner.Core.ParallelMiner

/-!
# A Mining Session

The mining loop together with what it calls and the threads beside it, from
`mine_loop.cpp`, `parallel_miner.cpp` and `longpoll.cpp`.

In `threadStep` the results of a fetch, of `Mine` and of the watcher are
arbitrary. Here they come from the code that produces them: the fetch parses
the node's two replies and validates the target, `Mine` is the system of
worker threads, and the watcher is its thread with its owner. A call that the
loop sees as one event is a component of the state with steps of its own, and
the event is possible once the component has returned, with what it returned.
The flags `Mine` is given are those of the watcher and the loop, so a worker
reads them where they are.

The watcher lives in a turn of the outer loop. When the turn is left, by any
way, its destructor runs before the next statement of the loop.

What stays outside are the node's replies, allocation failures, the moment at
which the shutdown flag is raised and the order in which the threads move.

## Main definitions

* `SessionSetup`: What is fixed before the loop.
* `FetchPc`, `fetchStep`: `FetchCurrentWork`.
* `Session`: The loop and its components.
* `Session.offer`: The events the components have ready.
* `SessionAction`, `sessionStep`: One step.
* `sessionStart`: The state before the outer loop.
-/

namespace MercaMiner

/-- The network, the hash function and the miner, whose constructor refuses to
    have no workers. -/
structure SessionSetup where
  network : NetworkIdentity
  hashV1 : Bytes → UInt256
  workerCount : UInt64
  workerCount_ne : workerCount ≠ 0

/-- What a call throws into the statement it is part of. -/
def RpcReply.result : RpcReply → Except LoopException Json
  | .value result => .ok result
  | .rpcException what => .error (.rpc what)
  | .rpcCancelled => .error .rpcCancelled
  | .otherException what => .error (.other what)

/-- Where `FetchCurrentWork` is. -/
inductive FetchPc where
  | callInfo
  | callTemplate (blockchain : BlockchainInfo)
  | returned (work : CurrentWork)
  | threw (e : LoopException)
  deriving DecidableEq

/-- The reply to `getblockchaininfo`. -/
def fetchInfo (r : RpcReply) : Except LoopException BlockchainInfo := do
  let value ← r.result
  (parseBlockchainInfo value).mapError fun e => .other e.what

/-- The reply to `getblocktemplate`, and the check of its target. -/
def fetchTemplate (network : NetworkIdentity) (blockchain : BlockchainInfo) (r : RpcReply) :
    Except LoopException CurrentWork := do
  let value ← r.result
  let blockTemplate ← (parseBlockTemplate value).mapError fun e => .other e.what
  (validateProofOfWorkTarget network blockTemplate.target).mapError fun e => .other e.what
  return ⟨blockchain.blocks, blockchain.bestBlockHash, blockTemplate⟩

/-- A call of the fetch ends. -/
def fetchStep (network : NetworkIdentity) (pc : FetchPc) (r : RpcReply) : Option FetchPc :=
  match pc with
  | .callInfo => match fetchInfo r with
    | .ok blockchain => some (.callTemplate blockchain)
    | .error e => some (.threw e)
  | .callTemplate blockchain => match fetchTemplate network blockchain r with
    | .ok work => some (.returned work)
    | .error e => some (.threw e)
  | _ => none

/-- The positions at which a turn's watcher is in scope. -/
def LoopPc.inTurn : LoopPc → Bool
  | .inner _ _ | .afterInner _ | .finishExhausted | .joinExhausted => true
  | _ => false

/-- The loop, the calls it is in, the watcher of its turn and the counter the
    workers share. `hashed` is not a variable of the program: it counts the
    nonces of the calls that have returned. -/
structure Session where
  loop : LoopState
  fetch : FetchPc
  mine : Option (MineContext × MineState)
  watcher : Option OwnedWatcher
  completedHashes : UInt64
  hashed : Nat

/-- The flags a worker of a call reads. -/
def MineState.withFlags (m : MineState) (w : Watcher) (shutdown : Bool) : MineState :=
  { m with shared := { m.shared with
      cancelled := some w.hardCancel
      cancelledSecondary := some shutdown
      refreshRequested := some w.refreshRequested } }

namespace Session

/-- The arguments of the call of `Mine`. -/
def mineArguments (s : Session) (setup : SessionSetup) (it : Iteration) (w : Watcher) :
    MineArguments where
  nonceBegin := it.work.blockTemplate.nonceMin
  nonceEnd := it.work.blockTemplate.nonceMax
  workerCount := setup.workerCount
  cancelled := some w.hardCancel
  cancelledSecondary := some s.loop.shutdown
  liveHashes := some s.completedHashes
  refreshRequested := some w.refreshRequested

/-- The loop calls `Mine`, which throws or starts its threads. -/
def callMine (s : Session) (setup : SessionSetup) : Option Session :=
  match s.loop.pc, s.mine, s.watcher with
  | .inner it (.mining m), none, some w =>
      match mineStart setup.hashV1 m.candidate it.work.blockTemplate.target
          (s.mineArguments setup it w.watcher) with
      | .ok entered => some { s with mine := some entered }
      | .error e =>
          (threadStep s.loop (.threw (.other e.what))).map fun loop => { s with loop := loop }
  | _, _, _ => none

/-- A step of one of the threads of `Mine`. -/
def mineMove (s : Session) (a : MineAction) : Option Session := do
  let (c, m) ← s.mine
  let w ← s.watcher
  let m ← mineStep c (m.withFlags w.watcher s.loop.shutdown) a
  some { s with mine := some (c, m) }

/-- `Mine` has returned. -/
def mineEnd (s : Session) (status : ScanStatus) (candidate : BlockCandidate) : Option Session := do
  let (_, m) ← s.mine
  let (result, after) ← m.returned
  if result.status = status ∧ after = candidate then
    some { s with
      mine := none
      completedHashes := m.shared.liveHashes.getD s.completedHashes
      hashed := s.hashed + (m.workers.map fun w => w.hashed.length).sum }
  else none

/-- The return statement of `Finish`. -/
def finishEnd (s : Session) (status : LongpollStatus) : Option Session := do
  let w ← s.watcher
  if w.owner = .loadStatus ∧ w.watcher.status = status then
    let w ← w.ownerStep
    some { s with watcher := some w }
  else none

/-- The loop reads a flag of the watcher. -/
def readFlag (s : Session) (flag : WatcherFlag) (b : Bool) : Option Session := do
  let w ← s.watcher
  if w.watcher.flag flag = b then some s else none

/-- The components after an event of the loop, if they have it ready. -/
def offer (s : Session) : LoopEvent → Option Session
  | .advance => if s.watcher.isSome && !s.loop.pc.inTurn then none else some s
  | .raiseShutdown => none
  | .fetched work =>
      if s.fetch = .returned work then some { s with fetch := .callInfo } else none
  | .threw e => if s.fetch = .threw e then some { s with fetch := .callInfo } else none
  | .mined status candidate => s.mineEnd status candidate
  | .requestCancel => do
      let w ← s.watcher
      let w ← w.beginCancel false
      some { s with watcher := some w }
  | .joined status => s.finishEnd status
  | .refreshRequested b => s.readFlag .refreshRequested b
  | .oldWorkInvalidated b => s.readFlag .hardCancel b
  | .nextCandidate _ | .callSubmit | .submitting _ | .submitted _ => some s

/-- The components after the loop's own step. A turn that goes on to its
    candidates has constructed its watcher. -/
def afterLoop (s : Session) (e : LoopEvent) (loop : LoopState) : Session :=
  match e, loop.pc with
  | .fetched work, .inner _ _ =>
      { s with
        loop := loop
        watcher := some (OwnedWatcher.start work.blockTemplate.previousBlockHash) }
  | _, _ => { s with loop := loop }

/-- The loop makes a step. -/
def loopMove (s : Session) (e : LoopEvent) : Option Session := do
  let t ← s.offer e
  let loop ← threadStep s.loop e
  some (t.afterLoop e loop)

/-- The join in `CancelAndJoin`. After the destructor the watcher is gone. -/
def joinWatcher (s : Session) : Option Session := do
  let w ← s.watcher
  match w.owner with
  | .joining destroying => do
      let w ← w.ownerStep
      some { s with watcher := if destroying then none else some w }
  | _ => none

/-- The destructor of a watcher whose turn was left. -/
def destroyWatcher (s : Session) : Option Session := do
  let w ← s.watcher
  if s.loop.pc.inTurn then none
  else
    let w ← w.beginCancel true
    some { s with watcher := some w }

end Session

/-- What can happen next: the shutdown flag is raised, the watcher's thread or
    a worker moves, or the main thread does, in the loop or in one of its
    calls. -/
inductive SessionAction where
  | raiseShutdown
  | watcher (call : LongpollCall)
  | worker (i : Nat)
  | joinWorkers
  | fetchReply (r : RpcReply)
  | callMine
  | joinWatcher
  | destroyWatcher
  | loop (e : LoopEvent)

def sessionStep (setup : SessionSetup) (s : Session) : SessionAction → Option Session
  | .raiseShutdown =>
      -- The monitor stores the flag once and returns.
      if s.loop.shutdown then none
      else some { s with loop := { s.loop with shutdown := true } }
  | .watcher call => do
      let w ← s.watcher
      let w ← ownedStep call w .run
      some { s with watcher := some w }
  | .worker i => s.mineMove (.worker i)
  | .joinWorkers => s.mineMove .main
  | .fetchReply r =>
      if s.loop.pc = .fetching then
        (fetchStep setup.network s.fetch r).map fun fetch => { s with fetch := fetch }
      else none
  | .callMine => s.callMine setup
  | .joinWatcher => s.joinWatcher
  | .destroyWatcher => s.destroyWatcher
  | .loop e => s.loopMove e

def sessionStart (blockLimit : UInt64) (payoutScript : Bytes) : Session :=
  ⟨loopStart blockLimit payoutScript, .callInfo, none, none, 0, 0⟩

end MercaMiner
