import MercaMiner.Basis.Tiling
import MercaMiner.Basis.Transition
import MercaMiner.Core.CandidateMiner

/-!
# The Parallel Miner

Splitting a nonce range over worker threads, from `parallel_miner.cpp`.

A call of `Mine` is a transition system. Each worker walks its range in
chunks, scanning a chunk with the operations of the nonce scanner; its
program counter names the shared variable it accesses next, so every flag
read, every nonce check and the store to the stop flag is one step and any
two steps of different threads may be interleaved. The thread that called
`Mine` joins the workers, reads the two cancellation flags and picks the
result. Threads are created before any join, so a worker that has not been
created yet is a worker that has not been scheduled yet.

Two components of the state are not variables of the program: each worker
records the nonces it hashed, and `saturated` records whether a saturating
addition ever took its saturating branch.

## Main definitions

* `partitionNonceRange`: The ranges of the workers.
* `WorkerPc`, `Worker`: A worker thread.
* `Shared`: What the threads share.
* `workerStep`: One step of a worker.
* `MainPc`, `mainStep`: The calling thread.
* `MineState`, `MineAction`, `mineStep`: The whole system.
* `mineStart`: Entering `Mine`.
* `mineRun`: A call under a given schedule.
-/

namespace MercaMiner

open Outcome

/-- The branch condition of `SaturatingAdd`. -/
def saturates (left right : UInt64) : Bool :=
  decide (right > 0xffffffffffffffff - left)

def saturatingAdd (left right : UInt64) : UInt64 :=
  if saturates left right then 0xffffffffffffffff else left + right

structure NonceRange where
  rangeBegin : UInt32
  rangeEnd : UInt32
  deriving DecidableEq

/-- The loop over the remaining workers, starting with number `worker`. -/
def partitionLoop (baseSize remainder : UInt64) : Nat → UInt64 → UInt64 → List NonceRange
  | 0, _, _ => []
  | k + 1, worker, cursor =>
      -- The first workers take one nonce of the remainder each.
      let rangeSize := baseSize + (if worker < remainder then 1 else 0)
      let rangeEnd := cursor + rangeSize - 1
      ⟨cursor.toUInt32, rangeEnd.toUInt32⟩
        :: partitionLoop baseSize remainder k (worker + 1) (rangeEnd + 1)

def partitionNonceRange (nonceBegin nonceEnd : UInt32) (workerCount : UInt64) :
    Except MineError (List NonceRange) := do
  check (workerCount ≠ 0) .zeroWorkers
  check (¬nonceBegin > nonceEnd) .beginExceedsEnd
  -- In 64 bits, since there can be 2^32 nonces.
  let nonceCount := nonceEnd.toUInt64 - nonceBegin.toUInt64 + 1
  let activeCount := min nonceCount workerCount
  return partitionLoop (nonceCount / activeCount) (nonceCount % activeCount) activeCount.toNat 0
    nonceBegin.toUInt64

/-- The flag a scan reads next, or the nonce check that follows the reads. -/
inductive ScanPoint where
  | readCancelled
  | readCancelledSecondary
  | readCancelledTertiary
  | hash
  deriving DecidableEq

/-- Where a worker is, with its local variables. `threw` is a scan that was
    called with an empty range. -/
inductive WorkerPc where
  | refreshBefore (chunkBegin : UInt32) (workerHashes : UInt64)
  | scanning (point : ScanPoint) (workerHashes : UInt64) (frame : ScanFrame)
  | storeStop (result : ScanResult)
  | refreshAfter (chunkEnd : UInt32) (workerHashes : UInt64)
  | done (result : ScanResult)
  | threw

structure Worker where
  pc : WorkerPc
  /-- The nonces hashed so far, in order. -/
  hashed : List UInt32

/-- The variables the threads share. The three external flags and the counter
    may be absent. -/
structure Shared where
  stop : Bool
  cancelled : Flag
  cancelledSecondary : Flag
  refreshRequested : Flag
  liveHashes : Option UInt64
  saturated : Bool

/-- What does not change during a call. -/
structure MineContext where
  hashV1 : Bytes → UInt256
  candidate : BlockCandidate
  target : UInt256
  nonceEnd : UInt32
  ranges : List NonceRange

/-- The hash of the candidate's header with a nonce. -/
def MineContext.hashOf (c : MineContext) (nonce : UInt32) : UInt256 :=
  c.hashV1 (headerBytes c.candidate.header nonce)

def softRefreshChunkNonces : UInt64 := 8

/-- The last nonce of the chunk that starts at `chunkBegin`. -/
def chunkEndOf (range : NonceRange) (chunkBegin : UInt32) : UInt32 :=
  -- In 64 bits, where the sum cannot wrap.
  let proposedEnd := chunkBegin.toUInt64 + softRefreshChunkNonces - 1
  if proposedEnd < range.rangeEnd.toUInt64 then proposedEnd.toUInt32 else range.rangeEnd

/-- Calling the scanner on a chunk. -/
def enterScan (range : NonceRange) (chunkBegin : UInt32) (workerHashes : UInt64) : WorkerPc :=
  let chunkEnd := chunkEndOf range chunkBegin
  if chunkBegin > chunkEnd then .threw
  else .scanning .readCancelled workerHashes (ScanFrame.start chunkBegin chunkEnd)

/-- What a worker does with the result of a chunk. -/
def leaveScan (range : NonceRange) (workerHashes : UInt64) (chunkEnd : UInt32)
    (chunk : ScanResult) : WorkerPc :=
  let workerHashes := saturatingAdd workerHashes chunk.hashesChecked
  let result := { chunk with hashesChecked := workerHashes }
  match chunk.status with
  | .found => .storeStop result
  | .cancelled => .done result
  | .exhausted =>
      -- Only the last chunk ends where the range does.
      if chunkEnd = range.rangeEnd then .done result else .refreshAfter chunkEnd workerHashes

/-- A worker whose scan returned. -/
def Worker.returnScan (w : Worker) (range : NonceRange) (workerHashes : UInt64)
    (frame : ScanFrame) (chunk : ScanResult) (shared : Shared) : Worker × Shared :=
  ({ w with pc := leaveScan range workerHashes frame.nonceEnd chunk },
    { shared with saturated := shared.saturated || saturates workerHashes chunk.hashesChecked })

/-- A worker's step to another point, touching nothing else. -/
def Worker.goto (w : Worker) (pc : WorkerPc) (shared : Shared) : Worker × Shared :=
  ({ w with pc := pc }, shared)

/-- Reading one of a scan's flags: the scan is interrupted or goes on. -/
def Worker.readFlag (w : Worker) (range : NonceRange) (workerHashes : UInt64)
    (frame : ScanFrame) (seen : Bool) (next : ScanPoint) (shared : Shared) : Worker × Shared :=
  if seen then w.returnScan range workerHashes frame frame.interrupt shared
  else w.goto (.scanning next workerHashes frame) shared

/-- Hashing one nonce and counting it. -/
def Worker.hashNonce (w : Worker) (c : MineContext) (range : NonceRange) (workerHashes : UInt64)
    (frame : ScanFrame) (shared : Shared) : Worker × Shared :=
  let w := { w with hashed := w.hashed ++ [frame.nonce] }
  let shared := { shared with liveHashes := shared.liveHashes.map (· + 1) }
  match frame.conclude c.target (c.hashOf frame.nonce) with
  | .inr chunk => w.returnScan range workerHashes frame chunk shared
  | .inl next => w.goto (.scanning .readCancelled workerHashes next) shared

/-- One step of a worker with the given range. -/
def workerStep (c : MineContext) (range : NonceRange) (shared : Shared) (w : Worker) :
    Option (Worker × Shared) :=
  match w.pc with
  | .refreshBefore chunkBegin workerHashes =>
      if raised shared.refreshRequested then
        some (w.goto (.done ⟨.cancelled, chunkBegin, UInt256.zero, workerHashes⟩) shared)
      else some (w.goto (enterScan range chunkBegin workerHashes) shared)
  | .scanning .readCancelled workerHashes frame =>
      some (w.readFlag range workerHashes frame shared.stop .readCancelledSecondary shared)
  | .scanning .readCancelledSecondary workerHashes frame =>
      some (w.readFlag range workerHashes frame (raised shared.cancelled)
        .readCancelledTertiary shared)
  | .scanning .readCancelledTertiary workerHashes frame =>
      some (w.readFlag range workerHashes frame (raised shared.cancelledSecondary) .hash shared)
  | .scanning .hash workerHashes frame =>
      some (w.hashNonce c range workerHashes frame shared)
  | .storeStop result => some (w.goto (.done result) { shared with stop := true })
  | .refreshAfter chunkEnd workerHashes =>
      if raised shared.refreshRequested then
        some (w.goto (.done ⟨.cancelled, chunkEnd, UInt256.zero, workerHashes⟩) shared)
      else some (w.goto (.refreshBefore (chunkEnd + 1) workerHashes) shared)
  | .done _ => none
  | .threw => none

structure ParallelMineResult where
  status : ScanStatus
  nonce : UInt32
  hash : UInt256
  hashesChecked : UInt64
  winningWorker : Option Nat
  activeWorkers : Nat
  deriving DecidableEq

/-- Where the calling thread is. -/
inductive MainPc where
  | joining
  | readCancelled (totalHashes : UInt64)
  | readCancelledSecondary (totalHashes : UInt64)
  | returned (result : ParallelMineResult) (candidate : BlockCandidate)

structure MineState where
  workers : List Worker
  shared : Shared
  main : MainPc

def WorkerPc.result : WorkerPc → Option ScanResult
  | .done result => some result
  | _ => none

/-- What the call returned, with the candidate it leaves behind. -/
def MineState.returned (s : MineState) : Option (ParallelMineResult × BlockCandidate) :=
  match s.main with
  | .returned result candidate => some (result, candidate)
  | _ => none

/-- The results of the workers, once all have finished. -/
def collectResults : List Worker → Option (List ScanResult)
  | [] => some []
  | w :: rest => match w.pc.result, collectResults rest with
    | some r, some results => some (r :: results)
    | _, _ => none

def MineState.results (s : MineState) : Option (List ScanResult) :=
  collectResults s.workers

/-- Adding up the counts, with whether an addition saturated. -/
def sumHashes : List ScanResult → UInt64 → Bool → UInt64 × Bool
  | [], total, saturated => (total, saturated)
  | r :: rest, total, saturated =>
      sumHashes rest (saturatingAdd total r.hashesChecked)
        (saturated || saturates total r.hashesChecked)

/-- One turn of the loop that looks for the found result with the smallest
    nonce. The winner so far is kept with its position. -/
def considerWinner (worker : Nat) (r : ScanResult) (winner : Option (Nat × ScanResult)) :
    Option (Nat × ScanResult) :=
  if r.status ≠ .found then winner
  else match winner with
    | none => some (worker, r)
    | some (i, best) => if r.nonce < best.nonce then some (worker, r) else some (i, best)

def selectWinner : List ScanResult → Nat → Option (Nat × ScanResult) → Option (Nat × ScanResult)
  | [], _, winner => winner
  | r :: rest, worker, winner => selectWinner rest (worker + 1) (considerWinner worker r winner)

/-- The result of a call that was cancelled. -/
def cancelledResult (totalHashes : UInt64) (activeWorkers : Nat) : ParallelMineResult :=
  ⟨.cancelled, 0, UInt256.zero, totalHashes, none, activeWorkers⟩

/-- The return statements after the cancellation flags. -/
def concludeMine (c : MineContext) (results : List ScanResult) (totalHashes : UInt64) : MainPc :=
  match selectWinner results 0 none with
  | some (winner, r) =>
      .returned ⟨.found, r.nonce, r.hash, totalHashes, some winner, results.length⟩
        (applySolvedNonce c.candidate r.nonce)
  | none =>
      -- Without a winner, one cancelled worker makes the call cancelled.
      if results.any (fun r => r.status = .cancelled) then
        .returned (cancelledResult totalHashes results.length) c.candidate
      else .returned ⟨.exhausted, c.nonceEnd, UInt256.zero, totalHashes, none, results.length⟩
        c.candidate

/-- One step of the calling thread. It joins only when every worker has
    finished. -/
def mainStep (c : MineContext) (s : MineState) : Option MineState :=
  match s.results with
  | none => none
  | some results => match s.main with
    | .joining =>
        let (totalHashes, saturated) := sumHashes results 0 s.shared.saturated
        some { s with
          main := .readCancelled totalHashes
          shared := { s.shared with saturated := saturated } }
    | .readCancelled totalHashes =>
        if raised s.shared.cancelled then
          some { s with
            main := .returned (cancelledResult totalHashes results.length) c.candidate }
        else some { s with main := .readCancelledSecondary totalHashes }
    | .readCancelledSecondary totalHashes =>
        if raised s.shared.cancelledSecondary then
          some { s with
            main := .returned (cancelledResult totalHashes results.length) c.candidate }
        else some { s with main := concludeMine c results totalHashes }
    | .returned _ _ => none

/-- What can happen next: a thread moves, or the environment stores a value to
    one of the caller's flags. -/
inductive MineAction where
  | worker (i : Nat)
  | main
  | storeCancelled (value : Bool)
  | storeCancelledSecondary (value : Bool)
  | storeRefreshRequested (value : Bool)
  deriving DecidableEq

/-- Storing to a flag, if it is there. -/
def store (flag : Flag) (value : Bool) : Flag :=
  flag.map fun _ => value

def mineStep (c : MineContext) (s : MineState) : MineAction → Option MineState
  | .worker i => do
      let range ← c.ranges[i]?
      let w ← s.workers[i]?
      let (w', shared) ← workerStep c range s.shared w
      return { s with workers := s.workers.set i w', shared := shared }
  | .main => mainStep c s
  | .storeCancelled value =>
      some { s with shared := { s.shared with cancelled := store s.shared.cancelled value } }
  | .storeCancelledSecondary value =>
      some { s with shared := { s.shared with
        cancelledSecondary := store s.shared.cancelledSecondary value } }
  | .storeRefreshRequested value =>
      some { s with shared := { s.shared with
        refreshRequested := store s.shared.refreshRequested value } }

/-- The arguments of a call besides the candidate and the target. -/
structure MineArguments where
  nonceBegin : UInt32
  nonceEnd : UInt32
  workerCount : UInt64
  cancelled : Flag
  cancelledSecondary : Flag
  liveHashes : Option UInt64
  refreshRequested : Flag

/-- Entering `Mine`: the checks, and the state once the workers exist. -/
def mineStart (hashV1 : Bytes → UInt256) (candidate : BlockCandidate) (target : UInt256)
    (args : MineArguments) : Except MineError (MineContext × MineState) := do
  validateBlockCandidateForMining candidate
  let ranges ← partitionNonceRange args.nonceBegin args.nonceEnd args.workerCount
  return ({ hashV1, candidate, target, nonceEnd := args.nonceEnd, ranges },
    { workers := ranges.map fun range => ⟨.refreshBefore range.rangeBegin 0, []⟩
      shared := {
        stop := false
        cancelled := args.cancelled
        cancelledSecondary := args.cancelledSecondary
        refreshRequested := args.refreshRequested
        liveHashes := args.liveHashes
        saturated := false }
      main := .joining })

/-- A call under a given schedule, as far as it is enabled. -/
def mineRun (hashV1 : Bytes → UInt256) (candidate : BlockCandidate) (target : UInt256)
    (args : MineArguments) (acts : List MineAction) : Option MineState :=
  match mineStart hashV1 candidate target args with
  | .error _ => none
  | .ok (c, s₀) => Transition.run (mineStep c) s₀ acts

theorem mineRun_eq (hashV1 : Bytes → UInt256) (candidate : BlockCandidate) (target : UInt256)
    (args : MineArguments) (acts : List MineAction) (c : MineContext) (s₀ : MineState)
    (h : mineStart hashV1 candidate target args = .ok (c, s₀)) :
    mineRun hashV1 candidate target args acts = Transition.run (mineStep c) s₀ acts := by
  rw [mineRun, h]

theorem MineState.returned_eq (s : MineState) (result : ParallelMineResult)
    (candidate : BlockCandidate) :
    s.returned = some (result, candidate) ↔ s.main = .returned result candidate := by
  unfold MineState.returned
  cases s.main <;> simp only [reduceCtorEq, Option.some.injEq, Prod.mk.injEq,
    MainPc.returned.injEq]

end MercaMiner
