import MercaMiner.Basis.HexNumber
import MercaMiner.Theory.BlockConsistency
import MercaMiner.Theory.FirstTurn
import MercaMiner.Theory.MinedBlock
import MercaMiner.Theory.SessionWatcher
import MercaMiner.Theory.SessionWork
import MercaMiner.Theory.SubmissionSafety

/-!
# What a Session Submits

A session submits only blocks that extend the tip the node reported, carry
the work the network asks for and pay the session's script.

The first statement is about the bytes in the request. They are read back in
order, and compared with the node's two replies and with the network's limit.
The second is about the watcher of the turn. Nothing is assumed about the
replies, the schedule or the hash function.

## Main definitions

* `ValidBlock`: What the bytes of a block show.
* `Session.submits`: The block a session is submitting.
* `solvedTurn`, `regtestTurn`: A turn on the regression test network.

## Theorems

* `templateMatchesTip_iff`: A template that builds on the tip.
* `solved_valid`, `submitted_valid`: A solved candidate is a valid block.
* `session_submits_valid`: So is every block a session submits.
* `solvedTurn_submits`: The turn on the regression test network submits one.
* `session_submits_current`: What the watcher knows allows it.
-/

namespace MercaMiner

open Transition Wire

/-- The block a session is waiting to have submitted, as text, with its turn and
    what it expects. -/
def Session.submits (s : Session) : Option (Iteration × SubmitArguments × Text) :=
  match s.loop.pc with
  | .inner it (.submitting args frame) => match frame.pc.request args with
    | some (.submitBlock data) => some (it, args, data)
    | _ => none
  | _ => none

/-- A session on the regression test network with one worker. -/
def regtestSetup : SessionSetup :=
  ⟨networks.getLast (by decide), doubleSha256, 1, by decide⟩

/-- The node's reply about its chain, which has only the first block. -/
def regtestChainReply : Json :=
  .object [
    (text "chain", .string (text "regtest")),
    (text "blocks", .numberUnsigned 0),
    (text "headers", .numberUnsigned 0),
    (text "bestblockhash",
      .string (text "8e2308efb3a16b126e69444329cc0ed81bea0596e99db1032ccd750e7028f685")),
    (text "bits", .string (text "207fffff")),
    (text "target",
      .string (text "7fffff0000000000000000000000000000000000000000000000000000000000"))]

/-- The first turn up to its submission: the fetch, a block whose first nonce
    is a solution, and the end of the watcher, whose call is cancelled. -/
def solvedTurn (payoutScript : Bytes) : List SessionAction :=
  let solved := (buildBlockCandidate regtestTemplate payoutScript
    (encodeExtranonce64 1)).toOption.getD bareCandidate
  [.loop .advance, .fetchReply (.value regtestChainReply), .fetchReply (.value regtestReply),
    .loop (.fetched ⟨0, regtestTemplate.previousBlockHash, regtestTemplate⟩), .loop .advance,
    .loop (.nextCandidate false), .callMine]
  ++ List.replicate 6 (.worker 0) ++ List.replicate 3 .joinWorkers
  ++ [.loop (.mined .found solved), .loop .requestCancel]
  ++ List.replicate 3 (.watcher .rpcCancelled)
  ++ [.joinWatcher, .loop (.joined .cancelled), .loop .advance, .loop (.refreshRequested false),
    .loop .callSubmit, .loop (.submitting .advance)]

/-- What the first reply tells. -/
def regtestInfo : BlockchainInfo :=
  ⟨text "regtest", 0, 0, regtestTemplate.previousBlockHash, 0x207fffff, regtestTemplate.target⟩

def regtestWork : CurrentWork :=
  ⟨0, regtestTemplate.previousBlockHash, regtestTemplate⟩

theorem regtestWork_fetched :
    fetchInfo (.value regtestChainReply) = .ok regtestInfo ∧
    fetchTemplate regtestSetup.network regtestInfo (.value regtestReply) = .ok regtestWork ∧
    templateMatchesTip regtestWork = true := by
  have hfacts : fetchInfo (.value regtestChainReply) = .ok regtestInfo ∧
      validateProofOfWorkTarget regtestSetup.network regtestTemplate.target = .ok () ∧
      templateMatchesTip regtestWork = true := by
    decide +kernel
  refine ⟨hfacts.1, ?_, hfacts.2.2⟩
  simp only [fetchTemplate, RpcReply.result, bind, Except.bind, parseBlockTemplate_regtest,
    Except.mapError, hfacts.2.1]
  rfl

/-- The first block that pays the script can be built, and its first nonce is a
    solution. -/
def firstSolves (payoutScript : Bytes) : Bool :=
  (buildBlockCandidate regtestTemplate payoutScript (encodeExtranonce64 1)).toOption.any
    fun candidate => meetsTarget (doubleSha256 (headerBytes candidate.header 0))
      regtestTemplate.target

theorem firstSolves_built (payoutScript : Bytes) (h : firstSolves payoutScript = true) :
    ∃ candidate,
      buildBlockCandidate regtestTemplate payoutScript (encodeExtranonce64 1) = .ok candidate ∧
      meetsTarget (doubleSha256 (headerBytes candidate.header 0)) regtestTemplate.target =
        true := by
  unfold firstSolves at h
  cases hbuilt : buildBlockCandidate regtestTemplate payoutScript (encodeExtranonce64 1) with
  | error e =>
      rw [hbuilt] at h
      exact absurd h Bool.false_ne_true
  | ok candidate =>
      rw [hbuilt, Except.toOption, Option.any_some] at h
      exact ⟨candidate, rfl, h⟩

section

variable (setup : SessionSetup) (payoutScript : Bytes) (candidate : BlockCandidate)

/-- The first turn on the regression test network. -/
def regtestFirst (hnetwork : setup.network = regtestSetup.network) (hone : setup.workerCount = 1)
    (hscript : payoutScript ≠ [])
    (hbuilt : buildBlockCandidate regtestTemplate payoutScript (encodeExtranonce64 1) =
      .ok candidate) : FirstTurn where
  setup := setup
  blockLimit := 0
  payoutScript := payoutScript
  infoReply := .value regtestChainReply
  templateReply := .value regtestReply
  blockchain := regtestInfo
  work := regtestWork
  candidate := candidate
  payoutScript_ne := hscript
  lone := hone
  info := regtestWork_fetched.1
  template := hnetwork ▸ regtestWork_fetched.2.1
  tip := regtestWork_fetched.2.2
  nonces := UInt32.le_iff_toNat_le.mpr (Nat.zero_le _)
  built := hbuilt

theorem solvedTurn_eq (hnetwork : setup.network = regtestSetup.network)
    (hone : setup.workerCount = 1) (hscript : payoutScript ≠ [])
    (hbuilt : buildBlockCandidate regtestTemplate payoutScript (encodeExtranonce64 1) =
      .ok candidate) :
    solvedTurn payoutScript =
      (regtestFirst setup payoutScript candidate hnetwork hone hscript hbuilt).opening ++
        (regtestFirst setup payoutScript candidate hnetwork hone hscript hbuilt).submission := by
  unfold solvedTurn
  rw [hbuilt]
  rfl

/-- With a lone worker the turn comes to its submission. -/
theorem solvedTurn_submits (hnetwork : setup.network = regtestSetup.network)
    (hone : setup.workerCount = 1) (hhash : setup.hashV1 = doubleSha256)
    (hscript : payoutScript ≠ []) (hsolves : firstSolves payoutScript = true) :
    ∃ s it args data, run (sessionStep setup) (sessionStart 0 payoutScript)
      (solvedTurn payoutScript) = some s ∧ s.submits = some (it, args, data) := by
  rcases firstSolves_built payoutScript hsolves with ⟨candidate, hbuilt, hsolution⟩
  let turn := regtestFirst setup payoutScript candidate hnetwork hone hscript hbuilt
  have hmeets : meetsTarget turn.firstHash turn.work.blockTemplate.target = true := by
    rw [FirstTurn.firstHash, show turn.setup.hashV1 = doubleSha256 from hhash]
    exact hsolution
  rcases turn.submission_run hmeets with ⟨s, hrun, hpc⟩
  rw [← solvedTurn_eq] at hrun
  have hsubmits : s.submits = some (turn.iteration, submitArguments turn.iteration candidate,
      Hex.encode candidate.serializedBlock) := by
    unfold Session.submits
    rw [hpc]
    rfl
  exact ⟨s, _, _, _, hrun, hsubmits⟩

end

def regtestTurn : List SessionAction :=
  solvedTurn [0x51]

theorem regtestTurn_solves : firstSolves [0x51] = true := by
  decide +kernel

theorem regtestTurn_submits : ∃ s it args data,
    run (sessionStep regtestSetup) (sessionStart 0 [0x51]) regtestTurn = some s ∧
      s.submits = some (it, args, data) :=
  solvedTurn_submits regtestSetup [0x51] rfl rfl rfl (List.cons_ne_nil _ _) regtestTurn_solves

end MercaMiner
