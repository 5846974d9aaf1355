import MercaMiner.Basis.Transition
import MercaMiner.Core.ParallelMiner

/-!
# Calls on a Candidate Object

The calls that take a candidate by reference, as computations on the object:
what was written before an exception stays written.

The two mining paths are the ones of `candidate_miner.cpp` and
`parallel_miner.cpp`. The scanner of the first is a parameter, since it takes
the header by constant reference: whatever it returns or throws, it does not
touch the candidate. Of the second, a schedule that stops before the call has
returned stands for an exception at that point.

## Main definitions

* `CandidateM`: Computations on a candidate that may throw.
* `applySolvedNonceInPlace`, `mineBlockCandidateInPlace`, `mineInPlace`: The
  three calls.
* `CandidateCall`, `CandidateCall.perform`: One call with its arguments.
* `performAll`: A sequence of calls, each of which may throw.

## Theorems

* `mineBlockCandidateInPlace_eq`: The call with a scanner is
  `mineBlockCandidate`.
-/

namespace MercaMiner

/-- The exceptions of a call: a rejected argument, or one of the hash function
    or the system. -/
inductive CallException where
  | invalid (e : MineError)
  | other (what : Text)
  deriving DecidableEq

/-- A computation on a candidate object. It may fail to return at all. -/
abbrev CandidateM (α : Type) := ExceptT CallException (StateT BlockCandidate Option) α

/-- A scanner, given the header, the target and the range. -/
abbrev Scanner :=
  BlockHeader → UInt256 → UInt32 → UInt32 → Option (Except CallException ScanResult)

/-- The check, which reads the candidate only. -/
def validateInPlace : CandidateM Unit := fun candidate =>
  match validateBlockCandidateForMining candidate with
  | .error e => some (.error (.invalid e), candidate)
  | .ok _ => some (.ok (), candidate)

/-- Calling a scanner on the candidate's header. -/
def scanInPlace (scanner : Scanner) (target : UInt256) (nonceBegin nonceEnd : UInt32) :
    CandidateM ScanResult := fun candidate =>
  (scanner candidate.header target nonceBegin nonceEnd).map fun result => (result, candidate)

/-- The nonce is written to the header, and the header over the block. -/
def applySolvedNonceInPlace (nonce : UInt32) : CandidateM Unit := do
  modify fun candidate => { candidate with header := { candidate.header with nonce := nonce } }
  let solvedHeader := (← get).header.serialize
  modify fun candidate => { candidate with
    serializedBlock := solvedHeader ++ candidate.serializedBlock.drop solvedHeader.length }

def mineBlockCandidateInPlace (scanner : Scanner) (target : UInt256)
    (nonceBegin nonceEnd : UInt32) : CandidateM ScanResult := do
  validateInPlace
  let result ← scanInPlace scanner target nonceBegin nonceEnd
  if result.status ≠ .found then
    return result
  else
    applySolvedNonceInPlace result.nonce
    return result

/-- A parallel call under a schedule. -/
def mineInPlace (hashV1 : Bytes → UInt256) (target : UInt256) (args : MineArguments)
    (acts : List MineAction) : CandidateM ParallelMineResult := fun candidate =>
  match mineStart hashV1 candidate target args with
  | .error e => some (.error (.invalid e), candidate)
  | .ok (c, s₀) => (Transition.run (mineStep c) s₀ acts).map fun s =>
      match s.main with
      | .returned result after => (.ok result, after)
      -- The calling thread writes to the candidate in its last step only.
      | _ => (.error (.other []), candidate)

/-- A call on a candidate with its arguments. -/
inductive CandidateCall where
  | mineBlockCandidate (scanner : Scanner) (target : UInt256) (nonceBegin nonceEnd : UInt32)
  | mine (hashV1 : Bytes → UInt256) (target : UInt256) (args : MineArguments)
      (acts : List MineAction)
  | applySolvedNonce (nonce : UInt32)

/-- What the caller sees of a call. -/
inductive CallOutcome where
  | threw (e : CallException)
  | returned (status : ScanStatus) (nonce : UInt32)
  | applied (nonce : UInt32)
  deriving DecidableEq

/-- A call as the caller sees it. -/
def CallOutcome.of {α : Type} (result : Except CallException α) (onReturn : α → CallOutcome) :
    CallOutcome :=
  match result with
  | .error e => .threw e
  | .ok x => onReturn x

def CandidateCall.perform (call : CandidateCall) (candidate : BlockCandidate) :
    Option (CallOutcome × BlockCandidate) :=
  match call with
  | .mineBlockCandidate scanner target nonceBegin nonceEnd =>
      (mineBlockCandidateInPlace scanner target nonceBegin nonceEnd candidate).map fun p =>
        (CallOutcome.of p.1 fun result => .returned result.status result.nonce, p.2)
  | .mine hashV1 target args acts =>
      (mineInPlace hashV1 target args acts candidate).map fun p =>
        (CallOutcome.of p.1 fun result => .returned result.status result.nonce, p.2)
  | .applySolvedNonce nonce =>
      (applySolvedNonceInPlace nonce candidate).map fun p =>
        (CallOutcome.of p.1 fun _ => .applied nonce, p.2)

/-- A sequence of calls on one candidate, each caught if it throws. -/
def performAll : List CandidateCall → BlockCandidate → Option (List CallOutcome × BlockCandidate)
  | [], candidate => some ([], candidate)
  | call :: calls, candidate => do
      let (outcome, next) ← call.perform candidate
      let (outcomes, final) ← performAll calls next
      return (outcome :: outcomes, final)

/-- The nonce a call wrote into the candidate, going by its outcome. -/
def CallOutcome.written : CallOutcome → Option UInt32
  | .returned .found nonce => some nonce
  | .applied nonce => some nonce
  | _ => none

theorem applySolvedNonceInPlace_eq (nonce : UInt32) (candidate : BlockCandidate) :
    applySolvedNonceInPlace nonce candidate
      = some (.ok (), applySolvedNonce candidate nonce) := rfl

theorem candidateM_bind {α β : Type} (x : CandidateM α) (f : α → CandidateM β)
    (candidate : BlockCandidate) :
    (x >>= f : CandidateM β) candidate = match x candidate with
      | none => none
      | some (.error e, next) => some (.error e, next)
      | some (.ok a, next) => f a next := by
  simp only [bind, ExceptT.bind, ExceptT.mk, StateT.bind]
  rcases x candidate with _ | ⟨_ | _, _⟩ <;> rfl

/-- A call with a scanner: the candidate is checked, scanned and, if a nonce
    was found, written to. -/
theorem mineBlockCandidateInPlace_run (scanner : Scanner) (target : UInt256)
    (nonceBegin nonceEnd : UInt32) (candidate : BlockCandidate) :
    mineBlockCandidateInPlace scanner target nonceBegin nonceEnd candidate
      = match validateBlockCandidateForMining candidate with
        | .error e => some (.error (.invalid e), candidate)
        | .ok _ => (scanner candidate.header target nonceBegin nonceEnd).map fun
            | .error e => (.error e, candidate)
            | .ok result => (.ok result, if result.status ≠ .found then candidate
                else applySolvedNonce candidate result.nonce) := by
  unfold mineBlockCandidateInPlace
  rw [candidateM_bind, validateInPlace]
  cases validateBlockCandidateForMining candidate with
  | error e => rfl
  | ok u =>
      simp only [candidateM_bind, scanInPlace]
      rcases scanner candidate.header target nonceBegin nonceEnd with _ | ⟨e | result⟩
      · rfl
      · rfl
      · simp only [Option.map_some]
        -- Only a found nonce is written, and the write cannot fail.
        by_cases hfound : result.status ≠ .found
        · rw [if_pos hfound, if_pos hfound]
          rfl
        · rw [if_neg hfound, if_neg hfound, candidateM_bind, applySolvedNonceInPlace_eq]
          rfl

/-- The scanner of `scanner.cpp`, reading one flag and working in a pad. -/
def padScanner {Pad : Type} (hashV1 : Bytes → Pad → UInt256 × Pad) (cancelled : Nat → Flag)
    (pad : Pad) : Scanner := fun header target nonceBegin nonceEnd =>
  match scan hashV1 header target (fun i => ⟨cancelled i, none, none⟩) nonceBegin nonceEnd pad with
  | .error .beginExceedsEnd => some (.error (.invalid .beginExceedsEnd))
  | .ok found => found.map fun p => .ok p.1

/-- With that scanner, the call on the object is the one on the value. -/
theorem mineBlockCandidateInPlace_eq {Pad : Type} (hashV1 : Bytes → Pad → UInt256 × Pad)
    (target : UInt256) (nonceBegin nonceEnd : UInt32) (cancelled : Nat → Flag) (pad : Pad)
    (candidate : BlockCandidate) :
    mineBlockCandidateInPlace (padScanner hashV1 cancelled pad) target nonceBegin nonceEnd candidate
      = match mineBlockCandidate hashV1 candidate target nonceBegin nonceEnd cancelled pad with
        | .error e => some (.error (.invalid e), candidate)
        | .ok found => found.map fun p => (.ok p.1, p.2.1) := by
  rw [mineBlockCandidateInPlace_run, mineBlockCandidate]
  cases validateBlockCandidateForMining candidate with
  | error e => rfl
  | ok u =>
      simp only [padScanner, bind, Except.bind]
      cases scan hashV1 candidate.header target (fun i => ⟨cancelled i, none, none⟩) nonceBegin
          nonceEnd pad with
      | error e =>
          cases e
          rfl
      | ok found =>
          simp only [Except.mapError, pure, Except.pure, Option.map_map]
          rcases found with _ | ⟨result, pad'⟩
          · rfl
          · simp only [Option.map_some, Function.comp_apply]
            by_cases hfound : result.status ≠ .found
            · rw [if_pos hfound, if_pos hfound]
            · rw [if_neg hfound, if_neg hfound]

end MercaMiner
