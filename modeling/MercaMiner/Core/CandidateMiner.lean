import MercaMiner.Core.BlockBuilder
import MercaMiner.Core.Scanner

/-!
# Candidates Being Mined

Checking a candidate before it is mined and patching the nonce into it
afterwards, from `candidate_miner.cpp`.

## Main definitions

* `validateBlockCandidateForMining`: The block must start with its header.
* `applySolvedNonce`: The header and the block with another nonce.
* `mineBlockCandidate`: Mining with one scanner.
* `bareCandidate`: A candidate without transactions.

## Theorems

* `validate_ok`: When a candidate passes.
* `applySolvedNonce_block`: What the patched block is.
-/

namespace MercaMiner

open Outcome

/-- The exceptions of a mining call: bad arguments of one kind or another. -/
inductive MineError where
  | shortBlock
  | headerMismatch
  | zeroWorkers
  | beginExceedsEnd
  deriving DecidableEq

def MineError.what : MineError → String
  | shortBlock => "candidate block is shorter than its header"
  | headerMismatch => "candidate header does not match serialized block"
  | zeroWorkers => "worker count must be greater than zero"
  | beginExceedsEnd => "nonce range begin exceeds nonce range end"

def validateBlockCandidateForMining (candidate : BlockCandidate) : Except MineError Unit := do
  check (¬candidate.serializedBlock.length < BlockHeader.serializedSize) .shortBlock
  check (candidate.serializedBlock.take BlockHeader.serializedSize = candidate.header.serialize)
    .headerMismatch

/-- Copy the header with the new nonce over the start of the block. -/
def applySolvedNonce (candidate : BlockCandidate) (nonce : UInt32) : BlockCandidate :=
  let header := { candidate.header with nonce := nonce }
  { candidate with
    header := header
    serializedBlock := header.serialize ++ candidate.serializedBlock.drop header.serialize.length }

/-- Mining a candidate with one scanner, which reads one flag of the caller.
    The candidate is changed only when a nonce was found. -/
def mineBlockCandidate {Pad : Type} (hashV1 : Bytes → Pad → UInt256 × Pad)
    (candidate : BlockCandidate) (target : UInt256) (nonceBegin nonceEnd : UInt32)
    (cancelled : Nat → Flag) (pad : Pad) :
    Except MineError (Option (ScanResult × BlockCandidate × Pad)) := do
  validateBlockCandidateForMining candidate
  let scanned ← (scan hashV1 candidate.header target (fun i => ⟨cancelled i, none, none⟩)
    nonceBegin nonceEnd pad).mapError fun | .beginExceedsEnd => MineError.beginExceedsEnd
  return scanned.map fun (result, pad) =>
    if result.status ≠ .found then (result, candidate, pad)
    else (result, applySolvedNonce candidate result.nonce, pad)

/-- A candidate passes exactly when its block starts with its header. -/
theorem validate_ok (candidate : BlockCandidate) (u : Unit) :
    validateBlockCandidateForMining candidate = .ok u ↔
      ∃ body, candidate.serializedBlock = candidate.header.serialize ++ body := by
  have hlen := candidate.header.length_serialize
  simp only [validateBlockCandidateForMining, bind_ok, check_ok, exists_const]
  constructor
  · rintro ⟨_, heq⟩
    exact ⟨candidate.serializedBlock.drop BlockHeader.serializedSize, by
      rw [← heq, List.take_append_drop]⟩
  · rintro ⟨body, hbody⟩
    refine ⟨?_, ?_⟩
    · rw [hbody, List.length_append, hlen]
      omega
    · rw [hbody, List.take_left' hlen]

theorem applySolvedNonce_block (candidate : BlockCandidate) (nonce : UInt32) (body : Bytes)
    (hbody : candidate.serializedBlock = candidate.header.serialize ++ body) :
    (applySolvedNonce candidate nonce).serializedBlock
      = headerBytes candidate.header nonce ++ body := by
  have hlen : candidate.header.serialize.length
      = (BlockHeader.serialize { candidate.header with nonce := nonce }).length := by
    rw [BlockHeader.length_serialize, BlockHeader.length_serialize]
  simp only [applySolvedNonce, headerBytes, hbody, List.drop_left' hlen]

/-- The smallest candidate that can be mined: a block that is only a header. -/
def bareCandidate : BlockCandidate :=
  let header : BlockHeader := ⟨1, UInt256.zero, UInt256.zero, 0, 0x207fffff, 0⟩
  ⟨header, ⟨[], [], [], UInt256.zero, UInt256.zero⟩, header.serialize⟩

example : validateBlockCandidateForMining bareCandidate = .ok () := by decide +kernel

end MercaMiner
