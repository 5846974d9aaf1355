import MercaMiner.Core.CandidateCalls
import MercaMiner.Theory.BlockForm
import MercaMiner.Theory.MineInvariant

/-!
# What Mining Changes of a Candidate

The nonce lives in two places, the header and the first eighty bytes of the
block, and every call that writes it writes both.

A call is summed up by its outcome: the candidate afterwards is the one
before with the nonce written that the outcome reports, or the same one if it
reports none. Writing a second nonce overwrites the first, so a whole sequence
of calls is summed up by the last nonce written. What a written candidate has
in common with the original is then one statement about one write.

## Main definitions

* `Consistent`: The block starts with the header.
* `lastWritten`: The last nonce a sequence of calls wrote.
* `FrameKept`: What all calls leave alone.

## Theorems

* `consistent_iff`: The check before mining accepts the consistent candidates.
* `perform_eq`: What one call does to the candidate.
* `performAll_eq`: What a sequence of calls does to it.
* `candidate_frame`: Candidates stay consistent and change in the nonce only.
-/

namespace MercaMiner

open Transition

/-- The block is long enough for a header and starts with the candidate's. -/
def Consistent (candidate : BlockCandidate) : Prop :=
  BlockHeader.serializedSize ≤ candidate.serializedBlock.length ∧
  candidate.serializedBlock.take BlockHeader.serializedSize = candidate.header.serialize

theorem consistent_iff (candidate : BlockCandidate) :
    Consistent candidate ↔ validateBlockCandidateForMining candidate = .ok () := by
  simp only [validateBlockCandidateForMining, Outcome.bind_ok, Outcome.check_ok, exists_const,
    not_lt, Consistent]

/-- The last nonce written in a sequence of calls. -/
def lastWritten (outcomes : List CallOutcome) : Option UInt32 :=
  (outcomes.filterMap CallOutcome.written).getLast?

/-- A candidate with the given nonce written, if one is given. -/
def withWritten (candidate : BlockCandidate) (written : Option UInt32) : BlockCandidate :=
  written.elim candidate (applySolvedNonce candidate)

/-- A returned parallel call wrote the nonce it reports, or nothing. -/
theorem mine_returned_eq (hashV1 : Bytes → UInt256) (candidate : BlockCandidate)
    (target : UInt256) (args : MineArguments) (c : MineContext) (s₀ : MineState)
    (hstart : mineStart hashV1 candidate target args = .ok (c, s₀)) (acts : List MineAction)
    (s : MineState) (hrun : run (mineStep c) s₀ acts = some s) (result : ParallelMineResult)
    (after : BlockCandidate) (hreturned : s.main = .returned result after) :
    after = withWritten candidate (CallOutcome.written (.returned result.status result.nonce)) := by
  rcases mine_reachable_ok hashV1 candidate target args c s₀ hstart acts s hrun with
    ⟨hentered, hok⟩
  -- The calling thread's invariant says how the three outcomes leave the
  -- candidate.
  have hmain := hok.main
  rw [MainOk, hreturned] at hmain
  rcases hmain with ⟨results, _, _, _, hconcluded⟩
  rw [← hentered.candidate_eq]
  cases hstatus : result.status with
  | found =>
      rw [hstatus] at hconcluded
      rcases hconcluded with ⟨i, best, _, _, hnonce, _, hafter⟩
      rw [hafter, hnonce]
      rfl
  | exhausted =>
      rw [hstatus] at hconcluded
      exact hconcluded.2.2.2
  | cancelled =>
      rw [hstatus] at hconcluded
      exact hconcluded.2.2

/-- What one call does to the candidate. -/
theorem perform_eq (call : CandidateCall) (candidate next : BlockCandidate)
    (outcome : CallOutcome) (h : call.perform candidate = some (outcome, next)) :
    next = withWritten candidate outcome.written := by
  cases call with
  | mineBlockCandidate scanner target nonceBegin nonceEnd =>
      simp only [CandidateCall.perform, mineBlockCandidateInPlace_run] at h
      -- The call throws before or in the scan, or returns what was scanned.
      cases hvalid : validateBlockCandidateForMining candidate with
      | error e =>
          simp only [hvalid, Option.map_some, Option.some.injEq, Prod.mk.injEq] at h
          rw [← h.1, ← h.2]
          rfl
      | ok u =>
          rw [hvalid] at h
          rcases hscan : scanner candidate.header target nonceBegin nonceEnd with _ | ⟨e | result⟩
          · exact absurd h (by simp only [hscan, Option.map_none, reduceCtorEq,
              not_false_eq_true])
          · simp only [hscan, Option.map_some, Option.some.injEq, Prod.mk.injEq] at h
            rw [← h.1, ← h.2]
            rfl
          · simp only [hscan, Option.map_some, Option.some.injEq, Prod.mk.injEq] at h
            rw [← h.1, ← h.2, CallOutcome.of]
            -- Only a found nonce is written.
            cases result.status <;> rfl
  | mine hashV1 target args acts =>
      simp only [CandidateCall.perform, mineInPlace] at h
      cases hstart : mineStart hashV1 candidate target args with
      | error e =>
          simp only [hstart, Option.map_some, Option.some.injEq, Prod.mk.injEq] at h
          rw [← h.1, ← h.2]
          rfl
      | ok entered =>
          rcases entered with ⟨c, s₀⟩
          rw [hstart] at h
          cases hrun : run (mineStep c) s₀ acts with
          | none => exact absurd h (by simp only [hrun, Option.map_none, reduceCtorEq,
              not_false_eq_true])
          | some s =>
              simp only [hrun, Option.map_some, Option.some.injEq, Prod.mk.injEq] at h
              cases hmain : s.main with
              | returned result after =>
                  simp only [hmain] at h
                  rw [← h.1, ← h.2]
                  exact mine_returned_eq hashV1 candidate target args c s₀ hstart acts s hrun
                    result after hmain
              | _ =>
                  simp only [hmain] at h
                  rw [← h.1, ← h.2]
                  rfl
  | applySolvedNonce nonce =>
      simp only [CandidateCall.perform, applySolvedNonceInPlace_eq, Option.map_some,
        Option.some.injEq, Prod.mk.injEq] at h
      rw [← h.1, ← h.2]
      rfl

/-- A second nonce overwrites the first, in the header and in the block. -/
theorem applySolvedNonce_twice (candidate : BlockCandidate) (first second : UInt32) :
    applySolvedNonce (applySolvedNonce candidate first) second
      = applySolvedNonce candidate second := by
  simp only [applySolvedNonce, BlockHeader.length_serialize,
    List.drop_left' (BlockHeader.length_serialize _)]

theorem withWritten_twice (candidate : BlockCandidate) (first second : Option UInt32) :
    withWritten (withWritten candidate first) second = withWritten candidate (second.or first) := by
  cases second with
  | none => rfl
  | some nonce =>
      cases first with
      | none => rfl
      | some earlier => exact applySolvedNonce_twice candidate earlier nonce

theorem lastWritten_cons (outcome : CallOutcome) (outcomes : List CallOutcome) :
    lastWritten (outcome :: outcomes) = (lastWritten outcomes).or outcome.written := by
  unfold lastWritten
  cases hwritten : outcome.written with
  | none => rw [List.filterMap_cons_none hwritten, Option.or_none]
  | some nonce =>
      rw [List.filterMap_cons_some hwritten, List.getLast?_cons]
      cases (outcomes.filterMap CallOutcome.written).getLast? <;> rfl

/-- A sequence of calls leaves the candidate with the last nonce written. -/
theorem performAll_eq (calls : List CandidateCall) (start final : BlockCandidate)
    (outcomes : List CallOutcome) (h : performAll calls start = some (outcomes, final)) :
    final = withWritten start (lastWritten outcomes) := by
  induction calls generalizing start outcomes with
  | nil =>
      simp only [performAll, Option.some.injEq, Prod.mk.injEq] at h
      rw [← h.1, ← h.2]
      rfl
  | cons call calls ih =>
      simp only [performAll, Option.bind_eq_bind, Option.bind_eq_some_iff, Option.pure_def,
        Option.some.injEq, Prod.exists, Prod.mk.injEq] at h
      rcases h with ⟨outcome, next, hcall, rest, last, hrest, rfl, rfl⟩
      rw [ih next rest hrest, perform_eq call start next outcome hcall, withWritten_twice,
        lastWritten_cons]

/-- What all calls leave alone: everything but the header's nonce and the four
    bytes of the block at offset 76. -/
structure FrameKept (start final : BlockCandidate) : Prop where
  coinbase : final.coinbase = start.coinbase
  header : final.header = { start.header with nonce := final.header.nonce }
  length : final.serializedBlock.length = start.serializedBlock.length
  outside : ∀ i, i < 76 ∨ 80 ≤ i → final.serializedBlock[i]? = start.serializedBlock[i]?

theorem FrameKept.refl (candidate : BlockCandidate) : FrameKept candidate candidate :=
  ⟨rfl, rfl, rfl, fun _ _ => rfl⟩

/-- The header of a consistent block ends in its nonce. -/
theorem consistent_bytes (candidate : BlockCandidate) (h : Consistent candidate) :
    (candidate.serializedBlock.drop 76).take 4
      = LittleEndian.bytes 4 candidate.header.nonce.toNat := by
  have hsplit := BlockHeader.serialize_nonce candidate.header candidate.header.nonce
  have hfront := BlockHeader.length_serializeFront candidate.header
  have hstart : candidate.serializedBlock.take 80 = candidate.header.serializeFront
      ++ BlockHeader.writeLE32 candidate.header.nonce := h.2.trans hsplit
  rw [← BlockHeader.writeLE32_eq]
  calc (candidate.serializedBlock.drop 76).take 4
      = (candidate.serializedBlock.take 80).drop 76 := List.take_drop
    _ = BlockHeader.writeLE32 candidate.header.nonce := by
        rw [hstart, List.drop_left' hfront]

/-- Writing a nonce into a consistent candidate keeps it consistent and changes
    the nonce only. -/
theorem applySolvedNonce_frame (start : BlockCandidate) (nonce : UInt32)
    (h : Consistent start) :
    Consistent (applySolvedNonce start nonce) ∧ FrameKept start (applySolvedNonce start nonce) := by
  have hlen := BlockHeader.length_serialize { start.header with nonce := nonce }
  -- The new block is the new header and the old rest.
  have hblock : (applySolvedNonce start nonce).serializedBlock
      = BlockHeader.serialize { start.header with nonce := nonce }
        ++ start.serializedBlock.drop 80 := by
    rw [applySolvedNonce, hlen]
    rfl
  have hfront := BlockHeader.length_serializeFront start.header
  rcases h with ⟨hsize, hstart⟩
  rw [BlockHeader.serializedSize] at hsize hstart hlen
  refine ⟨⟨?_, ?_⟩, rfl, rfl, ?_, fun i hi => ?_⟩
  · rw [hblock, List.length_append, hlen]
    exact Nat.le_add_right _ _
  · rw [hblock, BlockHeader.serializedSize, List.take_left' hlen]
    rfl
  · rw [hblock, List.length_append, hlen, List.length_drop]
    omega
  · rw [hblock]
    rcases hi with hlow | hhigh
    · -- The first 76 bytes of both headers are the same.
      have hboth : start.serializedBlock[i]? = (BlockHeader.serialize start.header)[i]? := by
        rw [← hstart, List.getElem?_take_of_lt (by omega)]
      have hsame := BlockHeader.serialize_nonce start.header start.header.nonce
      rw [hboth, List.getElem?_append_left (by omega), BlockHeader.serialize_nonce,
        List.getElem?_append_left (by omega)]
      calc start.header.serializeFront[i]?
          = (start.header.serializeFront ++ BlockHeader.writeLE32 start.header.nonce)[i]? :=
            (List.getElem?_append_left (by omega)).symm
        _ = (BlockHeader.serialize start.header)[i]? := congrArg (fun b => b[i]?) hsame.symm
    · rw [List.getElem?_append_right (by omega), hlen, List.getElem?_drop,
        show 80 + (i - 80) = i by omega]

/-- Blocks come out of the builder consistent, and no sequence of calls changes
    that. Whatever is called, with whatever arguments, scanner, schedule and
    flags, and whether it returns or throws, the candidate differs from the
    start in the nonce only, in the header and in its four bytes of the block,
    and the nonce is the last one written. A call that finds nothing or throws
    changes nothing. -/
theorem candidate_frame :
    (∀ t payoutScript extranonce candidate,
      buildBlockCandidate t payoutScript extranonce = .ok candidate →
      Consistent candidate ∧ validateBlockCandidateForMining candidate = .ok ()) ∧
    (∀ (call : CandidateCall) candidate next outcome,
      call.perform candidate = some (outcome, next) →
      ((∃ e, outcome = .threw e) ∨
        ∃ status nonce, outcome = .returned status nonce ∧ status ≠ .found) →
      next = candidate) ∧
    ∀ start, Consistent start → ∀ calls outcomes final,
      performAll calls start = some (outcomes, final) →
      Consistent final ∧ FrameKept start final ∧
      final.header.nonce = (lastWritten outcomes).getD start.header.nonce ∧
      (final.serializedBlock.drop 76).take 4
        = LittleEndian.bytes 4 ((lastWritten outcomes).getD start.header.nonce).toNat := by
  refine ⟨fun t payoutScript extranonce candidate hbuild => ?_,
    fun call candidate next outcome hcall hnothing => ?_,
    fun start hstart calls outcomes final hrun => ?_⟩
  · have hvalid := built_valid t payoutScript extranonce candidate hbuild
    exact ⟨(consistent_iff candidate).mpr hvalid, hvalid⟩
  · rw [perform_eq call candidate next outcome hcall]
    rcases hnothing with ⟨e, rfl⟩ | ⟨status, nonce, rfl, hstatus⟩
    · rfl
    · cases status with
      | found => exact absurd rfl hstatus
      | _ => rfl
  · -- All calls together are one write of the last nonce, or none.
    rw [performAll_eq calls start final outcomes hrun]
    cases lastWritten outcomes with
    | none => exact ⟨hstart, FrameKept.refl start, rfl, consistent_bytes start hstart⟩
    | some nonce =>
        rcases applySolvedNonce_frame start nonce hstart with ⟨hconsistent, hframe⟩
        exact ⟨hconsistent, hframe, rfl, consistent_bytes _ hconsistent⟩

/-- On the smallest candidate, two nonces written with a call that throws
    between them leave the second one. -/
theorem candidate_frame_bare :
    ∃ final, performAll [.applySolvedNonce 7,
        .mine (fun _ => UInt256.zero) UInt256.zero ⟨5, 3, 1, none, none, none, none⟩ [],
        .applySolvedNonce 9] bareCandidate
        = some ([.applied 7, .threw (.invalid .beginExceedsEnd), .applied 9], final) ∧
      Consistent final ∧ FrameKept bareCandidate final ∧ final.header.nonce = 9 := by
  have hstart : Consistent bareCandidate := (consistent_iff _).mpr (by decide +kernel)
  have hrun : performAll [.applySolvedNonce 7,
      .mine (fun _ => UInt256.zero) UInt256.zero ⟨5, 3, 1, none, none, none, none⟩ [],
      .applySolvedNonce 9] bareCandidate
      = some ([.applied 7, .threw (.invalid .beginExceedsEnd), .applied 9],
          applySolvedNonce (applySolvedNonce bareCandidate 7) 9) := by decide +kernel
  rcases candidate_frame.2.2 bareCandidate hstart _ _ _ hrun with
    ⟨hconsistent, hframe, hnonce, _⟩
  exact ⟨_, hrun, hconsistent, hframe, hnonce⟩

end MercaMiner
