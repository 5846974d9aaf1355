import MercaMiner.Core.Network
import MercaMiner.Theory.BlockForm
import MercaMiner.Theory.MineOutcome
import MercaMiner.Theory.TargetValue
import MercaMiner.Theory.TemplateFacts

/-!
# Mined Blocks

The proof of work of a block the miner found, from the parsed template to the
patched bytes.

The statement is about the bytes of the block and nothing else: the header is
read back from them, the compact target is read from its four bytes, and the
hash is the hash of the first eighty.

## Theorems

* `mined_block`: A found block carries the template's header and its work.
-/

namespace MercaMiner

open Transition

/-- The bytes of a header with the nonce written in: read back, they are that
    header, and the compact target is at its place. -/
theorem headerBytes_read (header : BlockHeader) (nonce : UInt32) (body : Bytes) :
    BlockHeader.reader ((headerBytes header nonce ++ body).take 80)
      = some ({ header with nonce := nonce }, []) ∧
    LittleEndian.value (((headerBytes header nonce ++ body).drop 72).take 4)
      = header.bits.toNat := by
  have hlen : (headerBytes header nonce).length = 80 := BlockHeader.length_serialize _
  refine ⟨?_, ?_⟩
  · rw [List.take_left' hlen]
    have hread := BlockHeader.serialize_decodes { header with nonce := nonce } []
    rw [List.append_nil] at hread
    exact hread
  · let front := BlockHeader.writeLE32 header.version.toUInt32 ++ (header.previousBlock.bytes ++
      (header.merkleRoot.bytes ++ BlockHeader.writeLE32 header.time))
    have hfront : front.length = 72 := by
      simp only [front, List.length_append, BlockHeader.length_writeLE32,
        header.previousBlock.size_eq, header.merkleRoot.size_eq]
    have hsplit : headerBytes header nonce ++ body
        = front ++ (BlockHeader.writeLE32 header.bits
          ++ (BlockHeader.writeLE32 nonce ++ body)) := by
      simp only [headerBytes, BlockHeader.serialize, front, List.append_assoc]
    rw [hsplit, List.drop_left' hfront,
      List.take_left' (BlockHeader.length_writeLE32 header.bits), BlockHeader.writeLE32_eq,
      LittleEndian.value_bytes]
    exact Nat.mod_eq_of_lt header.bits.toNat_lt

/-- A block found by mining a parsed template, for every hash function, every
    way of building the candidate, every number of workers and every schedule.
    Its first eighty bytes are a header with the template's fields and the
    reported nonce, which is in the template's range. The hash of these bytes
    is at most the integer their compact target denotes, and at most the
    network's limit. -/
theorem mined_block (hashV1 : Bytes → UInt256) (value : Json) (t : BlockTemplate)
    (network : NetworkIdentity) (payoutScript extranonce : Bytes) (candidate : BlockCandidate)
    (args : MineArguments) (hparse : parseBlockTemplate value = .ok t)
    (htarget : validateProofOfWorkTarget network t.target = .ok ())
    (hbuild : buildBlockCandidate t payoutScript extranonce = .ok candidate)
    (hbegin : args.nonceBegin = t.nonceMin) (hend : args.nonceEnd = t.nonceMax)
    (hworkers : args.workerCount ≠ 0) :
    ∃ c s₀, mineStart hashV1 candidate t.target args = .ok (c, s₀) ∧
      ∀ acts s result after, run (mineStep c) s₀ acts = some s →
        s.main = .returned result after → result.status = .found →
        ∃ header powLimit,
          BlockHeader.reader (after.serializedBlock.take 80) = some (header, []) ∧
          header.version = t.version ∧ header.previousBlock = t.previousBlockHash ∧
          header.time = t.currentTime ∧ header.bits = t.bits ∧
          header.nonce = result.nonce ∧ t.nonceMin ≤ header.nonce ∧ header.nonce ≤ t.nonceMax ∧
          LittleEndian.value (hashV1 (after.serializedBlock.take 80)).bytes
            ≤ compactValue (UInt32.ofNat
              (LittleEndian.value ((after.serializedBlock.drop 72).take 4))) ∧
          UInt256.fromHexBE network.powLimit = some powLimit ∧
          LittleEndian.value (hashV1 (after.serializedBlock.take 80)).bytes ≤ powLimit.value := by
  have hfacts := parseBlockTemplate_facts value t hparse
  have hvalid := built_valid t payoutScript extranonce candidate hbuild
  rcases built_header t payoutScript extranonce candidate hbuild with
    ⟨hversion, hprevious, htime, hbitsField⟩
  rcases (validateProofOfWorkTarget_ok network t.target ()).mp htarget with
    ⟨powLimit, hpow, htargetPow⟩
  have horder : args.nonceBegin ≤ args.nonceEnd := by
    rw [hbegin, hend]
    exact hfacts.nonces
  rcases mineStart_isOk hashV1 candidate t.target args hvalid horder hworkers with ⟨c, s₀, hstart⟩
  refine ⟨c, s₀, hstart, fun acts s result after hrun hmain hfound => ?_⟩
  rcases mine_reachable_ok hashV1 candidate t.target args c s₀ hstart acts s hrun with
    ⟨hentered, hok⟩
  -- The winner is a worker whose nonce was checked against the target.
  have hmainOk := hok.main
  rw [MainOk, hmain] at hmainOk
  rcases hmainOk with ⟨results, hresults, _, _, hconcluded⟩
  rw [hfound] at hconcluded
  rcases hconcluded with ⟨i, best, _, ⟨hbest, hstatus, _⟩, hnonce, _, hafter⟩
  rcases (results_get s results hresults i best).mp hbest with ⟨w, hw, hdone⟩
  rcases found_sound hashV1 candidate t.target args c _ s hentered hok i w best hw
    hdone hstatus with ⟨_, hlow, hhigh, hhash, hmeets⟩
  rcases hentered.headed with ⟨body, hbody⟩
  have hblock := applySolvedNonce_block candidate best.nonce body hbody
  rw [hafter, hentered.candidate_eq, hblock]
  rcases headerBytes_read candidate.header best.nonce body with ⟨hread, hbits⟩
  have htake : (headerBytes candidate.header best.nonce ++ body).take 80
      = headerBytes candidate.header best.nonce :=
    List.take_left' (BlockHeader.length_serialize _)
  have hwork : best.hash.value ≤ t.target.value :=
    (UInt256.le_iff_value _ _).mp (of_decide_eq_true hmeets)
  have hderived := (validTarget_value t.bits t.target hfacts.target).1
  rw [hhash] at hwork
  refine ⟨_, powLimit, hread, ?_⟩
  rw [hbegin] at hlow
  rw [hend] at hhigh
  rw [hbits, htake, UInt32.ofNat_toNat, hbitsField, ← hderived]
  exact ⟨hversion, hprevious, htime, rfl, hnonce.symm, UInt32.le_iff_toNat_le.mpr hlow,
    UInt32.le_iff_toNat_le.mpr hhigh, hwork, hpow, Nat.le_trans hwork htargetPow⟩

/-- A block for the regression test network, mined by one worker. -/
theorem mined_block_regtest :
    ∃ network candidate s result after header,
      findNetworkIdentity "regtest" = some network ∧
      buildBlockCandidate regtestTemplate [0x51] [1, 2, 3, 4, 5, 6, 7, 8] = .ok candidate ∧
      mineRun doubleSha256 candidate regtestTemplate.target
        ⟨0, 0xffffffff, 1, some false, none, none, some false⟩
        (List.replicate 14 (.worker 0) ++ List.replicate 3 .main) = some s ∧
      s.main = .returned result after ∧ result.status = .found ∧
      BlockHeader.reader (after.serializedBlock.take 80) = some (header, []) ∧
      header.previousBlock = regtestTemplate.previousBlockHash ∧
      LittleEndian.value (doubleSha256 (after.serializedBlock.take 80)).bytes
        ≤ compactValue (UInt32.ofNat
          (LittleEndian.value ((after.serializedBlock.drop 72).take 4))) := by
  have hfacts : ((buildBlockCandidate regtestTemplate [0x51] [1, 2, 3, 4, 5, 6, 7, 8]).toOption.bind
      fun candidate => ((mineRun doubleSha256 candidate regtestTemplate.target
        ⟨0, 0xffffffff, 1, some false, none, none, some false⟩
        (List.replicate 14 (.worker 0) ++ List.replicate 3 .main)).bind
          MineState.returned).map (fun p => p.1.status)) = some .found := by decide +kernel
  cases hbuild : buildBlockCandidate regtestTemplate [0x51] [1, 2, 3, 4, 5, 6, 7, 8] with
  | error e =>
      rw [hbuild, Except.toOption, Option.bind_none] at hfacts
      exact absurd hfacts (by simp only [reduceCtorEq, not_false_eq_true])
  | ok candidate =>
      rw [hbuild, Except.toOption, Option.bind_some] at hfacts
      rcases Option.map_eq_some_iff.mp hfacts with ⟨⟨result, after⟩, hreturned, hfound⟩
      rcases Option.bind_eq_some_iff.mp hreturned with ⟨s, hrun, hmain⟩
      rw [MineState.returned_eq] at hmain
      rcases mined_block doubleSha256 regtestReply regtestTemplate (networks.getLast (by decide))
        [0x51] [1, 2, 3, 4, 5, 6, 7, 8] candidate
        ⟨0, 0xffffffff, 1, some false, none, none, some false⟩ parseBlockTemplate_regtest
        (by decide +kernel) hbuild rfl rfl (by decide) with ⟨c, s₀, hstart, hall⟩
      have hrun' := hrun
      rw [mineRun_eq _ _ _ _ _ c s₀ hstart] at hrun'
      rcases hall _ s result after hrun' hmain hfound with
        ⟨header, _, hread, _, hprevious, _, _, _, _, _, hwork, _, _⟩
      exact ⟨networks.getLast (by decide), candidate, s, result, after, header, by decide +kernel,
        rfl, hrun, hmain, hfound, hread, hprevious, hwork⟩

end MercaMiner
