import MercaMiner.Core.MiningJob
import MercaMiner.Theory.BlockForm
import MercaMiner.Theory.CoinbaseForm
import MercaMiner.Theory.TemplateFacts

/-!
# No Work Is Handed Out Twice

The candidates of one job, over any sequence of calls.

The extranonces returned are consecutive from the initial one and never wrap.
Two candidates with different extranonces have different coinbase scripts,
hence different stripped coinbases; from there the difference reaches the
header through two hashes, unless these collide on byte strings hashed for the
two candidates.

## Main definitions

* `buildInputs`: What is hashed on the way to a candidate's header.
* `Distinct`: Two candidates are different work.

## Theorems

* `runCalls_extranonces`: The extranonces of a sequence of calls.
* `distinct_of_extranonce`: Different extranonces are different work.
* `mining_job_unique`: The candidates of a job are pairwise different work.
-/

namespace MercaMiner

/-- The byte strings hashed on the way from the coinbase to the header. -/
def buildInputs (t : BlockTemplate) (candidate : BlockCandidate) : List Bytes :=
  candidate.coinbase.serializedWithoutWitness ::
    merkleInputs (merkleLeaves t candidate.coinbase.txid)

/-- Two candidates are different work: nothing one of them hashes with any
    nonce is hashed for the other, unless two strings hashed on the way
    collide. -/
structure Distinct (t : BlockTemplate) (first second : BlockCandidate) : Prop where
  scriptSig : first.coinbase.scriptSig ≠ second.coinbase.scriptSig
  stripped : first.coinbase.serializedWithoutWitness ≠ second.coinbase.serializedWithoutWitness
  header : ∀ n₁ n₂, headerBytes first.header n₁ ≠ headerBytes second.header n₂ ∨
    ∃ x ∈ buildInputs t first, ∃ y ∈ buildInputs t second,
      x ≠ y ∧ doubleSha256 x = doubleSha256 y

/-- A built coinbase in terms of its script. -/
theorem built_coinbase (t : BlockTemplate) (payoutScript extranonce : Bytes)
    (candidate : BlockCandidate)
    (h : buildBlockCandidate t payoutScript extranonce = .ok candidate) :
    ∃ heightPush aux commitment,
      buildBip34HeightPrefix t.height.toUInt32 = .ok heightPush ∧
      Hex.decode t.coinbaseAuxFlags = some aux ∧
      Hex.decode t.witnessCommitmentHex = some commitment ∧
      candidate.coinbase = assembleCoinbase t.height.toUInt32 t.coinbaseValue.toInt64 payoutScript
        (heightPush ++ aux ++ extranonce) commitment ∧
      candidate.header = candidateHeader t
        (computeMerkleRoot (merkleLeaves t candidate.coinbase.txid)).root := by
  rcases (buildBlockCandidate_ok_iff t payoutScript extranonce candidate).mp h with ⟨s, rfl⟩
  rcases (buildCoinbase_ok_iff _ _ _ _ _ _ _).mp s.buildsCoinbase with
    ⟨_, _, _, scriptSig, hscript, hcoinbase⟩
  rcases hscript.push with ⟨heightPush, hpush, hsig⟩
  exact ⟨heightPush, s.aux, s.commitment, hpush, s.decodesAux, s.decodesCommitment,
    by rw [← hsig]; exact hcoinbase, rfl⟩

/-- Equal headers, whatever their nonces, have equal roots. -/
theorem merkleRoot_of_headerBytes (first second : BlockHeader) (n₁ n₂ : UInt32)
    (h : headerBytes first n₁ = headerBytes second n₂) : first.merkleRoot = second.merkleRoot := by
  have hroot : BlockHeader.merkleRoot { first with nonce := n₁ }
      = BlockHeader.merkleRoot { second with nonce := n₂ } :=
    congrArg BlockHeader.merkleRoot (BlockHeader.serialize_inj _ _ h)
  exact hroot

/-- Candidates of one template with different extranonces are different
    work. -/
theorem distinct_of_extranonce (t : BlockTemplate) (payoutScript : Bytes) (v w : UInt64)
    (first second : BlockCandidate) (hne : v ≠ w)
    (hfirst : buildBlockCandidate t payoutScript (encodeExtranonce64 v) = .ok first)
    (hsecond : buildBlockCandidate t payoutScript (encodeExtranonce64 w) = .ok second) :
    Distinct t first second := by
  rcases built_coinbase t payoutScript _ first hfirst with
    ⟨push, aux, commitment, hpush, haux, hcommit, hcoinbase, hheader⟩
  rcases built_coinbase t payoutScript _ second hsecond with
    ⟨push', aux', commitment', hpush', haux', hcommit', hcoinbase', hheader'⟩
  rw [hpush, Except.ok.injEq] at hpush'
  rw [haux, Option.some.injEq] at haux'
  rw [hcommit, Option.some.injEq] at hcommit'
  subst hpush' haux' hcommit'
  -- The two scripts differ in their last eight bytes only.
  have hscript : push ++ aux ++ encodeExtranonce64 v ≠ push ++ aux ++ encodeExtranonce64 w :=
    fun h => hne (encodeExtranonce64_inj v w (List.append_cancel_left h))
  have hlen : (push ++ aux ++ encodeExtranonce64 v).length
      = (push ++ aux ++ encodeExtranonce64 w).length := by
    simp only [List.length_append, length_encodeExtranonce64]
  have hstripped : first.coinbase.serializedWithoutWitness
      ≠ second.coinbase.serializedWithoutWitness := by
    rw [hcoinbase, hcoinbase']
    exact fun h => hscript (serializeStripped_inj _ _ _ _ _ _ hlen h)
  have htxid : first.coinbase.txid = doubleSha256 first.coinbase.serializedWithoutWitness := by
    rw [hcoinbase]
    rfl
  have htxid' : second.coinbase.txid = doubleSha256 second.coinbase.serializedWithoutWitness := by
    rw [hcoinbase']
    rfl
  refine ⟨by rw [hcoinbase, hcoinbase']; exact hscript, hstripped, fun n₁ n₂ => ?_⟩
  by_cases hsame : headerBytes first.header n₁ = headerBytes second.header n₂
  · -- Equal headers have equal roots, which bind the coinbase's hash.
    have hroot := merkleRoot_of_headerBytes _ _ n₁ n₂ hsame
    rw [hheader, hheader'] at hroot
    refine Or.inr ?_
    rcases computeMerkleRoot_binding (merkleLeaves t first.coinbase.txid)
      (merkleLeaves t second.coinbase.txid) rfl (by simp only [merkleLeaves, ne_eq, reduceCtorEq,
        not_false_eq_true]) hroot with hleaves | ⟨x, hx, y, hy, hxy, hcollide⟩
    · have hhead : first.coinbase.txid = second.coinbase.txid := (List.cons.inj hleaves).1
      rw [htxid, htxid'] at hhead
      exact ⟨_, List.mem_cons_self, _, List.mem_cons_self, hstripped, hhead⟩
    · exact ⟨x, List.mem_cons_of_mem _ hx, y, List.mem_cons_of_mem _ hy, hxy, hcollide⟩
  · exact Or.inl hsame

/-- What a call does: it throws and changes nothing, or returns the block of
    the next extranonce and moves on. -/
theorem nextCandidate_cases (job : MiningJob) (outOfMemory : Bool) :
    (∃ e, job.nextCandidate outOfMemory = (.error e, job)) ∨
    ∃ candidate, job.extranonceExhausted = false ∧
      buildBlockCandidate job.blockTemplate job.payoutScript
        (encodeExtranonce64 job.nextExtranonce) = .ok candidate ∧
      job.nextCandidate outOfMemory = (.ok ⟨candidate, job.nextExtranonce⟩, job.advance) := by
  cases hexhausted : job.extranonceExhausted with
  | true => exact Or.inl ⟨.exhausted, by rw [MiningJob.nextCandidate, if_pos hexhausted]⟩
  | false =>
      have hmore : ¬job.extranonceExhausted = true := by
        rw [hexhausted]
        exact Bool.false_ne_true
      cases hbuild : job.buildNext outOfMemory with
      | error e => exact Or.inl ⟨e, by rw [MiningJob.nextCandidate, if_neg hmore, hbuild]⟩
      | ok candidate =>
          refine Or.inr ⟨candidate, rfl, ?_, by rw [MiningJob.nextCandidate, if_neg hmore, hbuild]⟩
          rw [MiningJob.buildNext] at hbuild
          cases outOfMemory with
          | true => exact absurd hbuild (by simp only [if_true, reduceCtorEq, not_false_eq_true])
          | false =>
              rw [if_neg Bool.false_ne_true] at hbuild
              cases hblock : buildBlockCandidate job.blockTemplate job.payoutScript
                  (encodeExtranonce64 job.nextExtranonce) with
              | error e =>
                  rw [hblock] at hbuild
                  exact absurd hbuild (by simp only [reduceCtorEq, not_false_eq_true])
              | ok found =>
                  rw [hblock, Except.ok.injEq] at hbuild
                  rw [hbuild]

/-- The extranonces still ahead of a job: none once it is exhausted. -/
def MiningJob.remaining (job : MiningJob) : Nat :=
  if job.extranonceExhausted then 0 else 2 ^ 64 - job.nextExtranonce.toNat

theorem hasMore_remaining (job : MiningJob) :
    job.hasMoreCandidates = false ↔ job.remaining = 0 := by
  have hlt := job.nextExtranonce.toNat_lt
  rw [MiningJob.hasMoreCandidates, MiningJob.remaining]
  cases job.extranonceExhausted with
  | true => simp only [Bool.not_true, if_true]
  | false =>
      simp only [Bool.not_false, Bool.true_eq_false, Bool.false_eq_true, if_false, false_iff]
      omega

theorem advance_kept (job : MiningJob) : job.advance.blockTemplate = job.blockTemplate ∧
    job.advance.payoutScript = job.payoutScript := by
  rw [MiningJob.advance]
  by_cases hlast : job.nextExtranonce = 0xffffffffffffffff
  · rw [if_pos hlast]
    exact ⟨rfl, rfl⟩
  · rw [if_neg hlast]
    exact ⟨rfl, rfl⟩

/-- A step of the extranonce uses up exactly one. -/
theorem advance_remaining (job : MiningJob) (h : job.extranonceExhausted = false) :
    job.nextExtranonce.toNat + 1 + job.advance.remaining = 2 ^ 64 ∧
    (job.advance.extranonceExhausted = false →
      job.advance.nextExtranonce.toNat = job.nextExtranonce.toNat + 1) := by
  have hlt := job.nextExtranonce.toNat_lt
  have hmax : (0xffffffffffffffff : UInt64).toNat = 2 ^ 64 - 1 := rfl
  -- The last extranonce exhausts the job instead of wrapping.
  by_cases hlast : job.nextExtranonce = 0xffffffffffffffff
  · rw [MiningJob.advance, if_pos hlast]
    refine ⟨?_, fun h => absurd h (by simp only [Bool.true_eq_false, not_false_eq_true])⟩
    rw [hlast, MiningJob.remaining, if_pos rfl, hmax]
    rfl
  · have hne : job.nextExtranonce.toNat ≠ 2 ^ 64 - 1 :=
      fun heq => hlast (UInt64.toNat_inj.mp (heq.trans hmax.symm))
    have hnext : (job.nextExtranonce + 1).toNat = job.nextExtranonce.toNat + 1 := by
      rw [UInt64.toNat_add, UInt64.toNat_one]
      omega
    rw [MiningJob.advance, if_neg hlast]
    refine ⟨?_, fun _ => hnext⟩
    simp only [MiningJob.remaining, h, Bool.false_eq_true, if_false, hnext]
    omega

/-- What a sequence of calls leaves behind: consecutive extranonces, each with
    its block, and as many fewer ahead. -/
theorem runCalls_extranonces (job : MiningJob) (calls : List Bool) :
    let out := handedOut (job.runCalls calls).1
    let final := (job.runCalls calls).2
    out.map (fun m => m.extranonce.toNat) = List.range' job.nextExtranonce.toNat out.length ∧
    out.length + final.remaining = job.remaining ∧
    (∀ m ∈ out, buildBlockCandidate job.blockTemplate job.payoutScript
      (encodeExtranonce64 m.extranonce) = .ok m.candidate) := by
  induction calls generalizing job with
  | nil =>
      refine ⟨rfl, Nat.zero_add _, fun m hm => absurd hm List.not_mem_nil⟩
  | cons outOfMemory calls ih =>
      simp only [MiningJob.runCalls]
      rcases nextCandidate_cases job outOfMemory with ⟨e, hcall⟩ | ⟨candidate, hmore, hbuild, hcall⟩
      · -- A call that throws is as if it had not been made.
        rw [hcall]
        exact ih job
      · rw [hcall]
        rcases ih job.advance with ⟨hextranonces, hcount, hbuilt⟩
        rcases advance_remaining job hmore with ⟨hleft, hnext⟩
        have hout : handedOut (.ok ⟨candidate, job.nextExtranonce⟩
            :: (job.advance.runCalls calls).1)
            = ⟨candidate, job.nextExtranonce⟩ :: handedOut (job.advance.runCalls calls).1 := rfl
        have hremaining : job.remaining = 2 ^ 64 - job.nextExtranonce.toNat := by
          rw [MiningJob.remaining, hmore, if_neg Bool.false_ne_true]
        simp only [hout, List.map_cons, List.length_cons, List.range'_succ]
        refine ⟨?_, by omega, ?_⟩
        · rw [hextranonces]
          cases hdone : job.advance.extranonceExhausted with
          | false => rw [hnext hdone]
          | true =>
              -- An exhausted job hands out nothing more.
              have hzero : job.advance.remaining = 0 := by
                rw [MiningJob.remaining, hdone, if_pos rfl]
              have hnone : (handedOut (job.advance.runCalls calls).1).length = 0 := by omega
              rw [hnone]
              rfl
        · intro m hm
          rcases List.mem_cons.mp hm with rfl | htail
          · exact hbuild
          · have hm' := hbuilt m htail
            rw [(advance_kept job).1, (advance_kept job).2] at hm'
            exact hm'

/-- Candidates from different calls are different work. -/
theorem handedOut_distinct (t : BlockTemplate) (payoutScript : Bytes) (start : Nat)
    (out : List MiningCandidate)
    (hconsecutive : out.map (fun m => m.extranonce.toNat) = List.range' start out.length)
    (hbuilt : ∀ m ∈ out, buildBlockCandidate t payoutScript (encodeExtranonce64 m.extranonce)
      = .ok m.candidate) :
    out.Pairwise fun m n => Distinct t m.candidate n.candidate := by
  have hnodup : (out.map fun m => m.extranonce.toNat).Nodup := by
    rw [hconsecutive]
    exact List.nodup_range'
  rw [List.Nodup, List.pairwise_map] at hnodup
  refine hnodup.imp_of_mem fun hm hn hne => ?_
  exact distinct_of_extranonce t payoutScript _ _ _ _ (fun h => hne (congrArg UInt64.toNat h))
    (hbuilt _ hm) (hbuilt _ hn)

/-- The last extranonce has been handed out exactly when none is left. -/
theorem last_handedOut_iff (start : UInt64) (out : List MiningCandidate) (left : Nat)
    (hconsecutive : out.map (fun m => m.extranonce.toNat)
      = List.range' start.toNat out.length)
    (hcount : start.toNat + out.length + left = 2 ^ 64) :
    left = 0 ↔ ∃ m ∈ out, m.extranonce = 0xffffffffffffffff := by
  have hmax : (0xffffffffffffffff : UInt64).toNat = 2 ^ 64 - 1 := rfl
  have hlt := start.toNat_lt
  have hmem : (∃ m ∈ out, m.extranonce = 0xffffffffffffffff) ↔
      2 ^ 64 - 1 ∈ out.map (fun m => m.extranonce.toNat) := by
    rw [List.mem_map]
    refine exists_congr fun m => and_congr_right fun _ => ?_
    rw [← UInt64.toNat_inj, hmax]
  rw [hmem, hconsecutive, List.mem_range'_1]
  omega

/-- A job over any sequence of calls, whatever any of them throws. The
    extranonces handed out are consecutive from the initial one, up to the
    last and never past it. A call that throws changes nothing. There is
    nothing more exactly once the last extranonce is handed out, and from then
    on every call throws. The candidates are pairwise different work. -/
theorem mining_job_unique (t : BlockTemplate) (payoutScript : Bytes) (initial : UInt64)
    (hpayout : payoutScript ≠ []) :
    ∃ job, MiningJob.create t payoutScript initial = .ok job ∧
      ∀ calls, let out := handedOut (job.runCalls calls).1
        let final := (job.runCalls calls).2
        out.map (fun m => m.extranonce.toNat) = List.range' initial.toNat out.length ∧
        initial.toNat + out.length ≤ 2 ^ 64 ∧
        (∀ outOfMemory e next, final.nextCandidate outOfMemory = (.error e, next) →
          next = final) ∧
        (final.hasMoreCandidates = false ↔ ∃ m ∈ out, m.extranonce = 0xffffffffffffffff) ∧
        (final.hasMoreCandidates = false →
          ∀ outOfMemory, final.nextCandidate outOfMemory = (.error .exhausted, final)) ∧
        out.Pairwise fun m n => Distinct t m.candidate n.candidate := by
  have hcreate : MiningJob.create t payoutScript initial
      = .ok ⟨t, payoutScript, initial, false, hpayout⟩ := by
    rw [MiningJob.create, dif_neg hpayout]
  refine ⟨_, hcreate, fun calls => ?_⟩
  let job : MiningJob := ⟨t, payoutScript, initial, false, hpayout⟩
  rcases runCalls_extranonces job calls with ⟨hconsecutive, hcount, hbuilt⟩
  have hinitial := initial.toNat_lt
  have hall : job.remaining = 2 ^ 64 - initial.toNat := by
    rw [MiningJob.remaining, if_neg Bool.false_ne_true]
  have htotal : initial.toNat + (handedOut (job.runCalls calls).1).length
      + (job.runCalls calls).2.remaining = 2 ^ 64 := by omega
  have hbound : initial.toNat + (handedOut (job.runCalls calls).1).length ≤ 2 ^ 64 := by omega
  refine ⟨hconsecutive, hbound, fun outOfMemory e next hcall => ?_, ?_,
    fun hnone outOfMemory => ?_, handedOut_distinct t payoutScript _ _ hconsecutive hbuilt⟩
  · rcases nextCandidate_cases (job.runCalls calls).2 outOfMemory with ⟨e', h⟩ | ⟨c, _, _, h⟩
    · rw [h, Prod.mk.injEq] at hcall
      exact hcall.2.symm
    · rw [h, Prod.mk.injEq] at hcall
      exact absurd hcall.1 (by simp only [reduceCtorEq, not_false_eq_true])
  · rw [hasMore_remaining]
    exact last_handedOut_iff initial _ _ hconsecutive htotal
  · have hexhausted : (job.runCalls calls).2.extranonceExhausted = true := by
      rw [MiningJob.hasMoreCandidates] at hnone
      simpa only [Bool.not_eq_eq_eq_not, Bool.not_false] using hnone
    rw [MiningJob.nextCandidate, if_pos hexhausted]

/-- Starting three before the end, with a call that runs out of memory, a job
    hands out three candidates and is exhausted. -/
theorem mining_job_unique_at_end :
    ∃ job, MiningJob.create regtestTemplate [0x51] 0xfffffffffffffffd = .ok job ∧
      let final := (job.runCalls [false, true, false, false]).2
      final.hasMoreCandidates = false ∧
      ∀ outOfMemory, final.nextCandidate outOfMemory = (.error .exhausted, final) := by
  rcases mining_job_unique regtestTemplate [0x51] 0xfffffffffffffffd (by decide) with
    ⟨job, hcreate, hall⟩
  have hdone : ((MiningJob.create regtestTemplate [0x51] 0xfffffffffffffffd).toOption.map
      fun job => (job.runCalls [false, true, false, false]).2.hasMoreCandidates)
      = some false := by decide +kernel
  rw [hcreate, Except.toOption, Option.map_some, Option.some.injEq] at hdone
  rcases hall [false, true, false, false] with ⟨_, _, _, _, hthrows, _⟩
  exact ⟨job, hcreate, hdone, hthrows hdone⟩

end MercaMiner
