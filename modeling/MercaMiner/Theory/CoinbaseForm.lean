import MercaMiner.Core.Coinbase

/-!
# What a Coinbase Decodes To

The two serializations of the coinbase are the two standard encodings of one
transaction, `coinbaseForm`. The writers of the source and the encoders of
the wire library meet here; everything after this reads the coinbase as a
decoded transaction.

## Main definitions

* `coinbaseForm`: The transaction both serializations encode.

## Theorems

* `serializeStripped_eq`: The stripped bytes are the legacy encoding.
* `serializeWithWitness_eq`: The full bytes are the extended encoding.
* `coinbase_decodes`: The full bytes decode to the coinbase form.
* `buildCoinbase_error_iff`: When a coinbase is refused.
* `coinbase_round_trip`: Both serializations decode to the coinbase.
* `serializeStripped_inj`: The stripped bytes determine the script.
-/

namespace MercaMiner

open Wire

/-- The transaction a coinbase encodes. The witness holds the one reserved
    value for its one input. -/
def coinbaseForm (height : UInt32) (coinbaseValue : Int64)
    (payoutScript scriptSig commitment : Bytes) : Wire.Transaction :=
  { version := 2
    inputs := [⟨List.replicate 32 0, 0xffffffff, scriptSig, 0xfffffffe⟩]
    outputs := [⟨coinbaseValue.toUInt64.toNat, payoutScript⟩, ⟨0, commitment⟩]
    witness := [[List.replicate 32 0]]
    lockTime := (height - 1).toNat }

/-- A script's length survives the conversion to the counter type. -/
theorem compactSize_ofNat (out : Bytes) (n : Nat) (h : n < 2 ^ 64) :
    appendCompactSize out (UInt64.ofNat n) = out ++ encodeCompactSize n := by
  rw [appendCompactSize_eq, UInt64.toNat_ofNat', Nat.mod_eq_of_lt h]

theorem appendCoinbaseInput_eq (out scriptSig : Bytes) (h : scriptSig.length < 2 ^ 64) :
    appendCoinbaseInput out scriptSig = out ++ encodeList Input.encode
      [⟨List.replicate 32 0, 0xffffffff, scriptSig, 0xfffffffe⟩] := by
  simp only [appendCoinbaseInput, appendBytes, appendLE32_eq, compactSize_ofNat _ _ h,
    appendCompactSize_eq, nullPrevoutIndex, coinbaseSequence, encodeList, List.flatMap_cons,
    List.flatMap_nil, Input.encode, encodeVar, List.append_assoc, List.append_nil,
    List.length_singleton]
  rfl

theorem appendOutputs_eq (out : Bytes) (coinbaseValue : Int64) (payoutScript commitment : Bytes)
    (hp : payoutScript.length < 2 ^ 64) (hc : commitment.length < 2 ^ 64) :
    appendOutputs out coinbaseValue payoutScript commitment = out ++ encodeList Output.encode
      [⟨coinbaseValue.toUInt64.toNat, payoutScript⟩, ⟨0, commitment⟩] := by
  simp only [appendOutputs, appendBytes, appendLE64_eq, compactSize_ofNat _ _ hp,
    compactSize_ofNat _ _ hc, appendCompactSize_eq, encodeList, List.flatMap_cons,
    List.flatMap_nil, Output.encode, encodeVar, List.append_assoc, List.append_nil,
    List.length_cons, List.length_nil]
  rfl

section Encoded

variable (height : UInt32) (coinbaseValue : Int64) (payoutScript scriptSig commitment : Bytes)
variable (hp : payoutScript.length < 2 ^ 64) (hs : scriptSig.length < 2 ^ 64)
  (hc : commitment.length < 2 ^ 64)

include hp hs hc

theorem serializeStripped_eq :
    serializeStripped height coinbaseValue payoutScript scriptSig commitment
      = (coinbaseForm height coinbaseValue payoutScript scriptSig commitment).encodeLegacy := by
  simp only [serializeStripped, appendCoinbaseInput_eq _ _ hs, appendOutputs_eq _ _ _ _ hp hc,
    appendLE32_eq, Transaction.encodeLegacy, coinbaseForm, List.append_assoc, List.nil_append]
  rfl

theorem serializeWithWitness_eq :
    serializeWithWitness height coinbaseValue payoutScript scriptSig commitment
      = (coinbaseForm height coinbaseValue payoutScript scriptSig commitment).encodeExtended := by
  simp only [serializeWithWitness, appendCoinbaseInput_eq _ _ hs, appendOutputs_eq _ _ _ _ hp hc,
    appendLE32_eq, appendCompactSize_eq, appendBytes, Transaction.encodeExtended, coinbaseForm,
    List.append_assoc, List.nil_append, List.flatMap_cons, List.flatMap_nil, List.append_nil]
  rfl

theorem coinbaseForm_valid :
    (coinbaseForm height coinbaseValue payoutScript scriptSig commitment).Valid where
  version := (by decide : 2 < 256 ^ 4)
  inputsLength := (by decide : 1 < 2 ^ 64)
  inputs := by
    intro i hi
    rw [List.mem_singleton.mp hi]
    exact ⟨List.length_replicate, (by decide : 0xffffffff < 256 ^ 4), hs,
      (by decide : 0xfffffffe < 256 ^ 4)⟩
  outputsLength := (by decide : 2 < 2 ^ 64)
  outputs := by
    intro o ho
    rcases List.mem_cons.mp ho with rfl | ho
    · exact ⟨coinbaseValue.toUInt64.toNat_lt, hp⟩
    · rw [List.mem_singleton.mp ho]
      exact ⟨(by decide : 0 < 256 ^ 8), hc⟩
  lockTime := (height - 1).toNat_lt

/-- The full bytes decode to the coinbase form and leave nothing over. -/
theorem coinbase_decodes :
    Decodes Transaction.reader
      (serializeWithWitness height coinbaseValue payoutScript scriptSig commitment)
      (coinbaseForm height coinbaseValue payoutScript scriptSig commitment) := by
  rw [serializeWithWitness_eq height coinbaseValue payoutScript scriptSig commitment hp hs hc]
  refine Transaction.reader_extended _
    (coinbaseForm_valid height coinbaseValue payoutScript scriptSig commitment hp hs hc) rfl ?_ ?_
  · intro stack hstack
    rw [List.mem_singleton.mp hstack]
    decide
  · intro stack hstack item hitem
    rw [List.mem_singleton.mp hstack, List.mem_singleton] at hitem
    rw [hitem, List.length_replicate]
    decide

end Encoded

/-- When a coinbase is refused. The script is the height push, the flags and
    the extranonce. -/
theorem buildCoinbase_error_iff (height : UInt32) (coinbaseValue : Int64)
    (payoutScript aux extranonce commitment : Bytes) :
    (∃ e, buildCoinbaseTransaction height coinbaseValue payoutScript aux extranonce commitment
      = .error e) ↔
      height = 0 ∨ coinbaseValue < 0 ∨
      ¬(commitment.length = 38 ∧ commitment.take 6 = [0x6a, 0x24, 0xaa, 0x21, 0xa9, 0xed]) ∨
      ¬(2 ≤ (ScriptNum.push height.toNat ++ aux ++ extranonce).length ∧
        (ScriptNum.push height.toNat ++ aux ++ extranonce).length ≤ 100) := by
  have hiff := buildCoinbase_ok_iff height coinbaseValue payoutScript aux extranonce commitment
  by_cases hz : height = 0
  · simp only [buildCoinbaseTransaction, hz, if_true, Except.error.injEq, exists_eq', true_or]
  -- The script is fixed by the height, the flags and the extranonce.
  have hscript : (∃ s, CoinbaseScript height aux extranonce s) ↔
      2 ≤ (ScriptNum.push height.toNat ++ aux ++ extranonce).length ∧
        (ScriptNum.push height.toNat ++ aux ++ extranonce).length ≤ 100 := by
    have hpush := buildBip34HeightPrefix_eq height hz
    constructor
    · rintro ⟨s, ⟨⟨p, hp, hs⟩, hlow, hhigh⟩⟩
      rw [hpush, Except.ok.injEq] at hp
      rw [hp, ← hs]
      exact ⟨hlow, hhigh⟩
    · rintro ⟨hlow, hhigh⟩
      exact ⟨_, ⟨⟨_, hpush, rfl⟩, hlow, hhigh⟩⟩
  have hcommit := validateCoinbaseCommitment_ok commitment
  rw [commitmentStart] at hcommit
  rw [← hscript, ← hcommit]
  cases hbuild : buildCoinbaseTransaction height coinbaseValue payoutScript aux extranonce
      commitment with
  | ok cb =>
      rcases (hiff cb).mp hbuild with ⟨_, hneg, hvalid, scriptSig, hs, _⟩
      simp only [reduceCtorEq, exists_false, hz, hneg, hvalid, not_true_eq_false, false_or,
        false_iff, not_not]
      exact ⟨scriptSig, hs⟩
  | error e =>
      simp only [Except.error.injEq, exists_eq', true_iff]
      -- With every condition met the coinbase would have been built.
      by_contra hnone
      simp only [not_or, not_not] at hnone
      rcases hnone with ⟨hnz, hneg, hvalid, scriptSig, hs⟩
      have hok := (hiff _).mpr ⟨hnz, hneg, hvalid, scriptSig, hs, rfl⟩
      rw [hbuild] at hok
      exact absurd hok (by simp only [reduceCtorEq, not_false_eq_true])

/-- A non-negative amount is written as the number it is. -/
theorem toUInt64_toNat_of_nonneg (value : Int64) (h : ¬value < 0) :
    value.toUInt64.toNat = value.toInt.toNat := by
  rw [Int64.lt_iff_toInt_lt, Int64.toInt_zero] at h
  have hsigned : value.toInt = if 2 * value.toUInt64.toNat < 2 ^ 64
      then (value.toUInt64.toNat : Int) else (value.toUInt64.toNat : Int) - (2 ^ 64 : Nat) :=
    BitVec.toInt_eq_toNat_cond value.toBitVec
  -- A set top bit would make the number negative.
  have hlt := value.toUInt64.toNat_lt
  by_cases hsmall : 2 * value.toUInt64.toNat < 2 ^ 64
  · rw [if_pos hsmall] at hsigned
    omega
  · rw [if_neg hsmall] at hsigned
    omega

/-- A coinbase that was built decodes, from either serialization, to the
    transaction it stands for, and its ids are the hashes of the two. The bound
    is that of a size. -/
theorem coinbase_round_trip (height : UInt32) (coinbaseValue : Int64)
    (payoutScript aux extranonce commitment : Bytes) (hpayout : payoutScript.length < 2 ^ 64) :
    (∀ cb, buildCoinbaseTransaction height coinbaseValue payoutScript aux extranonce commitment
        = .ok cb →
      ∃ decoded : Wire.Transaction,
        decoded.version = 2 ∧
        decoded.inputs = [⟨List.replicate 32 0, 2 ^ 32 - 1,
          ScriptNum.push height.toNat ++ aux ++ extranonce, 0xfffffffe⟩] ∧
        decoded.outputs = [⟨coinbaseValue.toInt.toNat, payoutScript⟩, ⟨0, commitment⟩] ∧
        decoded.witness = [[List.replicate 32 0]] ∧
        decoded.lockTime = height.toNat - 1 ∧
        Transaction.reader cb.serializedWithWitness = some (decoded, []) ∧
        Transaction.legacyReader cb.serializedWithoutWitness
          = some ({ decoded with witness := [] }, []) ∧
        decoded.encodeLegacy = cb.serializedWithoutWitness ∧
        cb.txid = doubleSha256 cb.serializedWithoutWitness ∧
        cb.wtxid = doubleSha256 cb.serializedWithWitness) ∧
    ((∃ e, buildCoinbaseTransaction height coinbaseValue payoutScript aux extranonce commitment
        = .error e) ↔
      height = 0 ∨ coinbaseValue < 0 ∨
      ¬(commitment.length = 38 ∧ commitment.take 6 = [0x6a, 0x24, 0xaa, 0x21, 0xa9, 0xed]) ∨
      ¬(2 ≤ (ScriptNum.push height.toNat ++ aux ++ extranonce).length ∧
        (ScriptNum.push height.toNat ++ aux ++ extranonce).length ≤ 100)) := by
  refine ⟨fun cb h => ?_, buildCoinbase_error_iff height coinbaseValue payoutScript aux extranonce
    commitment⟩
  rcases (buildCoinbase_ok_iff _ _ _ _ _ _ _).mp h with ⟨hnz, hneg, hvalid, scriptSig, hs, rfl⟩
  rcases hs.push with ⟨heightPush, hpush, hsig⟩
  rw [buildBip34HeightPrefix_eq height hnz, Except.ok.injEq] at hpush
  -- The lengths of the script and of the commitment were checked.
  have hscript : scriptSig.length < 2 ^ 64 := Nat.lt_of_le_of_lt hs.upper (by omega)
  have hcommit : commitment.length < 2 ^ 64 := by
    rw [((validateCoinbaseCommitment_ok commitment).mp hvalid).1]
    omega
  have hpos : 1 ≤ height := by
    rw [UInt32.le_iff_toNat_le, UInt32.toNat_one]
    exact Nat.pos_of_ne_zero fun hzero => hnz (UInt32.toNat_inj.mp hzero)
  have hstripped := serializeStripped_eq height coinbaseValue payoutScript scriptSig commitment
    hpayout hscript hcommit
  have hform := coinbaseForm_valid height coinbaseValue payoutScript scriptSig commitment hpayout
    hscript hcommit
  have hfull := coinbase_decodes height coinbaseValue payoutScript scriptSig commitment hpayout
    hscript hcommit []
  have hlegacy := Transaction.legacyReader_decodes _ hform []
  rw [List.append_nil] at hfull hlegacy
  refine ⟨coinbaseForm height coinbaseValue payoutScript scriptSig commitment, rfl, ?_, ?_, rfl,
    ?_, hfull, ?_, hstripped.symm, rfl, rfl⟩
  · rw [hpush, ← hsig]
    rfl
  · rw [coinbaseForm, toUInt64_toNat_of_nonneg coinbaseValue hneg]
  · rw [coinbaseForm, UInt32.toNat_sub_of_le _ _ hpos, UInt32.toNat_one]
  · rw [← hstripped] at hlegacy
    exact hlegacy

/-- The coinbase of the first block of the regression test network. -/
theorem coinbase_round_trip_regtest :
    ∃ cb decoded, buildCoinbaseTransaction 1 5000000000 [0x51] [] [1, 2, 3, 4, 5, 6, 7, 8]
        (commitmentStart ++ List.replicate 32 0) = .ok cb ∧
      Transaction.reader cb.serializedWithWitness = some (decoded, []) ∧
      decoded.outputs.head? = some ⟨5000000000, [0x51]⟩ := by
  have hround := coinbase_round_trip 1 5000000000 [0x51] [] [1, 2, 3, 4, 5, 6, 7, 8]
    (commitmentStart ++ List.replicate 32 0) (by decide)
  cases hbuild : buildCoinbaseTransaction 1 5000000000 [0x51] [] [1, 2, 3, 4, 5, 6, 7, 8]
      (commitmentStart ++ List.replicate 32 0) with
  | error e => exact absurd (hround.2.mp ⟨e, hbuild⟩) (by decide +kernel)
  | ok cb =>
      rcases hround.1 cb hbuild with ⟨decoded, _, _, houtputs, _, _, hread, _⟩
      refine ⟨cb, decoded, rfl, hread, ?_⟩
      rw [houtputs]
      rfl

/-- Two stripped serializations of coinbases that differ only in their script
    are different when the scripts are. The scripts stand at one place with
    one length, so no decoding is needed. -/
theorem serializeStripped_inj (height : UInt32) (coinbaseValue : Int64)
    (payoutScript s t commitment : Bytes) (hlen : s.length = t.length)
    (h : serializeStripped height coinbaseValue payoutScript s commitment
      = serializeStripped height coinbaseValue payoutScript t commitment) : s = t := by
  simp only [serializeStripped, appendCoinbaseInput, appendOutputs, appendBytes, appendLE32_eq,
    appendLE64_eq, appendCompactSize_eq, hlen, List.append_assoc, List.nil_append,
    List.append_cancel_left_eq] at h
  exact (List.append_inj h hlen).1

end MercaMiner
