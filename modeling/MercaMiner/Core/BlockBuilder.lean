import MercaMiner.Core.Coinbase
import MercaMiner.Core.Gbt
import MercaMiner.Core.Header
import MercaMiner.Core.Merkle

/-!
# Block Candidates

Building a block from a template, from `block_builder.cpp`.

The builder decodes the template's hexadecimal fields again, builds the
coinbase, computes one Merkle root over transaction ids for the header and a
second one over witness ids to check the commitment, and concatenates the
block. `assembleBlock` names the part after the last check.

## Main definitions

* `BlockBuildError`: Every exception of the builder, with its text.
* `decodeHex`: The builder's own reader of hexadecimal text.
* `decodeAndValidateTemplateTransactions`: The raw transactions, once their
  hashes and the commitment agree.
* `buildBlockCandidate`: The candidate of a template.
* `assembleBlock`: What it returns before the size check.

## Theorems

* `decodeHex_ok`: The builder's reader is the library's.
* `decodeTransactions_ok`: When the transactions decode, and to what.
* `buildBlockCandidate_ok_iff`: Exactly when a candidate is built.
-/

namespace MercaMiner

open Outcome

/-- The exceptions that leave the builder. -/
inductive BlockBuildError where
  | nonHex (field : String)
  | oddHex (field : String)
  | wtxidMismatch (i : Nat)
  | commitmentSize
  | commitmentMismatch
  | heightRange
  | valueRange
  | mutatedMerkle
  | sizeLimit
  | coinbase (e : CoinbaseError)
  deriving DecidableEq

def BlockBuildError.what : BlockBuildError → String
  | nonHex field => field ++ " contains non-hex characters"
  | oddHex field => field ++ " must contain an even number of hex digits"
  | wtxidMismatch i =>
      "template transaction " ++ toString i ++ " data does not match supplied wtxid"
  | commitmentSize => "witness commitment script must be exactly 38 bytes"
  | commitmentMismatch => "default_witness_commitment does not match template transactions"
  | heightRange => "template height is outside the supported range"
  | valueRange => "template coinbase value exceeds int64 range"
  | mutatedMerkle => "template transaction set has a mutated merkle tree"
  | sizeLimit => "candidate block exceeds template serialized-byte limit"
  | coinbase e => e.what

structure BlockCandidate where
  header : BlockHeader
  coinbase : CoinbaseTransaction
  serializedBlock : Bytes
  deriving DecidableEq

/-- The builder's digit table, which throws. -/
def hexDigitOf (value : UInt8) (field : String) : Except BlockBuildError UInt8 :=
  if value ≥ '0'.toUInt8 ∧ value ≤ '9'.toUInt8 then .ok (value - '0'.toUInt8)
  else if value ≥ 'a'.toUInt8 ∧ value ≤ 'f'.toUInt8 then .ok (value - 'a'.toUInt8 + 10)
  else if value ≥ 'A'.toUInt8 ∧ value ≤ 'F'.toUInt8 then .ok (value - 'A'.toUInt8 + 10)
  else .error (.nonHex field)

def decodeHexLoop (field : String) : Text → Except BlockBuildError Bytes
  | h :: l :: rest => do
      let high ← hexDigitOf h field
      let low ← hexDigitOf l field
      let tail ← decodeHexLoop field rest
      return ((high <<< 4) ||| low) :: tail
  | _ => return []

def decodeHex (hex : Text) (field : String) : Except BlockBuildError Bytes := do
  check (hex.length &&& 1 = 0) (.oddHex field)
  decodeHexLoop field hex

/-- The loop over the template transactions, from position `i` on. -/
def decodeTransactions : Nat → List TemplateTransaction → Except BlockBuildError (List Bytes)
  | _, [] => .ok []
  | i, transaction :: rest => do
      let raw ← decodeHex transaction.dataHex "template transaction data"
      check (doubleSha256 raw = transaction.wtxid) (.wtxidMismatch i)
      let raws ← decodeTransactions (i + 1) rest
      return raw :: raws

/-- The leaves of the witness tree. The coinbase counts as all zeros there,
    whatever its own hash is. -/
def witnessLeaves (transactions : List TemplateTransaction) : List UInt256 :=
  UInt256.zero :: transactions.map TemplateTransaction.wtxid

/-- The commitment over the witness root and the zero reserved value. -/
def expectedCommitment (transactions : List TemplateTransaction) : UInt256 :=
  doubleSha256 ((computeMerkleRoot (witnessLeaves transactions)).root.bytes ++ List.replicate 32 0)

def decodeAndValidateTemplateTransactions (t : BlockTemplate) (witnessCommitment : Bytes) :
    Except BlockBuildError (List Bytes) := do
  let rawTransactions ← decodeTransactions 0 t.transactions
  check (witnessCommitment.length = 38) .commitmentSize
  check ((witnessCommitment.drop 6).take 32 = (expectedCommitment t.transactions).bytes)
    .commitmentMismatch
  return rawTransactions

/-- The leaves of the transaction tree. -/
def merkleLeaves (t : BlockTemplate) (txid : UInt256) : List UInt256 :=
  txid :: t.transactions.map TemplateTransaction.txid

def candidateHeader (t : BlockTemplate) (merkleRoot : UInt256) : BlockHeader :=
  { version := t.version
    previousBlock := t.previousBlockHash
    merkleRoot := merkleRoot
    time := t.currentTime
    bits := t.bits
    nonce := t.nonceMin }

/-- Header, transaction count, coinbase and transactions, in this order. -/
def serializeBlock (t : BlockTemplate) (header : BlockHeader) (coinbase : CoinbaseTransaction)
    (rawTransactions : List Bytes) : Bytes :=
  let block := appendBytes [] header.serialize
  let block := appendCompactSize block (UInt64.ofNat (1 + t.transactions.length))
  let block := appendBytes block coinbase.serializedWithWitness
  rawTransactions.foldl appendBytes block

/-- The candidate, before its size is checked. -/
def assembleBlock (t : BlockTemplate) (coinbase : CoinbaseTransaction)
    (rawTransactions : List Bytes) : BlockCandidate :=
  let header := candidateHeader t (computeMerkleRoot (merkleLeaves t coinbase.txid)).root
  ⟨header, coinbase, serializeBlock t header coinbase rawTransactions⟩

/-- An exception of the coinbase code passes through the builder. -/
def fromCoinbase {α : Type} : Except CoinbaseError α → Except BlockBuildError α
  | .error e => .error (.coinbase e)
  | .ok x => .ok x

def buildBlockCandidate (t : BlockTemplate) (payoutScript extranonce : Bytes) :
    Except BlockBuildError BlockCandidate := do
  check (¬(t.height = 0 ∨ t.height > 0xffffffff)) .heightRange
  check (¬t.coinbaseValue > 0x7fffffffffffffff) .valueRange
  let coinbaseAux ← decodeHex t.coinbaseAuxFlags "coinbaseaux.flags"
  let witnessCommitment ← decodeHex t.witnessCommitmentHex "default_witness_commitment"
  let coinbase ← fromCoinbase (buildCoinbaseTransaction t.height.toUInt32
    t.coinbaseValue.toInt64 payoutScript coinbaseAux extranonce witnessCommitment)
  -- Two templates could otherwise share a root.
  check ((computeMerkleRoot (merkleLeaves t coinbase.txid)).mutated = false) .mutatedMerkle
  let rawTransactions ← decodeAndValidateTemplateTransactions t witnessCommitment
  let candidate := assembleBlock t coinbase rawTransactions
  check (¬candidate.serializedBlock.length > t.sizeLimit.toNat) .sizeLimit
  return candidate

theorem hexDigitOf_eq (value : UInt8) (field : String) :
    hexDigitOf value field = match Hex.digit value with
      | some d => .ok d
      | none => .error (.nonHex field) := by
  simp only [hexDigitOf, Hex.digit, ge_iff_le]
  by_cases h1 : '0'.toUInt8 ≤ value ∧ value ≤ '9'.toUInt8
  · rw [if_pos h1, if_pos h1]
  rw [if_neg h1, if_neg h1]
  by_cases h2 : 'a'.toUInt8 ≤ value ∧ value ≤ 'f'.toUInt8
  · rw [if_pos h2, if_pos h2]
  rw [if_neg h2, if_neg h2]
  by_cases h3 : 'A'.toUInt8 ≤ value ∧ value ≤ 'F'.toUInt8
  · rw [if_pos h3, if_pos h3]
  · rw [if_neg h3, if_neg h3]

theorem hexDigitOf_ok (value : UInt8) (field : String) (d : UInt8) :
    hexDigitOf value field = .ok d ↔ Hex.digit value = some d := by
  rw [hexDigitOf_eq]
  cases Hex.digit value <;> simp only [Except.ok.injEq, Option.some.injEq, reduceCtorEq]

theorem decodeHexLoop_ok (field : String) (hex : Text) (heven : hex.length % 2 = 0) :
    ∀ b, decodeHexLoop field hex = .ok b ↔ Hex.decode hex = some b := by
  induction hex using Hex.decode.induct with
  | case1 =>
      intro b
      simp only [decodeHexLoop, pure_ok, Hex.decode, Option.some.injEq]
  | case2 c => simp only [List.length_singleton, Nat.reduceMod, Nat.one_ne_zero] at heven
  | case3 h l rest ih =>
      intro b
      have hrest : rest.length % 2 = 0 := by
        simp only [List.length_cons] at heven
        omega
      rw [decodeHexLoop, Hex.decode_cons_cons]
      simp only [bind_ok, pure_ok, hexDigitOf_ok, ih hrest, Option.bind_eq_some_iff,
        Option.map_eq_some_iff]

/-- The builder reads exactly what the library's reader reads. -/
theorem decodeHex_ok (hex : Text) (field : String) (b : Bytes) :
    decodeHex hex field = .ok b ↔ Hex.decode hex = some b := by
  have hand : hex.length &&& 1 = hex.length % 2 := Nat.and_one_is_mod _
  simp only [decodeHex, bind_ok, check_ok, hand, exists_const]
  constructor
  · rintro ⟨heven, h⟩
    exact (decodeHexLoop_ok field hex heven b).mp h
  · intro h
    have heven : hex.length % 2 = 0 := by
      rw [Hex.length_decode hex b h]
      omega
    exact ⟨heven, (decodeHexLoop_ok field hex heven b).mpr h⟩

/-- The transactions decode exactly when each reads as bytes with the hash the
    template gives for it. -/
theorem decodeTransactions_ok (i : Nat) (txs : List TemplateTransaction) (raws : List Bytes) :
    decodeTransactions i txs = .ok raws ↔ List.Forall₂ (fun tx raw =>
      Hex.decode tx.dataHex = some raw ∧ doubleSha256 raw = tx.wtxid) txs raws := by
  induction txs generalizing i raws with
  | nil => simp only [decodeTransactions, Except.ok.injEq, List.forall₂_nil_left_iff, eq_comm]
  | cons tx txs ih =>
      simp only [decodeTransactions, bind_ok, check_ok, pure_ok, decodeHex_ok, ih, exists_const,
        List.forall₂_cons_left_iff]
      constructor
      · rintro ⟨raw, hraw, hhash, rest, hrest, rfl⟩
        exact ⟨raw, rest, ⟨hraw, hhash⟩, hrest, rfl⟩
      · rintro ⟨raw, rest, ⟨hraw, hhash⟩, hrest, rfl⟩
        exact ⟨raw, hraw, hhash, rest, hrest, rfl⟩

theorem fromCoinbase_ok (x : Except CoinbaseError CoinbaseTransaction) (cb : CoinbaseTransaction) :
    fromCoinbase x = .ok cb ↔ x = .ok cb := by
  cases x <;> simp only [fromCoinbase, reduceCtorEq, Except.ok.injEq]

/-- Everything a successful build has computed on the way, and what it checked
    about it. -/
structure BuildSteps (t : BlockTemplate) (payoutScript extranonce : Bytes) where
  aux : Bytes
  commitment : Bytes
  coinbase : CoinbaseTransaction
  raws : List Bytes
  height : ¬(t.height = 0 ∨ t.height > 0xffffffff)
  value : ¬t.coinbaseValue > 0x7fffffffffffffff
  decodesAux : Hex.decode t.coinbaseAuxFlags = some aux
  decodesCommitment : Hex.decode t.witnessCommitmentHex = some commitment
  buildsCoinbase : buildCoinbaseTransaction t.height.toUInt32 t.coinbaseValue.toInt64
    payoutScript aux extranonce commitment = .ok coinbase
  unmutated : (computeMerkleRoot (merkleLeaves t coinbase.txid)).mutated = false
  decodesRaws : List.Forall₂ (fun tx raw =>
    Hex.decode tx.dataHex = some raw ∧ doubleSha256 raw = tx.wtxid) t.transactions raws
  commitmentSize : commitment.length = 38
  commits : (commitment.drop 6).take 32 = (expectedCommitment t.transactions).bytes
  fits : (assembleBlock t coinbase raws).serializedBlock.length ≤ t.sizeLimit.toNat

/-- A candidate is built exactly when every step succeeds, and then it is the
    assembled one. -/
theorem buildBlockCandidate_ok_iff (t : BlockTemplate) (payoutScript extranonce : Bytes)
    (candidate : BlockCandidate) :
    buildBlockCandidate t payoutScript extranonce = .ok candidate ↔
      ∃ s : BuildSteps t payoutScript extranonce,
        candidate = assembleBlock t s.coinbase s.raws := by
  simp only [buildBlockCandidate, decodeAndValidateTemplateTransactions, bind_ok, check_ok,
    pure_ok, decodeHex_ok, fromCoinbase_ok, decodeTransactions_ok, exists_const]
  constructor
  · rintro ⟨hheight, hvalue, aux, haux, commitment, hcommit, cb, hcb, hmut, raws,
      ⟨raws', hraws, hsize, hcommits, rfl⟩, hfits, rfl⟩
    exact ⟨⟨aux, commitment, cb, raws', hheight, hvalue, haux, hcommit, hcb, hmut, hraws, hsize,
      hcommits, Nat.le_of_not_gt hfits⟩, rfl⟩
  · rintro ⟨s, rfl⟩
    exact ⟨s.height, s.value, s.aux, s.decodesAux, s.commitment, s.decodesCommitment, s.coinbase,
      s.buildsCoinbase, s.unmutated, s.raws,
      ⟨s.raws, s.decodesRaws, s.commitmentSize, s.commits, rfl⟩, Nat.not_lt.mpr s.fits, rfl⟩

end MercaMiner
