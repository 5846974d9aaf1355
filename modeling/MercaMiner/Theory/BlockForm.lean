import MercaMiner.Core.CandidateMiner

/-!
# The Form of a Built Block

The concatenation a built block is, and that its header comes first.

## Main definitions

* `blockBody`: Everything after the header.

## Theorems

* `serializeBlock_eq`: The block is its header and its body.
* `built_valid`: A built candidate passes the check before mining.
-/

namespace MercaMiner

/-- The transaction count, the coinbase and the template's transactions. -/
def blockBody (t : BlockTemplate) (coinbase : CoinbaseTransaction) (rawTransactions : List Bytes) :
    Bytes :=
  Wire.encodeCompactSize (1 + t.transactions.length) ++
    (coinbase.serializedWithWitness ++ rawTransactions.flatten)

theorem foldl_appendBytes (rawTransactions : List Bytes) (block : Bytes) :
    rawTransactions.foldl appendBytes block = block ++ rawTransactions.flatten := by
  induction rawTransactions generalizing block with
  | nil => simp only [List.foldl_nil, List.flatten_nil, List.append_nil]
  | cons raw rest ih => simp only [List.foldl_cons, ih, List.flatten_cons, List.append_assoc]

/-- The count of transactions does not wrap, since they are held in a
    vector. -/
theorem serializeBlock_eq (t : BlockTemplate) (header : BlockHeader)
    (coinbase : CoinbaseTransaction) (rawTransactions : List Bytes) :
    serializeBlock t header coinbase rawTransactions
      = header.serialize ++ blockBody t coinbase rawTransactions := by
  have hcount : (UInt64.ofNat (1 + t.transactions.length)).toNat = 1 + t.transactions.length := by
    have hlt := t.transactions_lt
    rw [UInt64.toNat_ofNat']
    omega
  simp only [serializeBlock, blockBody, foldl_appendBytes, appendCompactSize_eq, hcount,
    List.nil_append, List.append_assoc]

/-- A built block starts with its header, so mining accepts it. -/
theorem built_valid (t : BlockTemplate) (payoutScript extranonce : Bytes)
    (candidate : BlockCandidate)
    (h : buildBlockCandidate t payoutScript extranonce = .ok candidate) :
    validateBlockCandidateForMining candidate = .ok () := by
  rcases (buildBlockCandidate_ok_iff t payoutScript extranonce candidate).mp h with ⟨s, rfl⟩
  rw [validate_ok]
  exact ⟨blockBody t s.coinbase s.raws, serializeBlock_eq t _ s.coinbase s.raws⟩

/-- A built header has the first nonce of the template's range. -/
theorem built_nonce (t : BlockTemplate) (payoutScript extranonce : Bytes)
    (candidate : BlockCandidate)
    (h : buildBlockCandidate t payoutScript extranonce = .ok candidate) :
    candidate.header.nonce = t.nonceMin := by
  rcases (buildBlockCandidate_ok_iff t payoutScript extranonce candidate).mp h with ⟨s, rfl⟩
  rfl

/-- A built header carries the template's fields. -/
theorem built_header (t : BlockTemplate) (payoutScript extranonce : Bytes)
    (candidate : BlockCandidate)
    (h : buildBlockCandidate t payoutScript extranonce = .ok candidate) :
    candidate.header.version = t.version ∧
    candidate.header.previousBlock = t.previousBlockHash ∧
    candidate.header.time = t.currentTime ∧ candidate.header.bits = t.bits := by
  rcases (buildBlockCandidate_ok_iff t payoutScript extranonce candidate).mp h with ⟨s, rfl⟩
  exact ⟨rfl, rfl, rfl, rfl⟩

end MercaMiner
