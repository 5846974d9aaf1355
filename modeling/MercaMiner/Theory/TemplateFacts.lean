import MercaMiner.Core.Gbt

/-!
# What a Parsed Template Satisfies

The checks of the template parser, as facts about what it returns.

A parser that returned has gone through all its reads and checks. That is said
once for an entry of the transaction list and once for the template, and
everything else known of a parsed template is derived from it.

## Main definitions

* `TransactionReads`, `TemplateReads`: What a parser that returned has read and
  checked.
* `TemplateFacts`: What a template satisfies on its own.
* `regtestReply`, `regtestTemplate`: A reply of a regtest node, and the
  template it parses to.

## Theorems

* `parseTransaction_reads`, `parseBlockTemplate_reads`: The reads and checks of
  the two parsers.
* `parseBlockTemplate_facts`: A parsed template satisfies the facts.
-/

namespace MercaMiner

open Outcome

/-- What the parser has checked about a template it returns. -/
structure TemplateFacts (t : BlockTemplate) : Prop where
  target : validTargetFromCompact t.bits = some t.target
  nonces : t.nonceMin ≤ t.nonceMax
  times : t.minimumTime ≤ t.currentTime
  height : t.height ≠ 0
  sizeLimit : t.sizeLimit ≠ 0
  flags : t.coinbaseAuxFlags = [] ∨ isEvenHex t.coinbaseAuxFlags = true
  commitmentLength : t.witnessCommitmentHex.length = 76
  commitmentHex : isEvenHex t.witnessCommitmentHex = true
  commitmentStart : text "6a24aa21a9ed" <+: normalizeLower t.witnessCommitmentHex
  data : ∀ tx ∈ t.transactions, isEvenHex tx.dataHex = true

/-- What has been read and checked when an entry was parsed. -/
structure TransactionReads (i : Nat) (item : Json) (tx : TemplateTransaction) : Prop where
  isObject : item.isObject = true
  data : requireString item "data" = .ok tx.dataHex
  dataHex : isEvenHex tx.dataHex = true
  txid : requireUInt256 item "txid" = .ok tx.txid
  wtxid : requireUInt256 item "hash" = .ok tx.wtxid
  depends : parseDepends i item = .ok tx.depends
  fee : requireSigned item "fee" = .ok tx.fee
  sigops : requireUnsigned item "sigops" = .ok tx.sigops
  weight : requireUnsigned item "weight" = .ok tx.weight

theorem parseTransaction_reads (i : Nat) (item : Json) (tx : TemplateTransaction)
    (h : parseTransaction i item = .ok tx) : TransactionReads i item tx := by
  simp only [parseTransaction, bind_ok, check_ok, pure_ok, exists_const] at h
  rcases h with ⟨hobject, dataHex, hdata, heven, txid, htxid, wtxid, hwtxid, depends, hdepends,
    fee, hfee, sigops, hsigops, weight, hweight, rfl⟩
  exact ⟨hobject, hdata, heven, htxid, hwtxid, hdepends, hfee, hsigops, hweight⟩

theorem parseTransactionsFrom_data (i : Nat) (items : List Json) (txs : List TemplateTransaction)
    (h : parseTransactionsFrom i items = .ok txs) :
    ∀ tx ∈ txs, isEvenHex tx.dataHex = true := by
  induction items generalizing i txs with
  | nil =>
      simp only [parseTransactionsFrom, Except.ok.injEq] at h
      rw [← h]
      exact fun tx htx => absurd htx List.not_mem_nil
  | cons item rest ih =>
      simp only [parseTransactionsFrom, bind_ok, pure_ok] at h
      rcases h with ⟨parsed, hparsed, tail, htail, rfl⟩
      intro tx htx
      rcases List.mem_cons.mp htx with rfl | hmem
      · exact (parseTransaction_reads i item tx hparsed).dataHex
      · exact ih (i + 1) tail htail tx hmem

theorem parseTransactions_data (object : Json) (txs : List TemplateTransaction)
    (h : parseTransactions object = .ok txs) : ∀ tx ∈ txs, isEvenHex tx.dataHex = true := by
  rcases parseTransactions_array object txs h with ⟨items, _, _, hfrom⟩
  exact parseTransactionsFrom_data 0 items txs hfrom

theorem parseTransactionVector_ok (object : Json)
    (txs : { txs : List TemplateTransaction // txs.length < 2 ^ 63 })
    (h : parseTransactionVector object = .ok txs) : parseTransactions object = .ok txs.val := by
  unfold parseTransactionVector at h
  split at h
  · exact absurd h (by simp only [reduceCtorEq, not_false_eq_true])
  · next found hfound =>
      rw [Except.ok.injEq] at h
      rw [hfound, ← h]

theorem deriveTarget_ok (bits : UInt32) (derived : UInt256) (h : deriveTarget bits = .ok derived) :
    validTargetFromCompact bits = some derived := by
  unfold deriveTarget at h
  cases hvalid : validTargetFromCompact bits with
  | none =>
      simp only [hvalid] at h
      exact absurd h (by simp only [fail, reduceCtorEq, not_false_eq_true])
  | some x =>
      simp only [hvalid, Except.ok.injEq] at h
      rw [h]

theorem parseCoinbaseAux_ok (object : Json) (flags : Text)
    (h : parseCoinbaseAux object = .ok flags) : flags = [] ∨ isEvenHex flags = true := by
  simp only [parseCoinbaseAux, bind_ok, check_ok] at h
  rcases h with ⟨aux, _, _, _, h⟩
  cases hflags : aux.find "flags" with
  | none =>
      rw [hflags] at h
      exact Or.inl ((pure_ok _ _).mp h).symm
  | some value =>
      rw [hflags] at h
      cases value with
      | string found =>
          simp only [bind_ok, check_ok, pure_ok] at h
          rcases h with ⟨_, heven, rfl⟩
          cases hempty : found.isEmpty with
          | true => exact Or.inl (List.isEmpty_iff.mp hempty)
          | false =>
              simp only [hempty, Bool.not_false, Bool.true_and, Bool.not_eq_true',
                Bool.not_eq_false] at heven
              exact Or.inr heven
      | _ => exact absurd h (by simp only [fail, reduceCtorEq, not_false_eq_true])

/-- The range is a text of sixteen digits whose halves are read separately. -/
theorem parseNonceRange_ok (object : Json) (nonces : UInt32 × UInt32)
    (h : parseNonceRange object = .ok nonces) :
    ∃ range, requireString object "noncerange" = .ok range ∧ range.length = 16 ∧
      isEvenHex range = true ∧ parseBitsHex (range.take 8) = some nonces.1 ∧
      parseBitsHex ((range.drop 8).take 8) = some nonces.2 ∧ nonces.1 ≤ nonces.2 := by
  simp only [parseNonceRange, bind_ok, check_ok, exists_const] at h
  rcases h with ⟨range, hrange, hform, h⟩
  rw [not_or, not_not, not_not] at hform
  refine ⟨range, hrange, hform.1, hform.2, ?_⟩
  cases hmin : parseBitsHex (range.take 8) with
  | none =>
      rw [hmin] at h
      exact absurd h (by simp only [fail, reduceCtorEq, not_false_eq_true])
  | some nonceMin =>
      cases hmax : parseBitsHex ((range.drop 8).take 8) with
      | none =>
          rw [hmin, hmax] at h
          exact absurd h (by simp only [fail, reduceCtorEq, not_false_eq_true])
      | some nonceMax =>
          rw [hmin, hmax] at h
          simp only [bind_ok, check_ok, pure_ok, exists_const] at h
          rcases h with ⟨horder, rfl⟩
          exact ⟨rfl, rfl, UInt32.not_lt.mp horder⟩

theorem validateWitnessCommitment_facts (commitment : Text) (u : Unit)
    (h : validateWitnessCommitment commitment = .ok u) :
    commitment.length = 76 ∧ isEvenHex commitment = true ∧
      text "6a24aa21a9ed" <+: normalizeLower commitment := by
  simp only [validateWitnessCommitment, bind_ok, check_ok, not_or, not_not] at h
  rcases h with ⟨_, ⟨hlen, heven⟩, hstart⟩
  exact ⟨hlen, heven, hstart⟩

/-- What has been read and checked when a template was parsed. -/
structure TemplateReads (value : Json) (t : BlockTemplate) : Prop where
  isObject : value.isObject = true
  version : requireInt32 value "version" = .ok t.version
  rules : parseRules value = .ok t.rules
  segwit : hasTemplateRule t.rules (text "segwit") = true
  previousBlockHash : requireUInt256 value "previousblockhash" = .ok t.previousBlockHash
  transactions : parseTransactions value = .ok t.transactions
  coinbaseAuxFlags : parseCoinbaseAux value = .ok t.coinbaseAuxFlags
  coinbaseValue : requireUnsigned value "coinbasevalue" = .ok t.coinbaseValue
  longpollId : requireString value "longpollid" = .ok t.longpollId
  longpollIdNonempty : t.longpollId.isEmpty = false
  submitOld : parseSubmitOld value = .ok t.submitOld
  bits : parseBits value = .ok t.bits
  derivedTarget : deriveTarget t.bits = .ok t.target
  target : requireUInt256 value "target" = .ok t.target
  minimumTime : requireUint32 value "mintime" = .ok t.minimumTime
  currentTime : requireUint32 value "curtime" = .ok t.currentTime
  times : ¬t.currentTime < t.minimumTime
  height : requireUnsigned value "height" = .ok t.height
  heightNonzero : t.height ≠ 0
  nonces : parseNonceRange value = .ok (t.nonceMin, t.nonceMax)
  sigopLimit : requireUnsigned value "sigoplimit" = .ok t.sigopLimit
  sizeLimit : requireUnsigned value "sizelimit" = .ok t.sizeLimit
  sizeLimitNonzero : t.sizeLimit ≠ 0
  weightLimit : parseWeightLimit value = .ok t.weightLimit
  witnessCommitment : requireString value "default_witness_commitment"
    = .ok t.witnessCommitmentHex
  commitmentValid : validateWitnessCommitment t.witnessCommitmentHex = .ok ()

theorem parseBlockTemplate_reads (value : Json) (t : BlockTemplate)
    (h : parseBlockTemplate value = .ok t) : TemplateReads value t := by
  simp only [parseBlockTemplate, bind_ok, check_ok, pure_ok, exists_const] at h
  rcases h with ⟨hobject, version, hversion, rules, hrules, hsegwit, previous, hprevious,
    transactions, htransactions, aux, haux, coinbaseValue, hcoinbase, longpollId, hlongpoll,
    hnonempty, submitOld, hsubmit, bits, hbits, derived, hderived, target, htarget, hagree,
    minimumTime, hmin, currentTime, hcur, htimes, height, hheight, hheight0, nonces, hnonces,
    sigopLimit, hsigops, sizeLimit, hsize, hsize0, weightLimit, hweight, commitment, hcommitment,
    _, hvalid, rfl⟩
  rw [hagree] at hderived
  exact {
    isObject := hobject
    version := hversion
    rules := hrules
    segwit := hsegwit
    previousBlockHash := hprevious
    transactions := parseTransactionVector_ok value transactions htransactions
    coinbaseAuxFlags := haux
    coinbaseValue := hcoinbase
    longpollId := hlongpoll
    longpollIdNonempty := Bool.eq_false_of_not_eq_true hnonempty
    submitOld := hsubmit
    bits := hbits
    derivedTarget := hderived
    target := htarget
    minimumTime := hmin
    currentTime := hcur
    times := htimes
    height := hheight
    heightNonzero := hheight0
    nonces := hnonces
    sigopLimit := hsigops
    sizeLimit := hsize
    sizeLimitNonzero := hsize0
    weightLimit := hweight
    witnessCommitment := hcommitment
    commitmentValid := hvalid }

/-- A parsed template satisfies what the parser checks. -/
theorem parseBlockTemplate_facts (value : Json) (t : BlockTemplate)
    (h : parseBlockTemplate value = .ok t) : TemplateFacts t := by
  have hreads := parseBlockTemplate_reads value t h
  rcases validateWitnessCommitment_facts t.witnessCommitmentHex () hreads.commitmentValid with
    ⟨hlen, heven, hstart⟩
  rcases parseNonceRange_ok value _ hreads.nonces with ⟨_, _, _, _, _, _, horder⟩
  exact {
    target := deriveTarget_ok t.bits t.target hreads.derivedTarget
    nonces := horder
    times := UInt32.not_lt.mp hreads.times
    height := hreads.heightNonzero
    sizeLimit := hreads.sizeLimitNonzero
    flags := parseCoinbaseAux_ok value _ hreads.coinbaseAuxFlags
    commitmentLength := hlen
    commitmentHex := heven
    commitmentStart := hstart
    data := parseTransactions_data value t.transactions hreads.transactions }

/-- A reply of a node on the regression test network, for the first block. -/
def regtestReply : Json :=
  .object [
    (text "version", .numberUnsigned 536870912),
    (text "rules", .array [.string (text "csv"), .string (text "!segwit"),
      .string (text "taproot")]),
    (text "previousblockhash",
      .string (text "8e2308efb3a16b126e69444329cc0ed81bea0596e99db1032ccd750e7028f685")),
    (text "transactions", .array []),
    (text "coinbaseaux", .object []),
    (text "coinbasevalue", .numberUnsigned 2378234),
    (text "longpollid",
      .string (text "8e2308efb3a16b126e69444329cc0ed81bea0596e99db1032ccd750e7028f6851")),
    (text "target",
      .string (text "7fffff0000000000000000000000000000000000000000000000000000000000")),
    (text "mintime", .numberUnsigned 1788566401),
    (text "noncerange", .string (text "00000000ffffffff")),
    (text "sigoplimit", .numberUnsigned 80000),
    (text "sizelimit", .numberUnsigned 1048576),
    (text "weightlimit", .numberUnsigned 4194304),
    (text "curtime", .numberUnsigned 1789962799),
    (text "bits", .string (text "207fffff")),
    (text "height", .numberUnsigned 1),
    (text "default_witness_commitment", .string (text
      "6a24aa21a9ede2f61c3f71d1defd3fa999dfa36953755c690689799962b48bebd836974e8cf9"))]

/-- The template in that reply. -/
def regtestTemplate : BlockTemplate where
  version := 536870912
  rules := [text "csv", text "!segwit", text "taproot"]
  previousBlockHash := (UInt256.fromHexBE
    (text "8e2308efb3a16b126e69444329cc0ed81bea0596e99db1032ccd750e7028f685")).getD default
  transactions := []
  coinbaseAuxFlags := []
  coinbaseValue := 2378234
  longpollId := text "8e2308efb3a16b126e69444329cc0ed81bea0596e99db1032ccd750e7028f6851"
  submitOld := none
  target := (UInt256.fromHexBE
    (text "7fffff0000000000000000000000000000000000000000000000000000000000")).getD default
  bits := 0x207fffff
  minimumTime := 1788566401
  currentTime := 1789962799
  height := 1
  nonceMin := 0
  nonceMax := 0xffffffff
  sigopLimit := 80000
  sizeLimit := 1048576
  weightLimit := some 4194304
  witnessCommitmentHex := text
    "6a24aa21a9ede2f61c3f71d1defd3fa999dfa36953755c690689799962b48bebd836974e8cf9"
  transactions_lt := by decide

theorem parseBlockTemplate_regtest : parseBlockTemplate regtestReply = .ok regtestTemplate := by
  decide +kernel

end MercaMiner
