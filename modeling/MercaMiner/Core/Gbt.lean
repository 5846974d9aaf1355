import MercaMiner.Basis.Outcome
import MercaMiner.Core.Json
import MercaMiner.Core.Target

/-!
# Block Templates

Parsing a `getblocktemplate` reply, from `gbt.cpp`.

Every field is required, typed and range-checked on its own, and a few checks
compare two fields. A failed check throws with the field and the reason in
its text. The transaction list is a vector of the language, so a longer one
than a vector can hold cannot come out of the parser; `BlockTemplate` carries
that bound.

## Main definitions

* `GbtError`: The exceptions of the parser.
* `TemplateTransaction`, `BlockTemplate`: The parsed forms.
* `requireMember` and the readers built on it: One field each.
* `parseTransactions`: The transaction list.
* `parseBlockTemplate`: The whole reply.
* `parseBlockchainInfo`: The reply to `getblockchaininfo`, which shares the
  readers.
-/

namespace MercaMiner

open Outcome

/-- The exceptions of the parser: its own, with their text, and the one a
    vector throws when asked for more room than it can have. -/
inductive GbtError where
  | template (what : String)
  | lengthError
  deriving DecidableEq

structure TemplateTransaction where
  dataHex : Text
  txid : UInt256
  wtxid : UInt256
  depends : List UInt64
  fee : Int64
  sigops : UInt64
  weight : UInt64
  deriving DecidableEq

structure BlockTemplate where
  version : Int32
  rules : List Text
  previousBlockHash : UInt256
  transactions : List TemplateTransaction
  coinbaseAuxFlags : Text
  coinbaseValue : UInt64
  longpollId : Text
  submitOld : Option Bool
  target : UInt256
  bits : UInt32
  minimumTime : UInt32
  currentTime : UInt32
  height : UInt64
  nonceMin : UInt32
  nonceMax : UInt32
  sigopLimit : UInt64
  sizeLimit : UInt64
  weightLimit : Option UInt64
  witnessCommitmentHex : Text
  /-- The transactions are held in a vector. -/
  transactions_lt : transactions.length < 2 ^ 63
  deriving DecidableEq

/-- The error of a failed field check. -/
def invalid (field reason : String) : GbtError :=
  .template ("Invalid " ++ field ++ ": " ++ reason)

def fail {α : Type} (field reason : String) : Except GbtError α :=
  .error (invalid field reason)

def requireMember (object : Json) (name : String) : Except GbtError Json :=
  match object.find name with
  | none => fail name "missing field"
  | some value => .ok value

def requireString (object : Json) (name : String) : Except GbtError Text := do
  match ← requireMember object name with
  | .string s => .ok s
  | _ => fail name "expected string"

def unsignedInteger (value : Json) (field : String) : Except GbtError UInt64 :=
  match value with
  | .numberUnsigned n => .ok n
  | .numberInteger n => if n < 0 then fail field "must not be negative" else .ok n.toUInt64
  | _ => fail field "expected integer"

def requireUnsigned (object : Json) (name : String) : Except GbtError UInt64 := do
  let value ← requireMember object name
  unsignedInteger value name

def signedInteger (value : Json) (field : String) : Except GbtError Int64 :=
  match value with
  | .numberUnsigned n =>
      -- A larger number would turn negative.
      if n > 0x7fffffffffffffff then fail field "integer out of range" else .ok n.toInt64
  | .numberInteger n => .ok n
  | _ => fail field "expected integer"

def requireSigned (object : Json) (name : String) : Except GbtError Int64 := do
  let value ← requireMember object name
  signedInteger value name

def requireUint32 (object : Json) (name : String) : Except GbtError UInt32 := do
  let value ← requireUnsigned object name
  if value > 0xffffffff then fail name "integer out of uint32 range" else .ok value.toUInt32

def requireInt32 (object : Json) (name : String) : Except GbtError Int32 := do
  let value ← requireSigned object name
  if value < -2147483648 ∨ value > 2147483647 then fail name "integer out of int32 range"
  else .ok value.toInt32

def isHexDigit (c : UInt8) : Bool :=
  (c ≥ '0'.toUInt8 && c ≤ '9'.toUInt8) || (c ≥ 'a'.toUInt8 && c ≤ 'f'.toUInt8) ||
    (c ≥ 'A'.toUInt8 && c ≤ 'F'.toUInt8)

def isEvenHex (value : Text) : Bool :=
  !value.isEmpty && value.length % 2 == 0 && value.all isHexDigit

def requireUInt256 (object : Json) (name : String) : Except GbtError UInt256 := do
  let s ← requireString object name
  match UInt256.fromHexBE s with
  | none => fail name "expected exactly 64 hexadecimal characters"
  | some value => .ok value

def parseRule (value : Json) : Except GbtError Text :=
  match value with
  | .string s => .ok s
  | _ => fail "rules" "every rule must be a string"

def parseRules (object : Json) : Except GbtError (List Text) := do
  match ← requireMember object "rules" with
  | .array items => mapAll parseRule items
  | _ => fail "rules" "expected array"

def ruleMatches (candidate wanted : Text) : Bool :=
  match candidate with
  | c :: rest => if c == '!'.toUInt8 then rest == wanted else candidate == wanted
  | [] => candidate == wanted

def hasTemplateRule (rules : List Text) (rule : Text) : Bool :=
  rules.any fun candidate => ruleMatches candidate rule

def normalizeLower (value : Text) : Text :=
  value.map Hex.lower

def validateWitnessCommitment (commitment : Text) : Except GbtError Unit := do
  check (¬(commitment.length ≠ 76 ∨ ¬isEvenHex commitment))
    (invalid "default_witness_commitment" "expected 38-byte hexadecimal script")
  check (text "6a24aa21a9ed" <+: normalizeLower commitment)
    (invalid "default_witness_commitment" "unexpected witness commitment prefix")

/-- One entry of a transaction's dependency list, which names an earlier
    transaction by its one-based position. -/
def parseDependency (i : Nat) (dependency : Json) : Except GbtError UInt64 := do
  let index ← unsignedInteger dependency "transactions.depends"
  check (¬(index = 0 ∨ index.toNat > i))
    (invalid "transactions.depends" "dependency must refer to an earlier transaction")
  return index

def parseDepends (i : Nat) (tx : Json) : Except GbtError (List UInt64) := do
  match ← requireMember tx "depends" with
  | .array items => mapAll (parseDependency i) items
  | _ => fail "transactions.depends" "expected array"

/-- The transaction at position `i`. -/
def parseTransaction (i : Nat) (tx : Json) : Except GbtError TemplateTransaction := do
  check (tx.isObject) (invalid "transactions" "transaction entry must be object")
  let dataHex ← requireString tx "data"
  check (isEvenHex dataHex)
    (invalid "transactions.data" "expected non-empty even-length hexadecimal")
  let txid ← requireUInt256 tx "txid"
  let wtxid ← requireUInt256 tx "hash"
  let depends ← parseDepends i tx
  let fee ← requireSigned tx "fee"
  let sigops ← requireUnsigned tx "sigops"
  let weight ← requireUnsigned tx "weight"
  return { dataHex, txid, wtxid, depends, fee, sigops, weight }

/-- The loop over the array, from position `i` on. -/
def parseTransactionsFrom : Nat → List Json → Except GbtError (List TemplateTransaction)
  | _, [] => .ok []
  | i, tx :: rest => do
      let parsed ← parseTransaction i tx
      let transactions ← parseTransactionsFrom (i + 1) rest
      return parsed :: transactions

def parseTransactions (object : Json) : Except GbtError (List TemplateTransaction) := do
  match ← requireMember object "transactions" with
  | .array items => do
      -- Room for all of them is reserved first.
      check (items.length < 2 ^ 63) .lengthError
      parseTransactionsFrom 0 items
  | _ => fail "transactions" "expected array"

/-- The optional `flags` member of `coinbaseaux`. -/
def parseCoinbaseAux (object : Json) : Except GbtError Text := do
  let coinbaseAux ← requireMember object "coinbaseaux"
  check (coinbaseAux.isObject) (invalid "coinbaseaux" "expected object")
  match coinbaseAux.find "flags" with
  | none => return []
  | some (.string flags) => do
      check (¬(!flags.isEmpty && !isEvenHex flags))
        (invalid "coinbaseaux.flags" "expected even-length hexadecimal")
      return flags
  | some _ => fail "coinbaseaux.flags" "expected hexadecimal string"

/-- The optional `submitold` member. -/
def parseSubmitOld (object : Json) : Except GbtError (Option Bool) :=
  match object.find "submitold" with
  | none => .ok none
  | some (.boolean b) => .ok (some b)
  | some _ => fail "submitold" "expected boolean"

/-- The optional `weightlimit` member. -/
def parseWeightLimit (object : Json) : Except GbtError (Option UInt64) :=
  match object.find "weightlimit" with
  | none => .ok none
  | some value => do
      let weightLimit ← unsignedInteger value "weightlimit"
      check (weightLimit ≠ 0) (invalid "weightlimit" "must be greater than zero")
      return some weightLimit

/-- The compact target in `bits`. -/
def parseBits (object : Json) : Except GbtError UInt32 := do
  let bitsText ← requireString object "bits"
  match parseBitsHex bitsText with
  | none => fail "bits" "expected exactly 8 hexadecimal characters"
  | some bits => return bits

/-- The target the compact form denotes, which must be usable. -/
def deriveTarget (bits : UInt32) : Except GbtError UInt256 :=
  match validTargetFromCompact bits with
  | none => fail "bits" "compact target is invalid"
  | some derived => .ok derived

/-- The two halves of `noncerange`. -/
def parseNonceRange (object : Json) : Except GbtError (UInt32 × UInt32) := do
  let nonceRange ← requireString object "noncerange"
  check (¬(nonceRange.length ≠ 16 ∨ ¬isEvenHex nonceRange))
    (invalid "noncerange" "expected exactly 16 hexadecimal characters")
  match parseBitsHex (nonceRange.take 8), parseBitsHex ((nonceRange.drop 8).take 8) with
  | some nonceMin, some nonceMax => do
      check (¬nonceMin > nonceMax) (invalid "noncerange" "minimum exceeds maximum")
      return (nonceMin, nonceMax)
  | _, _ => fail "noncerange" "invalid hexadecimal range"

theorem length_parseTransactionsFrom (i : Nat) (items : List Json)
    (txs : List TemplateTransaction) (h : parseTransactionsFrom i items = .ok txs) :
    txs.length = items.length := by
  induction items generalizing i txs with
  | nil =>
      simp only [parseTransactionsFrom, Except.ok.injEq] at h
      rw [← h]
      rfl
  | cons tx rest ih =>
      simp only [parseTransactionsFrom, bind_ok, pure_ok] at h
      rcases h with ⟨parsed, _, tail, htail, rfl⟩
      simp only [List.length_cons, ih (i + 1) tail htail]

/-- The member is an array, and its entries are parsed from the first one on. -/
theorem parseTransactions_array (object : Json) (txs : List TemplateTransaction)
    (h : parseTransactions object = .ok txs) :
    ∃ items, requireMember object "transactions" = .ok (.array items) ∧
      items.length < 2 ^ 63 ∧ parseTransactionsFrom 0 items = .ok txs := by
  simp only [parseTransactions, bind_ok] at h
  rcases h with ⟨value, hvalue, h⟩
  cases value with
  | array items =>
      simp only [bind_ok, check_ok] at h
      rcases h with ⟨_, hlen, hfrom⟩
      exact ⟨items, hvalue, hlen, hfrom⟩
  | _ => exact absurd h (by simp only [fail, reduceCtorEq, not_false_eq_true])

theorem length_parseTransactions (object : Json) (txs : List TemplateTransaction)
    (h : parseTransactions object = .ok txs) : txs.length < 2 ^ 63 := by
  rcases parseTransactions_array object txs h with ⟨items, _, hlen, hfrom⟩
  rw [length_parseTransactionsFrom 0 items txs hfrom]
  exact hlen

/-- The transaction list with the bound its vector has. -/
def parseTransactionVector (object : Json) :
    Except GbtError { txs : List TemplateTransaction // txs.length < 2 ^ 63 } :=
  match h : parseTransactions object with
  | .error e => .error e
  | .ok txs => .ok ⟨txs, length_parseTransactions object txs h⟩

def parseBlockTemplate (value : Json) : Except GbtError BlockTemplate := do
  check (value.isObject) (.template "Invalid getblocktemplate: expected object")
  let version ← requireInt32 value "version"
  let rules ← parseRules value
  check (hasTemplateRule rules (text "segwit")) (invalid "rules" "segwit rule is required")
  let previousBlockHash ← requireUInt256 value "previousblockhash"
  let transactions ← parseTransactionVector value
  let coinbaseAuxFlags ← parseCoinbaseAux value
  let coinbaseValue ← requireUnsigned value "coinbasevalue"
  let longpollId ← requireString value "longpollid"
  check (¬longpollId.isEmpty) (invalid "longpollid" "must not be empty")
  let submitOld ← parseSubmitOld value
  -- The target is given twice, and both must agree.
  let bits ← parseBits value
  let derivedTarget ← deriveTarget bits
  let target ← requireUInt256 value "target"
  check (derivedTarget = target) (invalid "target" "does not agree with bits")
  let minimumTime ← requireUint32 value "mintime"
  let currentTime ← requireUint32 value "curtime"
  check (¬currentTime < minimumTime)
    (invalid "curtime" "must be greater than or equal to mintime")
  let height ← requireUnsigned value "height"
  check (height ≠ 0) (invalid "height" "must be greater than zero")
  let nonces ← parseNonceRange value
  let sigopLimit ← requireUnsigned value "sigoplimit"
  let sizeLimit ← requireUnsigned value "sizelimit"
  check (sizeLimit ≠ 0) (invalid "sizelimit" "must be greater than zero")
  let weightLimit ← parseWeightLimit value
  let witnessCommitmentHex ← requireString value "default_witness_commitment"
  validateWitnessCommitment witnessCommitmentHex
  return {
    version, rules, previousBlockHash
    transactions := transactions.val
    coinbaseAuxFlags, coinbaseValue, longpollId, submitOld, target, bits, minimumTime
    currentTime, height
    nonceMin := nonces.1
    nonceMax := nonces.2
    sigopLimit, sizeLimit, weightLimit, witnessCommitmentHex
    transactions_lt := transactions.property }

/-- A `getblockchaininfo` reply. -/
structure BlockchainInfo where
  chain : Text
  blocks : UInt64
  headers : UInt64
  bestBlockHash : UInt256
  bits : UInt32
  target : UInt256
  deriving DecidableEq

def parseBlockchainInfo (value : Json) : Except GbtError BlockchainInfo := do
  check (value.isObject) (.template "Invalid getblockchaininfo: expected object")
  let chain ← requireString value "chain"
  check (¬chain.isEmpty) (invalid "chain" "must not be empty")
  let blocks ← requireUnsigned value "blocks"
  let headers ← requireUnsigned value "headers"
  let bestBlockHash ← requireUInt256 value "bestblockhash"
  let bits ← parseBits value
  let target ← requireUInt256 value "target"
  let derived ← deriveTarget bits
  check (derived = target) (invalid "target" "does not agree with bits")
  return { chain, blocks, headers, bestBlockHash, bits, target }

end MercaMiner
