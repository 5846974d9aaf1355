import MercaMiner.Theory.BlockConsistency

/-!
# Why Building Fails

The failures that are left for a parsed template.

The parser and the builder check overlapping things in different
representations. For a template that came out of the parser, the hexadecimal
fields decode and the commitment has its form, so the builder's own checks of
these cannot fail. Seven causes remain, and each of them is a relation between
fields that the parser does not compare.

## Main definitions

* `DecodedFields`: The decoded hexadecimal fields of a template.
* `FailureCause`: What an exception of the builder says about the template.
* `BuildFails`: One of the seven causes holds.

## Theorems

* `decodedFields_exist`: The fields of a parsed template decode.
* `build_error_cause`: Every exception has its cause, and the others cannot
  happen.
* `build_fails_iff`: Building fails exactly for one of the causes.
-/

namespace MercaMiner

open Outcome

/-- The hexadecimal fields of a template as bytes. -/
structure DecodedFields (t : BlockTemplate) (aux commitment : Bytes) (raws : List Bytes) :
    Prop where
  decodesAux : Hex.decode t.coinbaseAuxFlags = some aux
  decodesCommitment : Hex.decode t.witnessCommitmentHex = some commitment
  commitmentSize : commitment.length = 38
  startsRight : commitment.take 6 = commitmentStart
  decodesRaws : List.Forall₂ (fun tx raw => Hex.decode tx.dataHex = some raw) t.transactions raws

theorem decode_of_isEvenHex (s : Text) (h : isEvenHex s = true) :
    ∃ b, Hex.decode s = some b := by
  have hdigit : ∀ c : UInt8, isHexDigit c = true → (Hex.digit c).isSome = true := by
    decide +kernel
  simp only [isEvenHex, Bool.and_eq_true, beq_iff_eq, List.all_eq_true] at h
  rcases h with ⟨⟨_, heven⟩, hall⟩
  exact Option.isSome_iff_exists.mp ((Hex.decode_isSome s).mpr
    ⟨heven, fun c hc => hdigit c (hall c hc)⟩)

/-- The text test on the commitment's start is a test on its bytes. -/
theorem decode_commitmentStart (s : Text) (b : Bytes) (hdecode : Hex.decode s = some b)
    (hstart : text "6a24aa21a9ed" <+: normalizeLower s) : b.take 6 = commitmentStart := by
  have htext : Hex.decode (text "6a24aa21a9ed") = some commitmentStart := by decide +kernel
  rcases hstart with ⟨rest, hrest⟩
  have hlower : Hex.decode (normalizeLower s) = some b := by
    rw [normalizeLower, Hex.decode_lower, hdecode]
  rw [← hrest, Hex.decode_append _ _ (by decide +kernel), htext, Option.bind_some,
    Option.map_eq_some_iff] at hlower
  rcases hlower with ⟨tail, _, rfl⟩
  exact List.take_left' rfl

/-- The hexadecimal fields of a parsed template all decode. -/
theorem decodedFields_exist (t : BlockTemplate) (h : TemplateFacts t) :
    ∃ aux commitment raws, DecodedFields t aux commitment raws := by
  have haux : ∃ aux, Hex.decode t.coinbaseAuxFlags = some aux := by
    rcases h.flags with hempty | heven
    · exact ⟨[], by rw [hempty]; rfl⟩
    · exact decode_of_isEvenHex _ heven
  have hraws : ∀ txs : List TemplateTransaction, (∀ tx ∈ txs, isEvenHex tx.dataHex = true) →
      ∃ raws, List.Forall₂ (fun tx raw => Hex.decode tx.dataHex = some raw) txs raws := by
    intro txs
    induction txs with
    | nil => exact fun _ => ⟨[], List.Forall₂.nil⟩
    | cons tx rest ih =>
        intro hall
        rcases decode_of_isEvenHex _ (hall tx List.mem_cons_self) with ⟨raw, hraw⟩
        rcases ih fun q hq => hall q (List.mem_cons_of_mem _ hq) with ⟨raws, hrest⟩
        exact ⟨raw :: raws, List.Forall₂.cons hraw hrest⟩
  rcases haux with ⟨aux, haux⟩
  rcases decode_of_isEvenHex _ h.commitmentHex with ⟨commitment, hcommitment⟩
  rcases hraws t.transactions h.data with ⟨raws, hraws⟩
  have hsize := Hex.length_decode _ _ hcommitment
  rw [h.commitmentLength] at hsize
  exact ⟨aux, commitment, raws, haux, hcommitment, by omega,
    decode_commitmentStart _ _ hcommitment h.commitmentStart, hraws⟩

section Causes

variable (t : BlockTemplate) (payoutScript extranonce aux commitment : Bytes) (raws : List Bytes)

/-- The coinbase script of a template. -/
def scriptSigOf : Bytes :=
  ScriptNum.push t.height.toNat ++ aux ++ extranonce

/-- The coinbase of a template, if it can be built. -/
def coinbaseOf : CoinbaseTransaction :=
  assembleCoinbase t.height.toUInt32 t.coinbaseValue.toInt64 payoutScript
    (scriptSigOf t extranonce aux) commitment

/-- The data of the transaction at a position does not have the hash given for
    it. -/
def HashMismatch (i : Nat) : Prop :=
  ∃ tx raw, t.transactions[i]? = some tx ∧ Hex.decode tx.dataHex = some raw ∧
    doubleSha256 raw ≠ tx.wtxid

/-- The commitment is not to the given hashes. -/
def CommitmentMismatch : Prop :=
  commitment ≠ commitmentStart ++ (expectedCommitment t.transactions).bytes

/-- What an exception says about the template. The exceptions that are not
    listed say something false. -/
def FailureCause : BlockBuildError → Prop
  | .heightRange => t.height.toNat > 2 ^ 32 - 1
  | .valueRange => t.coinbaseValue.toNat > 2 ^ 63 - 1
  | .coinbase .scriptSigSize => (scriptSigOf t extranonce aux).length > 100
  | .mutatedMerkle => (computeMerkleRoot (merkleLeaves t
      (coinbaseOf t payoutScript extranonce aux commitment).txid)).mutated = true
  | .wtxidMismatch i => HashMismatch t i
  | .commitmentMismatch => CommitmentMismatch t commitment
  | .sizeLimit => (assembleBlock t (coinbaseOf t payoutScript extranonce aux commitment)
      raws).serializedBlock.length > t.sizeLimit.toNat
  | _ => False

/-- One of the seven causes of a failure. -/
def BuildFails : Prop :=
  t.height.toNat > 2 ^ 32 - 1 ∨
  t.coinbaseValue.toNat > 2 ^ 63 - 1 ∨
  (scriptSigOf t extranonce aux).length > 100 ∨
  (computeMerkleRoot (merkleLeaves t
    (coinbaseOf t payoutScript extranonce aux commitment).txid)).mutated = true ∨
  (∃ i, HashMismatch t i) ∨
  CommitmentMismatch t commitment ∨
  (assembleBlock t (coinbaseOf t payoutScript extranonce aux commitment)
    raws).serializedBlock.length > t.sizeLimit.toNat

theorem buildFails_of_cause (e : BlockBuildError)
    (h : FailureCause t payoutScript extranonce aux commitment raws e) :
    BuildFails t payoutScript extranonce aux commitment raws := by
  unfold FailureCause at h
  unfold BuildFails
  cases e with
  | heightRange => exact Or.inl h
  | valueRange => exact Or.inr (Or.inl h)
  | mutatedMerkle => exact Or.inr (Or.inr (Or.inr (Or.inl h)))
  | wtxidMismatch i => exact Or.inr (Or.inr (Or.inr (Or.inr (Or.inl ⟨i, h⟩))))
  | commitmentMismatch => exact Or.inr (Or.inr (Or.inr (Or.inr (Or.inr (Or.inl h)))))
  | sizeLimit => exact Or.inr (Or.inr (Or.inr (Or.inr (Or.inr (Or.inr h)))))
  | coinbase e =>
      cases e with
      | scriptSigSize => exact Or.inr (Or.inr (Or.inl h))
      | _ => exact absurd h not_false
  | _ => exact absurd h not_false

theorem toInt64_nonneg (value : UInt64) (h : ¬value > 0x7fffffffffffffff) :
    ¬value.toInt64 < 0 := by
  have hle : value.toNat ≤ 2 ^ 63 - 1 := UInt64.le_iff_toNat_le.mp (UInt64.not_lt.mp h)
  have hsigned : value.toInt64.toInt = (value.toNat : Int) :=
    BitVec.toInt_eq_toNat_of_lt (x := value.toBitVec) (by
      rw [UInt64.toNat_toBitVec]
      omega)
  rw [Int64.lt_iff_toInt_lt, Int64.toInt_zero, hsigned]
  omega

/-- The coinbase code can only refuse the length of the script. -/
theorem coinbase_error (hd : DecodedFields t aux commitment raws) (h8 : extranonce.length = 8)
    (hheight : ¬(t.height = 0 ∨ t.height > 0xffffffff))
    (hvalue : ¬t.coinbaseValue > 0x7fffffffffffffff) (e : CoinbaseError)
    (h : buildCoinbaseTransaction t.height.toUInt32 t.coinbaseValue.toInt64 payoutScript aux
      extranonce commitment = .error e) :
    e = .scriptSigSize ∧ (scriptSigOf t extranonce aux).length > 100 := by
  rcases height_toNat t hheight with ⟨hnat, hpos⟩
  have hnz : t.height.toUInt32 ≠ 0 := fun hz => by
    rw [hz] at hnat
    exact Nat.ne_of_gt hpos hnat.symm
  have hnonneg := toInt64_nonneg t.coinbaseValue hvalue
  have hcommit : validateCoinbaseCommitment commitment = .ok () :=
    (validateCoinbaseCommitment_ok commitment).mpr ⟨hd.commitmentSize, hd.startsRight⟩
  simp only [buildCoinbaseTransaction, if_neg hnz, if_neg hnonneg, hcommit,
    buildBip34HeightPrefix_eq _ hnz, appendBytes, hnat] at h
  have hscript : ScriptNum.push t.height.toNat ++ aux ++ extranonce
      = scriptSigOf t extranonce aux := rfl
  rw [hscript] at h
  by_cases hlen : (scriptSigOf t extranonce aux).length < 2 ∨
      (scriptSigOf t extranonce aux).length > 100
  · rw [if_pos hlen, Except.error.injEq] at h
    -- Eight bytes of extranonce are more than the two required.
    refine ⟨h.symm, hlen.resolve_left ?_⟩
    rw [scriptSigOf, List.length_append, h8]
    omega
  · rw [if_neg hlen] at h
    exact absurd h (by simp only [reduceCtorEq, not_false_eq_true])

theorem decodeHex_ne_error (hex : Text) (field : String) (b : Bytes)
    (hb : Hex.decode hex = some b) (e : BlockBuildError) : decodeHex hex field ≠ .error e := by
  rw [(decodeHex_ok hex field b).mpr hb]
  exact fun h => by simp only [reduceCtorEq] at h

/-- Transactions that decode can only fail by the hash of one of them. -/
theorem decodeTransactions_error (txs : List TemplateTransaction) (raws : List Bytes) (i : Nat)
    (hraws : List.Forall₂ (fun tx raw => Hex.decode tx.dataHex = some raw) txs raws)
    (e : BlockBuildError) (h : decodeTransactions i txs = .error e) :
    ∃ (j : Nat) (tx : TemplateTransaction) (raw : Bytes), e = .wtxidMismatch (i + j) ∧
      txs[j]? = some tx ∧ Hex.decode tx.dataHex = some raw ∧ doubleSha256 raw ≠ tx.wtxid := by
  induction hraws generalizing i with
  | nil => exact absurd h (by simp only [decodeTransactions, reduceCtorEq, not_false_eq_true])
  | @cons tx raw txs raws hraw _ ih =>
      rw [decodeTransactions] at h
      rcases (bind_error _ _ _).mp h with hdecode | ⟨found, hfound, h⟩
      · exact absurd hdecode (decodeHex_ne_error _ _ _ hraw e)
      rw [decodeHex_ok, hraw, Option.some.injEq] at hfound
      rcases (bind_error _ _ _).mp h with hcheck | ⟨_, _, h⟩
      · rcases (check_error _ _ _).mp hcheck with ⟨hne, rfl⟩
        exact ⟨0, tx, raw, rfl, rfl, hraw, hfound ▸ hne⟩
      rcases (bind_error _ _ _).mp h with hrest | ⟨_, _, h⟩
      · rcases ih (i + 1) hrest with ⟨j, tx', raw', he, hget, hdecode, hne⟩
        exact ⟨j + 1, tx', raw', by rw [he, Nat.add_assoc, Nat.add_comm 1 j], hget, hdecode, hne⟩
      · exact absurd h (by simp only [pure_error, not_false_eq_true])

theorem decoded_unique (txs : List TemplateTransaction) (first second : List Bytes)
    (hfirst : List.Forall₂ (fun tx raw => Hex.decode tx.dataHex = some raw) txs first)
    (hsecond : List.Forall₂ (fun tx raw => Hex.decode tx.dataHex = some raw) txs second) :
    first = second := by
  induction hfirst generalizing second with
  | nil => exact (List.forall₂_nil_left_iff.mp hsecond).symm
  | cons hraw _ ih =>
      rcases List.forall₂_cons_left_iff.mp hsecond with ⟨raw, rest, hraw', hrest, rfl⟩
      rw [hraw, Option.some.injEq] at hraw'
      rw [hraw', ih rest hrest]

theorem fromCoinbase_error (x : Except CoinbaseError CoinbaseTransaction) (e : BlockBuildError) :
    fromCoinbase x = .error e ↔ ∃ d, x = .error d ∧ e = .coinbase d := by
  cases x with
  | error d => simp only [fromCoinbase, Except.error.injEq, eq_comm, exists_eq_left']
  | ok cb => simp only [fromCoinbase, reduceCtorEq, false_and, exists_false]

/-- Which coinbase a successful construction returns. -/
theorem coinbase_ok (hheight : ¬(t.height = 0 ∨ t.height > 0xffffffff)) (cb : CoinbaseTransaction)
    (h : buildCoinbaseTransaction t.height.toUInt32 t.coinbaseValue.toInt64 payoutScript aux
      extranonce commitment = .ok cb) :
    cb = coinbaseOf t payoutScript extranonce aux commitment ∧
      (scriptSigOf t extranonce aux).length ≤ 100 := by
  rcases (buildCoinbase_ok_iff _ _ _ _ _ _ _).mp h with ⟨hnz, _, _, scriptSig, hscript, rfl⟩
  rcases hscript.push with ⟨heightPush, hpush, hsig⟩
  rw [buildBip34HeightPrefix_eq _ hnz, Except.ok.injEq, (height_toNat t hheight).1] at hpush
  have heq : scriptSig = scriptSigOf t extranonce aux := by
    rw [hsig, ← hpush]
    rfl
  exact ⟨by rw [heq]; rfl, heq ▸ hscript.upper⟩

/-- The check of the transactions fails for a hash or for the commitment. -/
theorem transactions_error (hd : DecodedFields t aux commitment raws) (e : BlockBuildError)
    (h : decodeAndValidateTemplateTransactions t commitment = .error e) :
    FailureCause t payoutScript extranonce aux commitment raws e := by
  rw [decodeAndValidateTemplateTransactions] at h
  rcases (bind_error _ _ _).mp h with hdecode | ⟨_, _, h⟩
  · rcases decodeTransactions_error t.transactions raws 0 hd.decodesRaws e hdecode with
      ⟨j, tx, raw, rfl, hget, hraw, hne⟩
    rw [Nat.zero_add]
    exact ⟨tx, raw, hget, hraw, hne⟩
  rcases (bind_error _ _ _).mp h with hcheck | ⟨_, _, h⟩
  · exact absurd hd.commitmentSize ((check_error _ _ _).mp hcheck).1
  rcases (bind_error _ _ _).mp h with hcheck | ⟨_, _, h⟩
  · rcases (check_error _ _ _).mp hcheck with ⟨hne, rfl⟩
    intro heq
    have hstart : commitmentStart.length = 6 := rfl
    refine hne ?_
    rw [heq, List.drop_left' hstart, List.take_of_length_le (Nat.le_of_eq (UInt256.size_eq _))]
  · exact absurd h (by simp only [pure_error, not_false_eq_true])

theorem transactions_ok (hd : DecodedFields t aux commitment raws) (found : List Bytes)
    (h : decodeAndValidateTemplateTransactions t commitment = .ok found) : found = raws := by
  simp only [decodeAndValidateTemplateTransactions, bind_ok, check_ok, pure_ok,
    decodeTransactions_ok] at h
  rcases h with ⟨_, hfound, _, _, _, _, rfl⟩
  exact decoded_unique t.transactions _ raws (hfound.imp fun _ _ hraw => hraw.1) hd.decodesRaws

/-- Every exception of the builder says something true about the template, so
    those that say something false cannot happen. -/
theorem build_error_cause (hd : DecodedFields t aux commitment raws) (h8 : extranonce.length = 8)
    (hnz : t.height ≠ 0) (e : BlockBuildError)
    (h : buildBlockCandidate t payoutScript extranonce = .error e) :
    FailureCause t payoutScript extranonce aux commitment raws e := by
  rw [buildBlockCandidate] at h
  -- The steps in the builder's order, each with the exceptions it can throw.
  rcases (bind_error _ _ _).mp h with hcheck | ⟨_, hheight, h⟩
  · rcases (check_error _ _ _).mp hcheck with ⟨hrange, rfl⟩
    exact UInt64.lt_iff_toNat_lt.mp ((not_not.mp hrange).resolve_left hnz)
  rw [check_ok] at hheight
  rcases (bind_error _ _ _).mp h with hcheck | ⟨_, hvalue, h⟩
  · rcases (check_error _ _ _).mp hcheck with ⟨hrange, rfl⟩
    exact UInt64.lt_iff_toNat_lt.mp (not_not.mp hrange)
  rw [check_ok] at hvalue
  rcases (bind_error _ _ _).mp h with hdecode | ⟨aux', haux, h⟩
  · exact absurd hdecode (decodeHex_ne_error _ _ _ hd.decodesAux e)
  rw [decodeHex_ok, hd.decodesAux, Option.some.injEq] at haux
  rcases (bind_error _ _ _).mp h with hdecode | ⟨commitment', hcommitment, h⟩
  · exact absurd hdecode (decodeHex_ne_error _ _ _ hd.decodesCommitment e)
  rw [decodeHex_ok, hd.decodesCommitment, Option.some.injEq] at hcommitment
  subst haux hcommitment
  rcases (bind_error _ _ _).mp h with hcoinbase | ⟨cb, hcoinbase, h⟩
  · rcases (fromCoinbase_error _ _).mp hcoinbase with ⟨d, hd', rfl⟩
    rcases coinbase_error t payoutScript extranonce aux commitment raws hd h8 hheight hvalue d hd'
      with ⟨rfl, hlong⟩
    exact hlong
  rw [fromCoinbase_ok] at hcoinbase
  rcases coinbase_ok t payoutScript extranonce aux commitment hheight cb hcoinbase with ⟨rfl, _⟩
  rcases (bind_error _ _ _).mp h with hcheck | ⟨_, _, h⟩
  · rcases (check_error _ _ _).mp hcheck with ⟨hmutated, rfl⟩
    rw [Bool.not_eq_false] at hmutated
    exact hmutated
  rcases (bind_error _ _ _).mp h with htransactions | ⟨raws', hraws, h⟩
  · exact transactions_error t payoutScript extranonce aux commitment raws hd e htransactions
  rcases (bind_error _ _ _).mp h with hcheck | ⟨_, _, h⟩
  · rcases (check_error _ _ _).mp hcheck with ⟨hlong, rfl⟩
    rw [transactions_ok t aux commitment raws hd raws' hraws] at hlong
    exact not_not.mp hlong
  · exact absurd h (by simp only [pure_error, not_false_eq_true])

/-- A build that succeeds has none of the causes. -/
theorem not_buildFails_of_ok (hd : DecodedFields t aux commitment raws)
    (candidate : BlockCandidate)
    (h : buildBlockCandidate t payoutScript extranonce = .ok candidate) :
    ¬BuildFails t payoutScript extranonce aux commitment raws := by
  rcases (buildBlockCandidate_ok_iff t payoutScript extranonce candidate).mp h with ⟨s, rfl⟩
  have haux : s.aux = aux := Option.some.inj (s.decodesAux.symm.trans hd.decodesAux)
  have hcommitment : s.commitment = commitment :=
    Option.some.inj (s.decodesCommitment.symm.trans hd.decodesCommitment)
  have hraws : s.raws = raws := decoded_unique t.transactions s.raws raws
    (s.decodesRaws.imp fun _ _ hraw => hraw.1) hd.decodesRaws
  have hbuilds := s.buildsCoinbase
  rw [haux, hcommitment] at hbuilds
  rcases coinbase_ok t payoutScript extranonce aux commitment s.height s.coinbase hbuilds with
    ⟨hcoinbase, hscript⟩
  have hunmutated := s.unmutated
  have hfits := s.fits
  rw [hcoinbase] at hunmutated hfits
  rw [hraws] at hfits
  -- Each cause contradicts the step that looks for it.
  rintro (hheight | hvalue | hlong | hmutated | ⟨i, tx, raw, hget, hraw, hne⟩ | hcommit | hsize)
  · exact s.height (Or.inr (UInt64.lt_iff_toNat_lt.mpr hheight))
  · exact s.value (UInt64.lt_iff_toNat_lt.mpr hvalue)
  · omega
  · rw [hunmutated] at hmutated
    exact Bool.false_ne_true hmutated
  · rcases List.forall₂_iff_get.mp s.decodesRaws with ⟨hlen, hall⟩
    rcases List.getElem?_eq_some_iff.mp hget with ⟨hi, htx⟩
    have hat := hall i hi (hlen ▸ hi)
    simp only [List.get_eq_getElem, htx] at hat
    rw [hraw, Option.some.injEq] at hat
    exact hne (hat.1 ▸ hat.2)
  · refine hcommit ?_
    rw [← hcommitment]
    refine s.commitment_eq t payoutScript extranonce ?_
    rw [hcommitment]
    exact hd.startsRight
  · omega

end Causes

/-- For a parsed template and an extranonce of eight bytes, building fails
    exactly for one of the seven causes, and the exception names its cause.
    The exceptions without a cause are unreachable: the one of a hexadecimal
    field, of the commitment's form, of a zero height, of a script that is too
    short. -/
theorem build_fails_iff (value : Json) (t : BlockTemplate) (payoutScript extranonce : Bytes)
    (hparse : parseBlockTemplate value = .ok t) (h8 : extranonce.length = 8) :
    ∃ aux commitment raws, DecodedFields t aux commitment raws ∧
      ((∃ e, buildBlockCandidate t payoutScript extranonce = .error e) ↔
        BuildFails t payoutScript extranonce aux commitment raws) ∧
      ∀ e, buildBlockCandidate t payoutScript extranonce = .error e →
        FailureCause t payoutScript extranonce aux commitment raws e := by
  have hfacts := parseBlockTemplate_facts value t hparse
  rcases decodedFields_exist t hfacts with ⟨aux, commitment, raws, hd⟩
  have hcause := build_error_cause t payoutScript extranonce aux commitment raws hd h8 hfacts.height
  refine ⟨aux, commitment, raws, hd, ⟨?_, fun hfails => ?_⟩, hcause⟩
  · rintro ⟨e, he⟩
    exact buildFails_of_cause t payoutScript extranonce aux commitment raws e (hcause e he)
  · cases hbuild : buildBlockCandidate t payoutScript extranonce with
    | error e => exact ⟨e, rfl⟩
    | ok candidate => exact absurd hfails (not_buildFails_of_ok t payoutScript extranonce aux
        commitment raws hd candidate hbuild)

/-- The template of the regression test network builds, so none of the causes
    holds for it. -/
theorem build_fails_iff_regtest :
    ∃ aux commitment raws, DecodedFields regtestTemplate aux commitment raws ∧
      ¬BuildFails regtestTemplate [0x51] [1, 2, 3, 4, 5, 6, 7, 8] aux commitment raws := by
  rcases build_fails_iff regtestReply regtestTemplate [0x51] [1, 2, 3, 4, 5, 6, 7, 8]
    parseBlockTemplate_regtest rfl with ⟨aux, commitment, raws, hd, hiff, _⟩
  refine ⟨aux, commitment, raws, hd, fun hfails => ?_⟩
  rcases hiff.mpr hfails with ⟨e, he⟩
  have hok : (buildBlockCandidate regtestTemplate [0x51] [1, 2, 3, 4, 5, 6, 7, 8]).isOk = true := by
    decide +kernel
  rw [he] at hok
  exact Bool.false_ne_true hok

end MercaMiner
