import Mathlib.Logic.Relation
import MercaMiner.Theory.JobUniqueness
import MercaMiner.Theory.MineInvariant
import MercaMiner.Theory.TargetValue
import MercaMiner.Theory.UInt256Text

/-!
# What the Template Parser Accepts Is Safe to Mine

A parsed template holds the integers of the reply, the targets and nonces its
texts denote, and an order of the transactions that respects their
dependencies. Whatever a job builds from it is accepted by the miner.

The fields of a template are machine integers of four widths and two kinds of
sign, and the reply gives mathematical integers. `IntegerMember` relates the
two, so a field that wrapped or changed its sign would not satisfy it.

## Main definitions

* `IntegerMember`, `HexMember`: A field is what the reply has under its name.
* `ParsedTransaction`: What holds of one transaction and its JSON.
* `DependsOn`: One transaction spends from another.
* `SafeTemplate`: What holds of a template and the reply it came from.

## Theorems

* `parseBitsHex_ok`: Eight digits are read as the number they denote.
* `parseTransactionsFrom_parsed`: The transactions, one for each array entry.
* `dependsOn_earlier`: A transaction comes after all it depends on.
* `template_safe`: An accepted template is safe to mine.
-/

namespace MercaMiner

open Outcome Transition

/-- The object has an integer under the name, and it is this one. -/
def IntegerMember (object : Json) (name : String) (n : Int) : Prop :=
  ∃ value, object.find name = some value ∧ value.integer = some n

/-- The object has a text of hexadecimal digits under the name. -/
def HexMember (object : Json) (name : String) (s : Text) : Prop :=
  object.find name = some (.string s) ∧ ∀ c ∈ s, (Hex.digit c).isSome

theorem requireMember_ok (object : Json) (name : String) (value : Json) :
    requireMember object name = .ok value ↔ object.find name = some value := by
  unfold requireMember
  cases object.find name with
  | none => simp only [fail, reduceCtorEq]
  | some found => rw [Except.ok.injEq, Option.some.injEq]

theorem requireString_ok (object : Json) (name : String) (s : Text)
    (h : requireString object name = .ok s) : object.find name = some (.string s) := by
  simp only [requireString, bind_ok, requireMember_ok] at h
  rcases h with ⟨value, hfind, h⟩
  cases value with
  | string found =>
      rw [Except.ok.injEq] at h
      rw [hfind, h]
  | _ => exact absurd h (by simp only [fail, reduceCtorEq, not_false_eq_true])

/-- A number of either class is read as the integer it is. -/
theorem unsignedInteger_ok (value : Json) (field : String) (n : UInt64)
    (h : unsignedInteger value field = .ok n) : value.integer = some (n.toNat : Int) := by
  cases value with
  | numberUnsigned m =>
      rw [unsignedInteger, Except.ok.injEq] at h
      rw [h, Json.integer]
  | numberInteger m =>
      simp only [unsignedInteger] at h
      by_cases hneg : m < 0
      · exact absurd h (by simp only [if_pos hneg, fail, reduceCtorEq, not_false_eq_true])
      · rw [if_neg hneg, Except.ok.injEq] at h
        have hpos : 0 ≤ m.toInt := by
          rw [Int64.lt_iff_toInt_lt, Int64.toInt_zero] at hneg
          omega
        have hn : n.toNat = m.toInt.toNat := by
          rw [← h]
          exact Int64.toNat_toUInt64_of_le (Int64.le_iff_toInt_le.mpr (by
            rw [Int64.toInt_zero]
            exact hpos))
        rw [Json.integer, hn, Int.toNat_of_nonneg hpos]
  | _ => exact absurd h (by simp only [unsignedInteger, fail, reduceCtorEq, not_false_eq_true])

theorem signedInteger_ok (value : Json) (field : String) (n : Int64)
    (h : signedInteger value field = .ok n) : value.integer = some n.toInt := by
  cases value with
  | numberUnsigned m =>
      simp only [signedInteger] at h
      by_cases hbig : m > 0x7fffffffffffffff
      · exact absurd h (by simp only [if_pos hbig, fail, reduceCtorEq, not_false_eq_true])
      · rw [if_neg hbig, Except.ok.injEq] at h
        have hlt : m.toNat < 2 ^ 63 := by
          rw [gt_iff_lt, UInt64.lt_iff_toNat_lt] at hbig
          have hmax : (0x7fffffffffffffff : UInt64).toNat = 2 ^ 63 - 1 := rfl
          omega
        have hsmall : (m.toNat : Int).bmod (2 ^ 64) = m.toNat :=
          Int.bmod_eq_of_le (by omega) (by omega)
        rw [Json.integer, ← h, Int64.toInt, UInt64.toBitVec_toInt64, BitVec.toInt_eq_toNat_bmod,
          UInt64.toNat_toBitVec, hsmall]
  | numberInteger m =>
      rw [signedInteger, Except.ok.injEq] at h
      rw [h, Json.integer]
  | _ => exact absurd h (by simp only [signedInteger, fail, reduceCtorEq, not_false_eq_true])

theorem requireUnsigned_ok (object : Json) (name : String) (n : UInt64)
    (h : requireUnsigned object name = .ok n) : IntegerMember object name n.toNat := by
  simp only [requireUnsigned, bind_ok, requireMember_ok] at h
  rcases h with ⟨value, hfind, hn⟩
  exact ⟨value, hfind, unsignedInteger_ok value name n hn⟩

theorem requireSigned_ok (object : Json) (name : String) (n : Int64)
    (h : requireSigned object name = .ok n) : IntegerMember object name n.toInt := by
  simp only [requireSigned, bind_ok, requireMember_ok] at h
  rcases h with ⟨value, hfind, hn⟩
  exact ⟨value, hfind, signedInteger_ok value name n hn⟩

/-- The range check makes the cast to the narrow type keep the integer. -/
theorem requireUint32_ok (object : Json) (name : String) (n : UInt32)
    (h : requireUint32 object name = .ok n) : IntegerMember object name n.toNat := by
  simp only [requireUint32, bind_ok] at h
  rcases h with ⟨wide, hwide, h⟩
  by_cases hbig : wide > 0xffffffff
  · exact absurd h (by simp only [if_pos hbig, fail, reduceCtorEq, not_false_eq_true])
  · rw [if_neg hbig, Except.ok.injEq] at h
    have hmax : (0xffffffff : UInt64).toNat = 2 ^ 32 - 1 := rfl
    rw [gt_iff_lt, UInt64.lt_iff_toNat_lt] at hbig
    have hn : n.toNat = wide.toNat := by
      rw [← h, UInt64.toNat_toUInt32]
      omega
    rw [hn]
    exact requireUnsigned_ok object name wide hwide

theorem requireInt32_ok (object : Json) (name : String) (n : Int32)
    (h : requireInt32 object name = .ok n) : IntegerMember object name n.toInt := by
  simp only [requireInt32, bind_ok] at h
  rcases h with ⟨wide, hwide, h⟩
  by_cases hout : wide < -2147483648 ∨ wide > 2147483647
  · exact absurd h (by simp only [if_pos hout, fail, reduceCtorEq, not_false_eq_true])
  · rw [if_neg hout, Except.ok.injEq] at h
    have hmin : (-2147483648 : Int64).toInt = -2 ^ 31 := rfl
    have hmax : (2147483647 : Int64).toInt = 2 ^ 31 - 1 := rfl
    rw [gt_iff_lt, Int64.lt_iff_toInt_lt, Int64.lt_iff_toInt_lt] at hout
    have hn : n.toInt = wide.toInt := by
      rw [← h, Int64.toInt_toInt32]
      exact Int.bmod_eq_of_le (by omega) (by omega)
    rw [hn]
    exact requireSigned_ok object name wide hwide

theorem requireUInt256_ok (object : Json) (name : String) (x : UInt256)
    (h : requireUInt256 object name = .ok x) :
    ∃ s, object.find name = some (.string s) ∧ UInt256.fromHexBE s = some x := by
  simp only [requireUInt256, bind_ok] at h
  rcases h with ⟨s, hs, h⟩
  refine ⟨s, requireString_ok object name s hs, ?_⟩
  cases hread : UInt256.fromHexBE s with
  | none =>
      rw [hread] at h
      exact absurd h (by simp only [fail, reduceCtorEq, not_false_eq_true])
  | some found =>
      rw [hread, Except.ok.injEq] at h
      rw [h]

/-- A digit is shifted in below the ones already read. -/
theorem shiftDigit_toNat (value : UInt32) (d : Nat) (hvalue : value.toNat < 2 ^ 28) (hd : d < 16) :
    ((value <<< 4) ||| UInt32.ofNat d).toNat = 16 * value.toNat + d := by
  have hshift : (value <<< 4).toNat = value.toNat <<< 4 := by
    have h4 : (4 : UInt32).toNat % 32 = 4 := rfl
    rw [UInt32.toNat_shiftLeft, h4, Nat.shiftLeft_eq]
    exact Nat.mod_eq_of_lt (by omega)
  have hdigit : (UInt32.ofNat d).toNat = d := by
    rw [UInt32.toNat_ofNat']
    exact Nat.mod_eq_of_lt (by omega)
  rw [UInt32.toNat_or, hshift, hdigit, ← Nat.shiftLeft_add_eq_or_of_lt (i := 4) hd,
    Nat.shiftLeft_eq]
  omega

/-- The loop reads the number of the digits below the ones already read, as
    long as there is room for all of them. -/
theorem parseBitsLoop_ok (s : Text) (value n : UInt32) (k : Nat) (hroom : s.length + k ≤ 8)
    (hvalue : value.toNat < 16 ^ k) (h : parseBitsLoop s value = some n) :
    (∀ c ∈ s, (Hex.digit c).isSome) ∧ n.toNat = 16 ^ s.length * value.toNat + Hex.number s := by
  induction s generalizing value k with
  | nil =>
      rw [parseBitsLoop, Option.some.injEq] at h
      refine ⟨fun c hc => absurd hc List.not_mem_nil, ?_⟩
      rw [h, List.length_nil, pow_zero, one_mul]
      rfl
  | cons c rest ih =>
      rw [List.length_cons] at hroom
      simp only [parseBitsLoop, UInt256.hexDigit_eq] at h
      cases hc : Hex.digit c with
      | none => exact absurd h (by simp only [hc, Int.reduceNeg, Int.reduceLT, if_true,
          reduceCtorEq, not_false_eq_true])
      | some d =>
          have hpos : ¬(d.toNat : Int) < 0 := not_lt.mpr (Int.natCast_nonneg _)
          have hd := Hex.digit_lt c d hc
          -- Before this digit at most seven were read.
          have hsmall : (16 : Nat) ^ k ≤ 16 ^ 7 := Nat.pow_le_pow_right (by omega) (by omega)
          have hnext := shiftDigit_toNat value d.toNat (by omega) hd
          simp only [hc, if_neg hpos, Int.toNat_natCast] at h
          rcases ih _ (k + 1) (by omega) (by rw [hnext, pow_succ]; omega) h with ⟨hrest, hn⟩
          refine ⟨List.forall_mem_cons.mpr ⟨by rw [hc]; rfl, hrest⟩, ?_⟩
          rw [hn, hnext, Hex.number_cons, Hex.digitValue, hc, Option.getD_some, List.length_cons,
            pow_succ]
          ring

/-- Eight digits are read as the number they denote. -/
theorem parseBitsHex_ok (s : Text) (n : UInt32) (h : parseBitsHex s = some n) :
    s.length = 8 ∧ (∀ c ∈ s, (Hex.digit c).isSome) ∧ n.toNat = Hex.number s := by
  unfold parseBitsHex at h
  by_cases hlen : s.length = 8
  · rw [if_neg (not_not.mpr hlen)] at h
    rcases parseBitsLoop_ok s 0 n 0 (by omega) (by decide) h with ⟨hdigits, hn⟩
    refine ⟨hlen, hdigits, ?_⟩
    rw [hn, UInt32.toNat_zero, Nat.mul_zero, Nat.zero_add]
  · exact absurd h (by simp only [ne_eq, hlen, not_false_eq_true, if_true, reduceCtorEq])

/-- What holds of the transaction at position `i` and its entry in the reply. -/
structure ParsedTransaction (i : Nat) (item : Json) (tx : TemplateTransaction) : Prop where
  data : HexMember item "data" tx.dataHex
  dataNonempty : tx.dataHex ≠ []
  dataEven : tx.dataHex.length % 2 = 0
  txid : ∃ s, item.find "txid" = some (.string s) ∧ UInt256.fromHexBE s = some tx.txid
  wtxid : ∃ s, item.find "hash" = some (.string s) ∧ UInt256.fromHexBE s = some tx.wtxid
  depends : ∃ entries, item.find "depends" = some (.array entries) ∧
    entries.map Json.integer = tx.depends.map fun d => some (d.toNat : Int)
  earlier : ∀ d ∈ tx.depends, 1 ≤ d.toNat ∧ d.toNat ≤ i
  fee : IntegerMember item "fee" tx.fee.toInt
  sigops : IntegerMember item "sigops" tx.sigops.toNat
  weight : IntegerMember item "weight" tx.weight.toNat

theorem isHexDigit_eq (c : UInt8) : isHexDigit c = (Hex.digit c).isSome := by
  revert c
  decide +kernel

theorem isEvenHex_parts (s : Text) (h : isEvenHex s = true) :
    s ≠ [] ∧ s.length % 2 = 0 ∧ ∀ c ∈ s, (Hex.digit c).isSome := by
  simp only [isEvenHex, Bool.and_eq_true, Bool.not_eq_true', beq_iff_eq, List.all_eq_true,
    List.isEmpty_eq_false_iff] at h
  rcases h with ⟨⟨hne, heven⟩, hdigits⟩
  exact ⟨hne, heven, fun c hc => isHexDigit_eq c ▸ hdigits c hc⟩

theorem parseDependency_ok (i : Nat) (entry : Json) (d : UInt64)
    (h : parseDependency i entry = .ok d) :
    entry.integer = some (d.toNat : Int) ∧ 1 ≤ d.toNat ∧ d.toNat ≤ i := by
  simp only [parseDependency, bind_ok, check_ok, pure_ok] at h
  rcases h with ⟨index, hindex, _, hrange, rfl⟩
  rw [not_or] at hrange
  have hpos : index.toNat ≠ 0 := fun hzero => hrange.1 (UInt64.toNat_inj.mp hzero)
  exact ⟨unsignedInteger_ok entry _ index hindex, Nat.one_le_iff_ne_zero.mpr hpos,
    Nat.not_lt.mp hrange.2⟩

theorem mapAll_parseDependency (i : Nat) (entries : List Json) (depends : List UInt64)
    (h : mapAll (parseDependency i) entries = .ok depends) :
    entries.map Json.integer = (depends.map fun d => some (d.toNat : Int)) ∧
    ∀ d ∈ depends, 1 ≤ d.toNat ∧ d.toNat ≤ i := by
  induction entries generalizing depends with
  | nil =>
      rw [mapAll, Except.ok.injEq] at h
      rw [← h]
      exact ⟨rfl, fun d hd => absurd hd List.not_mem_nil⟩
  | cons entry rest ih =>
      simp only [mapAll, bind_ok, pure_ok] at h
      rcases h with ⟨d, hd, tail, htail, rfl⟩
      rcases parseDependency_ok i entry d hd with ⟨hinteger, hrange⟩
      rcases ih tail htail with ⟨hmap, hall⟩
      exact ⟨by rw [List.map_cons, List.map_cons, hinteger, hmap],
        List.forall_mem_cons.mpr ⟨hrange, hall⟩⟩

theorem parseDepends_ok (i : Nat) (tx : Json) (depends : List UInt64)
    (h : parseDepends i tx = .ok depends) :
    (∃ entries, tx.find "depends" = some (.array entries) ∧
      entries.map Json.integer = depends.map fun d => some (d.toNat : Int)) ∧
    ∀ d ∈ depends, 1 ≤ d.toNat ∧ d.toNat ≤ i := by
  simp only [parseDepends, bind_ok, requireMember_ok] at h
  rcases h with ⟨value, hfind, h⟩
  cases value with
  | array entries =>
      rcases mapAll_parseDependency i entries depends h with ⟨hmap, hall⟩
      exact ⟨⟨entries, hfind, hmap⟩, hall⟩
  | _ => exact absurd h (by simp only [fail, reduceCtorEq, not_false_eq_true])

theorem parseTransaction_parsed (i : Nat) (item : Json) (tx : TemplateTransaction)
    (h : parseTransaction i item = .ok tx) : ParsedTransaction i item tx := by
  have hreads := parseTransaction_reads i item tx h
  rcases isEvenHex_parts tx.dataHex hreads.dataHex with ⟨hne, hlen, hdigits⟩
  rcases parseDepends_ok i item tx.depends hreads.depends with ⟨hentries, hearlier⟩
  exact {
    data := ⟨requireString_ok item "data" tx.dataHex hreads.data, hdigits⟩
    dataNonempty := hne
    dataEven := hlen
    txid := requireUInt256_ok item "txid" tx.txid hreads.txid
    wtxid := requireUInt256_ok item "hash" tx.wtxid hreads.wtxid
    depends := hentries
    earlier := hearlier
    fee := requireSigned_ok item "fee" tx.fee hreads.fee
    sigops := requireUnsigned_ok item "sigops" tx.sigops hreads.sigops
    weight := requireUnsigned_ok item "weight" tx.weight hreads.weight }

/-- The loop parses one transaction for each entry, at the entry's position. -/
theorem parseTransactionsFrom_parsed (i : Nat) (items : List Json)
    (txs : List TemplateTransaction) (h : parseTransactionsFrom i items = .ok txs)
    (k : Nat) (item : Json) (tx : TemplateTransaction) (hitem : items[k]? = some item)
    (htx : txs[k]? = some tx) : ParsedTransaction (i + k) item tx := by
  induction items generalizing i txs k with
  | nil => exact absurd hitem (by simp only [List.getElem?_nil, reduceCtorEq, not_false_eq_true])
  | cons first rest ih =>
      simp only [parseTransactionsFrom, bind_ok, pure_ok] at h
      rcases h with ⟨parsed, hparsed, tail, htail, rfl⟩
      cases k with
      | zero =>
          rw [List.getElem?_cons_zero, Option.some.injEq] at hitem htx
          rw [← hitem, ← htx]
          exact parseTransaction_parsed i first parsed hparsed
      | succ k =>
          rw [List.getElem?_cons_succ] at hitem htx
          have hk := ih (i + 1) tail htail k hitem htx
          rwa [show i + 1 + k = i + (k + 1) by omega] at hk

/-- The transactions of a parsed list, one for each entry of the reply's. -/
theorem parseTransactions_parsed (object : Json) (txs : List TemplateTransaction)
    (h : parseTransactions object = .ok txs) :
    ∃ items, object.find "transactions" = some (.array items) ∧ items.length = txs.length ∧
      ∀ i item tx, items[i]? = some item → txs[i]? = some tx → ParsedTransaction i item tx := by
  rcases parseTransactions_array object txs h with ⟨items, hitems, _, hfrom⟩
  refine ⟨items, (requireMember_ok _ _ _).mp hitems,
    (length_parseTransactionsFrom 0 items txs hfrom).symm, fun i item tx hitem htx => ?_⟩
  have hparsed := parseTransactionsFrom_parsed 0 items txs hfrom i item tx hitem htx
  rwa [Nat.zero_add] at hparsed

/-- The transaction at position `i` names the one at position `j`, in the
    one-based numbering of the reply. -/
def DependsOn (txs : List TemplateTransaction) (i j : Nat) : Prop :=
  ∃ tx : TemplateTransaction, txs[i]? = some tx ∧ ∃ d ∈ tx.depends, d.toNat = j + 1

/-- When every transaction names earlier positions, a transaction comes after
    all those it depends on, directly or through others. -/
theorem dependsOn_earlier (txs : List TemplateTransaction)
    (hearlier : ∀ (i : Nat) (tx : TemplateTransaction), txs[i]? = some tx →
      ∀ d ∈ tx.depends, 1 ≤ d.toNat ∧ d.toNat ≤ i)
    (i j : Nat) (h : Relation.TransGen (DependsOn txs) i j) : j < i := by
  have hdirect : ∀ a b, DependsOn txs a b → b < a := by
    intro a b hab
    rcases hab with ⟨tx, htx, d, hd, hposition⟩
    have hrange := hearlier a tx htx d hd
    omega
  induction h with
  | single hij => exact hdirect i _ hij
  | tail _ hlast ih => exact (hdirect _ _ hlast).trans ih

theorem parseBits_ok (object : Json) (bits : UInt32) (h : parseBits object = .ok bits) :
    ∃ s, HexMember object "bits" s ∧ s.length = 8 ∧ bits.toNat = Hex.number s := by
  simp only [parseBits, bind_ok] at h
  rcases h with ⟨s, hs, h⟩
  cases hread : parseBitsHex s with
  | none =>
      rw [hread] at h
      exact absurd h (by simp only [fail, reduceCtorEq, not_false_eq_true])
  | some found =>
      rw [hread] at h
      rcases parseBitsHex_ok s found hread with ⟨hlen, hdigits, hn⟩
      rw [← (pure_ok _ _).mp h]
      exact ⟨s, ⟨requireString_ok object "bits" s hs, hdigits⟩, hlen, hn⟩

/-- The two halves of the range are the two numbers. -/
theorem parseNonceRange_halves (object : Json) (nonces : UInt32 × UInt32)
    (h : parseNonceRange object = .ok nonces) :
    ∃ low high, HexMember object "noncerange" (low ++ high) ∧ low.length = 8 ∧ high.length = 8 ∧
      nonces.1.toNat = Hex.number low ∧ nonces.2.toNat = Hex.number high := by
  rcases parseNonceRange_ok object nonces h with ⟨range, hrange, hlen, heven, hmin, hmax, _⟩
  have hhalf : (range.drop 8).take 8 = range.drop 8 :=
    List.take_of_length_le (by rw [List.length_drop]; omega)
  rw [hhalf] at hmax
  rcases parseBitsHex_ok _ _ hmin with ⟨hlow, _, hlowNumber⟩
  rcases parseBitsHex_ok _ _ hmax with ⟨hhigh, _, hhighNumber⟩
  refine ⟨range.take 8, range.drop 8, ?_, hlow, hhigh, hlowNumber, hhighNumber⟩
  rw [List.take_append_drop]
  exact ⟨requireString_ok object "noncerange" range hrange, (isEvenHex_parts range heven).2.2⟩

/-- The limit is there exactly when the reply has it. -/
theorem parseWeightLimit_ok (object : Json) (limit : Option UInt64)
    (h : parseWeightLimit object = .ok limit) :
    (object.find "weightlimit").map Json.integer = limit.map fun n => some (n.toNat : Int) := by
  unfold parseWeightLimit at h
  cases hfind : object.find "weightlimit" with
  | none =>
      rw [hfind, Except.ok.injEq] at h
      rw [← h]
      rfl
  | some value =>
      rw [hfind] at h
      simp only [bind_ok, check_ok, pure_ok, exists_const] at h
      rcases h with ⟨n, hn, _, rfl⟩
      rw [Option.map_some, Option.map_some, unsignedInteger_ok value _ n hn]

/-- What holds of an accepted template and the reply it came from: every
    integer of the reply is in its field unchanged, the texts denote the target
    and the nonces, the conditions between fields hold, and the transactions
    are those of the reply in an order in which none depends on a later one. -/
structure SafeTemplate (value : Json) (t : BlockTemplate) : Prop where
  version : IntegerMember value "version" t.version.toInt
  coinbaseValue : IntegerMember value "coinbasevalue" t.coinbaseValue.toNat
  minimumTime : IntegerMember value "mintime" t.minimumTime.toNat
  currentTime : IntegerMember value "curtime" t.currentTime.toNat
  height : IntegerMember value "height" t.height.toNat
  sigopLimit : IntegerMember value "sigoplimit" t.sigopLimit.toNat
  sizeLimit : IntegerMember value "sizelimit" t.sizeLimit.toNat
  weightLimit : (value.find "weightlimit").map Json.integer
    = t.weightLimit.map fun n => some (n.toNat : Int)
  bits : ∃ s, HexMember value "bits" s ∧ s.length = 8 ∧ t.bits.toNat = Hex.number s
  target : ∃ s, HexMember value "target" s ∧ s.length = 64 ∧ t.target.value = Hex.number s
  targetOfBits : validTargetFromCompact t.bits = some t.target
  targetValue : t.target.value = compactValue t.bits
  targetPositive : 0 < t.target.value
  nonceRange : ∃ low high, HexMember value "noncerange" (low ++ high) ∧ low.length = 8 ∧
    high.length = 8 ∧ t.nonceMin.toNat = Hex.number low ∧ t.nonceMax.toNat = Hex.number high
  noncesOrdered : t.nonceMin ≤ t.nonceMax
  timesOrdered : t.minimumTime ≤ t.currentTime
  heightPositive : 0 < t.height.toNat
  sizeLimitPositive : 0 < t.sizeLimit.toNat
  transactions : ∃ items, value.find "transactions" = some (.array items) ∧
    items.length = t.transactions.length ∧ ∀ i item tx, items[i]? = some item →
      t.transactions[i]? = some tx → ParsedTransaction i item tx
  topological : ∀ i j, Relation.TransGen (DependsOn t.transactions) i j → j < i

/-- An accepted template satisfies all of this. -/
theorem parseBlockTemplate_safe (value : Json) (t : BlockTemplate)
    (h : parseBlockTemplate value = .ok t) : SafeTemplate value t := by
  have hreads := parseBlockTemplate_reads value t h
  have hfacts := parseBlockTemplate_facts value t h
  -- The target was compared with the one the bits denote, which is positive.
  rcases validTarget_value _ _ hfacts.target with ⟨hvalue, hpositive⟩
  rcases requireUInt256_ok value "target" t.target hreads.target with ⟨s, hs, hfrom⟩
  rcases (UInt256.fromHexBE_number s t.target).mp hfrom with ⟨hlen, hdigits, hnumber⟩
  rcases parseTransactions_parsed value t.transactions hreads.transactions with
    ⟨items, hitems, hcount, hparsed⟩
  exact {
    version := requireInt32_ok value "version" t.version hreads.version
    coinbaseValue := requireUnsigned_ok value "coinbasevalue" t.coinbaseValue hreads.coinbaseValue
    minimumTime := requireUint32_ok value "mintime" t.minimumTime hreads.minimumTime
    currentTime := requireUint32_ok value "curtime" t.currentTime hreads.currentTime
    height := requireUnsigned_ok value "height" t.height hreads.height
    sigopLimit := requireUnsigned_ok value "sigoplimit" t.sigopLimit hreads.sigopLimit
    sizeLimit := requireUnsigned_ok value "sizelimit" t.sizeLimit hreads.sizeLimit
    weightLimit := parseWeightLimit_ok value t.weightLimit hreads.weightLimit
    bits := parseBits_ok value t.bits hreads.bits
    target := ⟨s, ⟨hs, hdigits⟩, hlen, hnumber⟩
    targetOfBits := hfacts.target
    targetValue := hvalue
    targetPositive := hpositive
    nonceRange := parseNonceRange_halves value (t.nonceMin, t.nonceMax) hreads.nonces
    noncesOrdered := hfacts.nonces
    timesOrdered := hfacts.times
    heightPositive := Nat.pos_of_ne_zero fun h0 => hfacts.height (UInt64.toNat_inj.mp h0)
    sizeLimitPositive := Nat.pos_of_ne_zero fun h0 => hfacts.sizeLimit (UInt64.toNat_inj.mp h0)
    transactions := ⟨items, hitems, hcount, hparsed⟩
    topological := dependsOn_earlier _ fun i tx htx => by
      -- Every transaction has its entry, and so its check.
      have hlt : i < items.length := by
        rw [hcount]
        exact (List.getElem?_eq_some_iff.mp htx).1
      exact (hparsed i _ tx (List.getElem?_eq_getElem hlt) htx).earlier }

/-- A call on a block that starts with its header, with a range in order, is
    entered, and no worker ever calls the scanner with an empty range. -/
theorem mine_never_throws (hashV1 : Bytes → UInt256) (candidate : BlockCandidate)
    (target : UInt256) (args : MineArguments)
    (hvalid : validateBlockCandidateForMining candidate = .ok ())
    (horder : args.nonceBegin ≤ args.nonceEnd) (hworkers : args.workerCount ≠ 0) :
    ∃ c s₀, mineStart hashV1 candidate target args = .ok (c, s₀) ∧
      ∀ acts s, run (mineStep c) s₀ acts = some s → ∀ w ∈ s.workers, w.pc ≠ .threw := by
  rcases mineStart_isOk hashV1 candidate target args hvalid horder hworkers with ⟨c, s₀, hstart⟩
  refine ⟨c, s₀, hstart, fun acts s hrun w hw hthrew => ?_⟩
  -- The invariant of a worker has no case in which it threw.
  have hok := (mine_reachable_ok hashV1 candidate target args c s₀ hstart acts s hrun).2
  rcases List.getElem?_of_mem hw with ⟨i, hi⟩
  have hlt : i < c.ranges.length := by
    rw [← hok.length]
    exact (List.getElem?_eq_some_iff.mp hi).1
  have hworker := hok.workers i _ w (List.getElem?_eq_getElem hlt) hi
  rw [WorkerOk, hthrew] at hworker
  exact hworker

/-- Everything the parser accepts is safe to mine. The template holds what the
    reply says, and every block a job builds from it, with any payout script,
    any initial extranonce and after any calls, is accepted by a call with the
    template's target and nonce range: it is entered, with any number of
    workers and any flags, and under no schedule does a worker throw. -/
theorem template_safe (value : Json) (t : BlockTemplate)
    (h : parseBlockTemplate value = .ok t) :
    SafeTemplate value t ∧
    ∀ payoutScript initial job, MiningJob.create t payoutScript initial = .ok job →
      ∀ calls, ∀ m ∈ handedOut (job.runCalls calls).1,
      ∀ hashV1 args, args.nonceBegin = t.nonceMin → args.nonceEnd = t.nonceMax →
        args.workerCount ≠ 0 →
        ∃ c s₀, mineStart hashV1 m.candidate t.target args = .ok (c, s₀) ∧
          ∀ acts s, run (mineStep c) s₀ acts = some s → ∀ w ∈ s.workers, w.pc ≠ .threw := by
  have hsafe := parseBlockTemplate_safe value t h
  refine ⟨hsafe, ?_⟩
  intro payoutScript initial job hcreate calls m hm hashV1 args hbegin hend hworkers
  rcases runCalls_extranonces job calls with ⟨_, _, hbuilt⟩
  have hvalid := built_valid job.blockTemplate job.payoutScript _ m.candidate (hbuilt m hm)
  have horder : args.nonceBegin ≤ args.nonceEnd := by
    rw [hbegin, hend]
    exact hsafe.noncesOrdered
  exact mine_never_throws hashV1 m.candidate t.target args hvalid horder hworkers

/-- The reply of the regression test network, the first block a job builds from
    it, and a call with two workers on that block. -/
theorem template_safe_regtest :
    SafeTemplate regtestReply regtestTemplate ∧
    ∃ job m, MiningJob.create regtestTemplate [0x51] 0 = .ok job ∧
      m ∈ handedOut (job.runCalls [false]).1 ∧
      ∃ c s₀, mineStart doubleSha256 m.candidate regtestTemplate.target
        ⟨0, 0xffffffff, 2, none, none, none, none⟩ = .ok (c, s₀) := by
  rcases template_safe regtestReply regtestTemplate parseBlockTemplate_regtest with
    ⟨hsafe, hmine⟩
  let job : MiningJob := ⟨regtestTemplate, [0x51], 0, false, by decide⟩
  have hcreate : MiningJob.create regtestTemplate [0x51] 0 = .ok job := by
    rw [MiningJob.create, dif_neg (by decide)]
  have hone : 0 < (handedOut (job.runCalls [false]).1).length := by decide +kernel
  rcases List.exists_mem_of_length_pos hone with ⟨m, hm⟩
  rcases hmine [0x51] 0 job hcreate [false] m hm doubleSha256
    ⟨0, 0xffffffff, 2, none, none, none, none⟩ rfl rfl (by decide) with ⟨c, s₀, hstart, _⟩
  exact ⟨hsafe, job, m, hcreate, hm, c, s₀, hstart⟩

end MercaMiner
