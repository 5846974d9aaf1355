import Mathlib.Data.FinEnum
import MercaMiner.Basis.ScriptNum
import MercaMiner.Core.Sha256
import MercaMiner.Core.Serialization

/-!
# Coinbase Transactions

Construction of the coinbase, from `coinbase.cpp`.

The transaction is serialized twice by separate code, once without witness for
its id and once with the marker, the flag and the one 32-byte witness item.
Both share the writers of the input and of the outputs.

`buildCoinbaseTransaction` is a chain of checks in front of an assembly that
cannot fail. `assembleCoinbase` names that assembly, and
`buildCoinbase_ok_iff` says which inputs reach it.

## Main definitions

* `CoinbaseError`: Every exception the construction throws, with its text.
* `buildBip34HeightPrefix`: The height push that starts the script.
* `buildCoinbaseTransaction`: The coinbase of a block.
* `assembleCoinbase`: What it returns once every check has passed.

## Theorems

* `buildBip34HeightPrefix_eq`: The push of a positive height.
* `buildCoinbase_ok_iff`: Exactly when a coinbase is built, and which one.
-/

namespace MercaMiner

/-- The exceptions of the coinbase code. -/
inductive CoinbaseError where
  | heightZero
  | negativeValue
  | commitmentSize
  | commitmentStart
  | heightEncoding
  | scriptSigSize
  deriving DecidableEq

def CoinbaseError.what : CoinbaseError → String
  | heightZero => "coinbase height must be greater than zero"
  | negativeValue => "coinbase value must not be negative"
  | commitmentSize => "witness commitment script must be exactly 38 bytes"
  | commitmentStart => "witness commitment script has invalid prefix"
  | heightEncoding => "coinbase height encoding is invalid"
  | scriptSigSize => "coinbase scriptSig must be between 2 and 100 bytes"

def nullPrevoutIndex : UInt32 := 0xffffffff

def coinbaseSequence : UInt32 := 0xfffffffe

def transactionVersion : UInt32 := 2

structure CoinbaseTransaction where
  scriptSig : Bytes
  serializedWithoutWitness : Bytes
  serializedWithWitness : Bytes
  txid : UInt256
  wtxid : UInt256
  deriving DecidableEq

/-- Push the low byte while the value is not zero. Four bytes exhaust it. -/
def scriptNumLoop : Nat → UInt32 → Bytes → Bytes
  | 0, _, result => result
  | n + 1, value, result =>
      if value ≠ 0 then scriptNumLoop n (value >>> 8) (result ++ [(value &&& 0xff).toUInt8])
      else result

def serializePositiveScriptNum (value : UInt32) : Bytes :=
  let result := scriptNumLoop 4 value []
  match result.getLast? with
  -- The top bit would be read as a sign.
  | some back => if back &&& 0x80 ≠ 0 then result ++ [0x00] else result
  | none => result

def buildBip34HeightPrefix (height : UInt32) : Except CoinbaseError Bytes :=
  if height = 0 then .error .heightZero
  -- The opcodes for one to sixteen.
  else if height ≤ 16 then .ok [(0x50 + height).toUInt8]
  else
    let encoded := serializePositiveScriptNum height
    if encoded.isEmpty ∨ encoded.length ≥ 0x4c then .error .heightEncoding
    else .ok (appendBytes [UInt8.ofNat encoded.length] encoded)

def appendCoinbaseInput (out scriptSig : Bytes) : Bytes :=
  let out := appendCompactSize out 1
  let out := appendBytes out (List.replicate 32 0)
  let out := appendLE32 out nullPrevoutIndex
  let out := appendCompactSize out (UInt64.ofNat scriptSig.length)
  let out := appendBytes out scriptSig
  appendLE32 out coinbaseSequence

def appendOutputs (out : Bytes) (coinbaseValue : Int64) (payoutScript witnessCommitment : Bytes) :
    Bytes :=
  let out := appendCompactSize out 2
  let out := appendLE64 out coinbaseValue.toUInt64
  let out := appendCompactSize out (UInt64.ofNat payoutScript.length)
  let out := appendBytes out payoutScript
  let out := appendLE64 out 0
  let out := appendCompactSize out (UInt64.ofNat witnessCommitment.length)
  appendBytes out witnessCommitment

/-- The first six bytes of a witness commitment script. -/
def commitmentStart : Bytes := [0x6a, 0x24, 0xaa, 0x21, 0xa9, 0xed]

def validateCoinbaseCommitment (script : Bytes) : Except CoinbaseError Unit :=
  if script.length ≠ 38 then .error .commitmentSize
  else if script.take 6 ≠ commitmentStart then .error .commitmentStart
  else .ok ()

def serializeStripped (height : UInt32) (coinbaseValue : Int64)
    (payoutScript scriptSig witnessCommitment : Bytes) : Bytes :=
  let stripped := appendLE32 [] transactionVersion
  let stripped := appendCoinbaseInput stripped scriptSig
  let stripped := appendOutputs stripped coinbaseValue payoutScript witnessCommitment
  appendLE32 stripped (height - 1)

def serializeWithWitness (height : UInt32) (coinbaseValue : Int64)
    (payoutScript scriptSig witnessCommitment : Bytes) : Bytes :=
  let withWitness := appendLE32 [] transactionVersion
  -- The extended form's marker and witness flag.
  let withWitness := withWitness ++ [0x00]
  let withWitness := withWitness ++ [0x01]
  let withWitness := appendCoinbaseInput withWitness scriptSig
  let withWitness := appendOutputs withWitness coinbaseValue payoutScript witnessCommitment
  -- One stack item, the 32-byte zero reserved value.
  let withWitness := appendCompactSize withWitness 1
  let withWitness := appendCompactSize withWitness 32
  let withWitness := appendBytes withWitness (List.replicate 32 0)
  appendLE32 withWitness (height - 1)

/-- The transaction with its two serializations and their hashes. -/
def assembleCoinbase (height : UInt32) (coinbaseValue : Int64)
    (payoutScript scriptSig witnessCommitment : Bytes) : CoinbaseTransaction :=
  let stripped := serializeStripped height coinbaseValue payoutScript scriptSig witnessCommitment
  let withWitness :=
    serializeWithWitness height coinbaseValue payoutScript scriptSig witnessCommitment
  ⟨scriptSig, stripped, withWitness, doubleSha256 stripped, doubleSha256 withWitness⟩

def buildCoinbaseTransaction (height : UInt32) (coinbaseValue : Int64)
    (payoutScript coinbaseAuxFlags extranonce witnessCommitment : Bytes) :
    Except CoinbaseError CoinbaseTransaction :=
  if height = 0 then .error .heightZero
  else if coinbaseValue < 0 then .error .negativeValue
  else match validateCoinbaseCommitment witnessCommitment with
    | .error e => .error e
    | .ok _ => match buildBip34HeightPrefix height with
      | .error e => .error e
      | .ok heightPush =>
          let scriptSig := appendBytes (appendBytes heightPush coinbaseAuxFlags) extranonce
          if scriptSig.length < 2 ∨ scriptSig.length > 100 then .error .scriptSigSize
          else .ok (assembleCoinbase height coinbaseValue payoutScript scriptSig witnessCommitment)

/-- The loop appends the base-256 digits. -/
theorem scriptNumLoop_eq (n : Nat) (value : UInt32) (result : Bytes)
    (h : value.toNat < 256 ^ n) :
    scriptNumLoop n value result = result ++ ScriptNum.digits value.toNat := by
  induction n generalizing value result with
  | zero =>
      have hz : value.toNat = 0 := by omega
      rw [scriptNumLoop, hz, ScriptNum.digits_zero, List.append_nil]
  | succ k ih =>
      rw [scriptNumLoop]
      by_cases hz : value ≠ 0
      · have hpos : 0 < value.toNat :=
          Nat.pos_of_ne_zero fun h0 => hz (UInt32.toNat_inj.mp h0)
        have hshift : (value >>> 8).toNat = value.toNat / 256 := by
          rw [UInt32.toNat_shiftRight, Nat.shiftRight_eq_div_pow]
          rfl
        have hbyte : (value &&& 0xff).toUInt8 = UInt8.ofNat (value.toNat % 256) := by
          apply UInt8.toNat_inj.mp
          rw [UInt32.toNat_toUInt8, UInt32.toNat_and, UInt8.toNat_ofNat', Nat.mod_mod]
          exact congrArg (· % 256) (Nat.and_two_pow_sub_one_eq_mod _ 8) |>.trans (Nat.mod_mod _ _)
        rw [if_pos hz, ih _ _ (by rw [hshift]; omega), hshift, hbyte, List.append_assoc,
          List.singleton_append, ScriptNum.digits, ScriptNum.digits,
          Nat.digits_def' (by omega) hpos, List.map_cons]
      · have hzero : value.toNat = 0 := congrArg UInt32.toNat (not_not.mp hz)
        rw [if_neg hz, hzero, ScriptNum.digits_zero, List.append_nil]

theorem serializePositiveScriptNum_eq (value : UInt32) :
    serializePositiveScriptNum value = ScriptNum.encode value.toNat := by
  have hsign : ∀ back : UInt8, back &&& 0x80 ≠ 0 ↔ 128 ≤ back.toNat := by decide +kernel
  rw [serializePositiveScriptNum, scriptNumLoop_eq 4 value [] value.toNat_lt, List.nil_append,
    ScriptNum.encode]
  cases (ScriptNum.digits value.toNat).getLast? with
  | none => rfl
  | some back => simp only [hsign]

/-- The push of a positive height is the script push of the number. -/
theorem buildBip34HeightPrefix_eq (height : UInt32) (hz : height ≠ 0) :
    buildBip34HeightPrefix height = .ok (ScriptNum.push height.toNat) := by
  have hpos : 0 < height.toNat := Nat.pos_of_ne_zero fun h => hz (UInt32.toNat_inj.mp h)
  have hle : height ≤ 16 ↔ height.toNat ≤ 16 := UInt32.le_iff_toNat_le
  rw [buildBip34HeightPrefix, ScriptNum.push, if_neg hz]
  by_cases hsmall : height.toNat ≤ 16
  · have hbyte : (0x50 + height).toUInt8 = UInt8.ofNat (0x50 + height.toNat) := by
      apply UInt8.toNat_inj.mp
      rw [UInt32.toNat_toUInt8, UInt32.toNat_add, UInt8.toNat_ofNat']
      have h50 : (0x50 : UInt32).toNat = 0x50 := rfl
      omega
    rw [if_pos (hle.mpr hsmall), if_pos hsmall, hbyte]
  · have hlow := ScriptNum.length_encode_pos height.toNat hpos
    have hhigh := ScriptNum.length_encode height.toNat
    have hdigits := ScriptNum.length_digits_le height.toNat 4 height.toNat_lt
    have hok : ¬((ScriptNum.encode height.toNat).isEmpty ∨
        (ScriptNum.encode height.toNat).length ≥ 0x4c) := by
      rw [List.isEmpty_iff_length_eq_zero]
      omega
    rw [if_neg fun h => hsmall (hle.mp h), if_neg hsmall]
    simp only [serializePositiveScriptNum_eq, if_neg hok, appendBytes, List.singleton_append]

/-- Every positive height has a push, of one to six bytes. -/
theorem buildBip34HeightPrefix_spec (height : UInt32) (hz : height ≠ 0) :
    ∃ heightPush, buildBip34HeightPrefix height = .ok heightPush ∧
      1 ≤ heightPush.length ∧ heightPush.length ≤ 6 :=
  ⟨_, buildBip34HeightPrefix_eq height hz, ScriptNum.length_push height.toNat 4 height.toNat_lt⟩

theorem validateCoinbaseCommitment_ok (script : Bytes) :
    validateCoinbaseCommitment script = .ok () ↔
      script.length = 38 ∧ script.take 6 = commitmentStart := by
  rw [validateCoinbaseCommitment]
  by_cases hlen : script.length = 38
  · by_cases hstart : script.take 6 = commitmentStart
    · simp only [hlen, hstart, ne_eq, not_true_eq_false, if_false, and_self]
    · simp only [hlen, hstart, ne_eq, not_true_eq_false, not_false_eq_true, if_false, if_true,
        reduceCtorEq, and_false]
  · simp only [hlen, ne_eq, not_false_eq_true, if_true, reduceCtorEq, false_and]

/-- The script of a coinbase: the height push, the flags of the template and
    the extranonce. -/
structure CoinbaseScript (height : UInt32) (aux extranonce scriptSig : Bytes) : Prop where
  push : ∃ heightPush, buildBip34HeightPrefix height = .ok heightPush ∧
    scriptSig = heightPush ++ aux ++ extranonce
  lower : 2 ≤ scriptSig.length
  upper : scriptSig.length ≤ 100

/-- A coinbase is built exactly for a positive height, a non-negative value, a
    well-formed commitment and a script of allowed length, and then it is the
    assembled one. -/
theorem buildCoinbase_ok_iff (height : UInt32) (coinbaseValue : Int64)
    (payoutScript aux extranonce commitment : Bytes) (cb : CoinbaseTransaction) :
    buildCoinbaseTransaction height coinbaseValue payoutScript aux extranonce commitment = .ok cb ↔
      height ≠ 0 ∧ ¬coinbaseValue < 0 ∧ validateCoinbaseCommitment commitment = .ok () ∧
        ∃ scriptSig, CoinbaseScript height aux extranonce scriptSig ∧
          cb = assembleCoinbase height coinbaseValue payoutScript scriptSig commitment := by
  rw [buildCoinbaseTransaction]
  by_cases hz : height = 0
  · simp only [hz, if_true, reduceCtorEq, ne_eq, not_true_eq_false, false_and]
  by_cases hneg : coinbaseValue < 0
  · simp only [hz, hneg, if_false, if_true, reduceCtorEq, not_true_eq_false, false_and, and_false]
  rcases hcommit : validateCoinbaseCommitment commitment with e | u
  · simp only [hz, hneg, if_false, reduceCtorEq, false_and, and_false]
  rcases buildBip34HeightPrefix_spec height hz with ⟨heightPush, hpush, _, _⟩
  simp only [hz, hneg, if_false, hpush, appendBytes, ne_eq, not_false_eq_true, true_and]
  have hscript : ∀ s, CoinbaseScript height aux extranonce s ↔
      s = heightPush ++ aux ++ extranonce ∧ 2 ≤ s.length ∧ s.length ≤ 100 := by
    intro s
    constructor
    · rintro ⟨⟨p, hp, hs⟩, hlo, hhi⟩
      rw [hpush, Except.ok.injEq] at hp
      exact ⟨by rw [hs, hp], hlo, hhi⟩
    · rintro ⟨hs, hlo, hhi⟩
      exact ⟨⟨heightPush, hpush, hs⟩, hlo, hhi⟩
  by_cases hlen : (heightPush ++ aux ++ extranonce).length < 2 ∨
      (heightPush ++ aux ++ extranonce).length > 100
  · rw [if_pos hlen]
    constructor
    · intro h
      exact absurd h (by simp only [reduceCtorEq, not_false_eq_true])
    · rintro ⟨s, hs, _⟩
      rcases (hscript s).mp hs with ⟨rfl, hlo, hhi⟩
      omega
  · rw [if_neg hlen, Except.ok.injEq]
    constructor
    · intro h
      exact ⟨_, (hscript _).mpr ⟨rfl, by omega, by omega⟩, h.symm⟩
    · rintro ⟨s, hs, hcb⟩
      rcases (hscript s).mp hs with ⟨rfl, _, _⟩
      exact hcb.symm

end MercaMiner
