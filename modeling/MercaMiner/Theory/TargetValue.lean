import Mathlib.Data.Nat.Bitwise
import MercaMiner.Core.Target

/-!
# The Integer a Compact Target Denotes

`compactValue` is the arithmetic reading of the four-byte form: the mantissa
times 256 to the length minus three, rounded down when the length is below
three. The results here say the byte-storing decoder computes it, modulo the
width of the number, and that the flags report exactly what is lost.

## Main definitions

* `compactMantissa`, `compactExponent`: The two fields as numbers.
* `compactValue`: The integer a compact target denotes.
* `CompactSigned`: Its sign bit is set.

## Theorems

* `storeWord_value`: What storing a word into a zeroed number denotes.
* `decodeCompact_value`: The decoded number is the integer, truncated.
* `decodeCompact_overflow`: The overflow flag reports exactly the truncation.
* `decodeCompact_isValid`: When a compact form is a usable target.
* `validTarget_value`: A valid target is the integer.
* `compact_target_exact`: All of this for every compact form.
-/

namespace MercaMiner

def compactMantissa (compact : UInt32) : Nat :=
  compact.toNat % 2 ^ 23

def compactExponent (compact : UInt32) : Nat :=
  compact.toNat / 2 ^ 24

/-- The unbounded integer a compact target denotes. -/
def compactValue (compact : UInt32) : Nat :=
  if compactExponent compact ≤ 3 then
    compactMantissa compact / 256 ^ (3 - compactExponent compact)
  else compactMantissa compact * 256 ^ (compactExponent compact - 3)

theorem storeByte_toNat (word : UInt32) (i : Nat) (hi : i < 4) :
    (word >>> UInt32.ofNat (8 * i)).toUInt8.toNat = word.toNat / 256 ^ i % 256 := by
  have hshift : (UInt32.ofNat (8 * i)).toNat % 32 = 8 * i := by
    rw [UInt32.toNat_ofNat']
    omega
  rw [UInt32.toNat_toUInt8, UInt32.toNat_shiftRight, hshift, Nat.shiftRight_eq_div_pow,
    Nat.pow_mul]

/-- The low bytes of a number, at an offset, fit if their slots do. -/
theorem lowPart_lt (word k offset : Nat) (h : offset + k ≤ 32) :
    word % 256 ^ k * 256 ^ offset < 256 ^ 32 := by
  have hlow : word % 256 ^ k < 256 ^ k := Nat.mod_lt _ (by positivity)
  calc word % 256 ^ k * 256 ^ offset
      < 256 ^ k * 256 ^ offset := Nat.mul_lt_mul_of_pos_right hlow (by positivity)
    _ = 256 ^ (k + offset) := (pow_add 256 k offset).symm
    _ ≤ 256 ^ 32 := Nat.pow_le_pow_right (by omega) (by omega)

/-- Storing the low bytes of a word into a zeroed number: every slot above the
    stored ones is still zero, and the number is the word's low part at the
    offset, truncated to the width. -/
theorem storeWord_value (offset : Nat) (word : UInt32) :
    ∀ (count : Nat), count ≤ 4 →
      (∀ j, offset + count ≤ j → j < 32 →
        (storeWord count offset word UInt256.zero.bytes)[j]? = some 0) ∧
      LittleEndian.value (storeWord count offset word UInt256.zero.bytes)
        = (word.toNat % 256 ^ count) * 256 ^ offset % 256 ^ 32 := by
  intro count
  induction count with
  | zero =>
      intro _
      refine ⟨fun j _ hj => ?_, ?_⟩
      · simp only [storeWord, List.range_zero, List.foldl_nil, UInt256.zero,
          List.getElem?_replicate, if_pos hj]
      · simp only [storeWord, List.range_zero, List.foldl_nil, UInt256.zero,
          LittleEndian.value_replicate_zero, pow_zero, Nat.mod_one, Nat.zero_mul, Nat.zero_mod]
  | succ k ih =>
      intro hk
      rcases ih (by omega) with ⟨hzero, hval⟩
      have hlen : (storeWord k offset word UInt256.zero.bytes).length = 32 := by
        rw [length_storeWord, UInt256.zero.size_eq]
      have hbyte := storeByte_toNat word k (by omega)
      -- The digit the next slot receives extends the stored part by one place.
      have hnext : (word.toNat % 256 ^ (k + 1)) * 256 ^ offset
          = (word.toNat % 256 ^ k) * 256 ^ offset
            + (word.toNat / 256 ^ k % 256) * 256 ^ (offset + k) := by
        rw [Nat.mod_pow_succ, pow_add]
        ring
      rw [storeWord_succ, storeByte, hlen]
      by_cases hfit : offset + k < 32
      · rw [if_pos hfit]
        refine ⟨fun j hj hj32 => ?_, ?_⟩
        · rw [List.getElem?_set_ne (by omega)]
          exact hzero j (by omega) hj32
        · rw [LittleEndian.value_set_zero _ _ _ (hzero (offset + k) (le_refl _) hfit), hval, hbyte,
            Nat.mod_eq_of_lt (lowPart_lt word.toNat k offset (by omega)), ← hnext,
            Nat.mod_eq_of_lt (lowPart_lt word.toNat (k + 1) offset (by omega))]
      · rw [if_neg hfit]
        refine ⟨fun j hj hj32 => absurd hj32 (by omega), ?_⟩
        -- The slot is past the end, so its weight is a multiple of the width.
        rcases Nat.pow_dvd_pow 256 (show 32 ≤ offset + k by omega) with ⟨q, hq⟩
        rw [hval, hnext, hq, Nat.mul_left_comm, Nat.add_mul_mod_self_left]

theorem compactSize_eq (compact : UInt32) : compactSize compact = compactExponent compact := by
  rw [compactSize, compactExponent, UInt32.toNat_shiftRight, Nat.shiftRight_eq_div_pow]
  rfl

theorem compactWord_toNat (compact : UInt32) :
    (compactWord compact).toNat
      = compactMantissa compact / 256 ^ (3 - compactExponent compact) := by
  -- The mask takes the remainder by a power of two.
  have hmask : (compact &&& 0x007fffff).toNat = compactMantissa compact := by
    rw [UInt32.toNat_and, compactMantissa]
    exact Nat.and_two_pow_sub_one_eq_mod _ 23
  rw [compactWord, compactSize_eq]
  by_cases hle : compactExponent compact ≤ 3
  · have hshift : (UInt32.ofNat (8 * (3 - compactExponent compact))).toNat % 32
        = 8 * (3 - compactExponent compact) := by
      rw [UInt32.toNat_ofNat']
      omega
    simp only [if_pos hle]
    rw [UInt32.toNat_shiftRight, hshift, hmask, Nat.shiftRight_eq_div_pow, Nat.pow_mul]
  · have hzero : 3 - compactExponent compact = 0 := by omega
    simp only [if_neg hle]
    rw [hmask, hzero, pow_zero, Nat.div_one]

theorem compactMantissa_lt (compact : UInt32) : compactMantissa compact < 2 ^ 23 :=
  Nat.mod_lt _ (by omega)

/-- The integer in terms of the shifted word: the shift already took care of a
    length below three. -/
theorem compactValue_eq (compact : UInt32) :
    compactValue compact
      = (compactWord compact).toNat * 256 ^ (compactExponent compact - 3) := by
  rw [compactValue, compactWord_toNat]
  by_cases hle : compactExponent compact ≤ 3
  · have hzero : compactExponent compact - 3 = 0 := by omega
    rw [if_pos hle, hzero, pow_zero, Nat.mul_one]
  · have hzero : 3 - compactExponent compact = 0 := by omega
    rw [if_neg hle, hzero, pow_zero, Nat.div_one]

theorem compactWord_lt (compact : UInt32) : (compactWord compact).toNat < 2 ^ 23 := by
  rw [compactWord_toNat]
  exact lt_of_le_of_lt (Nat.div_le_self _ _) (compactMantissa_lt compact)

theorem decodeCompact_value (compact : UInt32) :
    (decodeCompact compact).target.value = compactValue compact % 2 ^ 256 := by
  have hword := compactWord_lt compact
  have hwidth : (256 : Nat) ^ 32 = 2 ^ 256 := by norm_num
  rw [compactValue_eq]
  simp only [UInt256.value, decodeCompact, compactSize_eq]
  by_cases hle : compactExponent compact ≤ 3
  · have hzero : compactExponent compact - 3 = 0 := by omega
    rw [if_pos hle, (storeWord_value 0 _ 4 (by omega)).2, hzero, hwidth,
      Nat.mod_eq_of_lt (a := (compactWord compact).toNat) (by omega)]
  · rw [if_neg hle, (storeWord_value _ _ 3 (by omega)).2, hwidth,
      Nat.mod_eq_of_lt (a := (compactWord compact).toNat) (by omega)]

/-- The bit between length and mantissa, in which the source keeps the sign. -/
def CompactSigned (compact : UInt32) : Prop :=
  compact.toNat / 2 ^ 23 % 2 = 1

theorem compactSign_iff (compact : UInt32) :
    compact &&& 0x00800000 ≠ 0 ↔ CompactSigned compact := by
  -- A single bit of a number is its test times its weight.
  have hmask : (compact &&& 0x00800000).toNat = (compact.toNat.testBit 23).toNat * 2 ^ 23 := by
    rw [UInt32.toNat_and]
    exact Nat.and_two_pow compact.toNat 23
  rw [ne_eq, ← UInt32.toNat_inj, hmask, CompactSigned, Nat.testBit_eq_decide_div_mod_eq]
  by_cases hbit : compact.toNat / 2 ^ 23 % 2 = 1
  · rw [decide_eq_true hbit]
    exact iff_of_true (by decide) hbit
  · rw [decide_eq_false hbit]
    exact iff_of_false (by decide) hbit

/-- The shifted word is zero exactly when the integer is. -/
theorem compactWord_ne_zero (compact : UInt32) :
    compactWord compact ≠ 0 ↔ 0 < compactValue compact := by
  have hpow : 0 < 256 ^ (compactExponent compact - 3) := by positivity
  rw [compactValue_eq, Nat.mul_pos_iff_of_pos_right hpow, Nat.pos_iff_ne_zero, ne_eq, ne_eq,
    ← UInt32.toNat_inj]
  rfl

/-- The sign flag is raised exactly for a negative number other than zero. -/
theorem decodeCompact_negative (compact : UInt32) :
    (decodeCompact compact).negative = true ↔
      CompactSigned compact ∧ 0 < compactValue compact := by
  simp only [decodeCompact, Bool.and_eq_true, bne_iff_ne, compactWord_ne_zero, compactSign_iff]
  exact And.comm

theorem isZero_iff (x : UInt256) : x.isZero = true ↔ x.value = 0 := by
  have hz : UInt256.zero.value = 0 := LittleEndian.value_replicate_zero 32
  constructor
  · intro h
    have hx : x.bytes = List.replicate 32 0 := by
      refine List.eq_replicate_iff.mpr ⟨x.size_eq, fun b hb => ?_⟩
      exact eq_of_beq (List.all_eq_true.mp h b hb)
    rw [UInt256.value, hx, LittleEndian.value_replicate_zero]
  · intro h
    rw [UInt256.value_inj x UInt256.zero (h.trans hz.symm)]
    rfl

/-- The overflow flag is raised exactly when the integer does not fit. -/
theorem decodeCompact_overflow (compact : UInt32) :
    (decodeCompact compact).overflow = true ↔ 2 ^ 256 ≤ compactValue compact := by
  have hword := compactWord_lt compact
  have hzero : compactWord compact = 0 ↔ (compactWord compact).toNat = 0 := by
    rw [← UInt32.toNat_inj]
    rfl
  simp only [decodeCompact, compactSize_eq, Bool.and_eq_true, bne_iff_ne, ne_eq, hzero,
    Bool.or_eq_true, decide_eq_true_eq, gt_iff_lt, UInt32.lt_iff_toNat_lt, UInt32.reduceToNat]
  rw [compactValue_eq]
  generalize (compactWord compact).toNat = w at hword
  generalize compactExponent compact = e
  have hbase : ∀ k, (256 : Nat) ^ k = 2 ^ (8 * k) := fun k => by rw [Nat.pow_mul]
  rcases Nat.lt_or_ge 34 e with he | he
  · -- Any non-zero mantissa is already too large.
    have hpow : 2 ^ 256 ≤ 256 ^ (e - 3) := by
      rw [hbase]
      exact Nat.pow_le_pow_right (by omega) (by omega)
    constructor
    · rintro ⟨hw, _⟩
      exact le_trans hpow (Nat.le_mul_of_pos_left _ (Nat.pos_of_ne_zero hw))
    · intro hle
      refine ⟨fun hw => ?_, Or.inl (Or.inl he)⟩
      rw [hw, Nat.zero_mul] at hle
      omega
  · -- At the boundary lengths the number of mantissa bytes decides.
    rcases Nat.lt_or_ge e 33 with h33 | h33
    · have hpow : 256 ^ (e - 3) ≤ 2 ^ 232 := by
        rw [hbase]
        exact Nat.pow_le_pow_right (by omega) (by omega)
      have hmul : w * 256 ^ (e - 3) ≤ 2 ^ 23 * 2 ^ 232 :=
        Nat.mul_le_mul (by omega) hpow
      have hsmall : (2 : Nat) ^ 23 * 2 ^ 232 < 2 ^ 256 := by norm_num
      omega
    · rcases Nat.lt_or_ge e 34 with h34 | h34
      · have heq : e = 33 := by omega
        subst heq
        norm_num
        omega
      · have heq : e = 34 := by omega
        subst heq
        norm_num
        omega

/-- A compact form is valid exactly for a positive integer that fits. -/
theorem decodeCompact_isValid (compact : UInt32) :
    (decodeCompact compact).isValid = true ↔
      ¬CompactSigned compact ∧ 0 < compactValue compact ∧ compactValue compact < 2 ^ 256 := by
  have hoverflow := decodeCompact_overflow compact
  have hnegative := decodeCompact_negative compact
  have hzero := isZero_iff (decodeCompact compact).target
  rw [decodeCompact_value] at hzero
  simp only [CompactTarget.isValid, Bool.and_eq_true, Bool.not_eq_true', ← Bool.not_eq_true,
    hoverflow, hnegative, hzero]
  constructor
  · rintro ⟨⟨hsign, hfits⟩, hnz⟩
    have hlt : compactValue compact < 2 ^ 256 := Nat.lt_of_not_le hfits
    rw [Nat.mod_eq_of_lt hlt] at hnz
    have hpos : 0 < compactValue compact := Nat.pos_of_ne_zero hnz
    exact ⟨fun hsigned => hsign ⟨hsigned, hpos⟩, hpos, hlt⟩
  · rintro ⟨hsign, hpos, hlt⟩
    rw [Nat.mod_eq_of_lt hlt]
    exact ⟨⟨fun hboth => hsign hboth.1, Nat.not_le.mpr hlt⟩, Nat.ne_of_gt hpos⟩

theorem validTarget_iff (compact : UInt32) (target : UInt256) :
    validTargetFromCompact compact = some target ↔
      (decodeCompact compact).isValid = true ∧ (decodeCompact compact).target = target := by
  rw [validTargetFromCompact]
  cases hvalid : (decodeCompact compact).isValid with
  | false => simp only [Bool.not_false, if_true, reduceCtorEq, Bool.false_eq_true, false_and]
  | true => simp only [Bool.not_true, Bool.false_eq_true, if_false, Option.some.injEq, true_and]

/-- A target accepted as valid is the integer its compact form denotes. -/
theorem validTarget_value (compact : UInt32) (target : UInt256)
    (h : validTargetFromCompact compact = some target) :
    target.value = compactValue compact ∧ 0 < target.value := by
  rcases (validTarget_iff compact target).mp h with ⟨hvalid, rfl⟩
  rcases (decodeCompact_isValid compact).mp hvalid with ⟨_, hpos, hlt⟩
  have hvalue : (decodeCompact compact).target.value = compactValue compact := by
    rw [decodeCompact_value, Nat.mod_eq_of_lt hlt]
  exact ⟨hvalue, by rwa [hvalue]⟩

/-- Decoding a compact target is exact. The decoded number is the integer
    modulo the width, the flags report overflow and sign exactly, and a target
    is returned exactly for a positive integer that fits, and is that
    integer. -/
theorem compact_target_exact (compact : UInt32) :
    (decodeCompact compact).target.value = compactValue compact % 2 ^ 256 ∧
    ((decodeCompact compact).overflow = true ↔ 2 ^ 256 ≤ compactValue compact) ∧
    ((decodeCompact compact).negative = true ↔
      CompactSigned compact ∧ 0 < compactValue compact) ∧
    ((∃ target, validTargetFromCompact compact = some target) ↔
      ¬CompactSigned compact ∧ 0 < compactValue compact ∧ compactValue compact < 2 ^ 256) ∧
    ∀ target, validTargetFromCompact compact = some target →
      target.value = compactValue compact := by
  refine ⟨decodeCompact_value compact, decodeCompact_overflow compact,
    decodeCompact_negative compact, ?_, fun target h => (validTarget_value compact target h).1⟩
  rw [← decodeCompact_isValid]
  constructor
  · rintro ⟨target, h⟩
    exact ((validTarget_iff compact target).mp h).1
  · intro hvalid
    exact ⟨_, (validTarget_iff compact _).mpr ⟨hvalid, rfl⟩⟩

end MercaMiner
