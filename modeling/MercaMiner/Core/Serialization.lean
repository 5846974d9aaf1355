import MercaMiner.Basis.Wire
import MercaMiner.Core.UInt256

/-!
# Serialization

The byte writers every wire structure is built from, from `serialization.cpp`.

The writers append to an output vector. Each has a lemma that says what it
appends in terms of the width-and-value form of `LittleEndian.bytes`, and
nothing above this layer looks at the shifts again.

## Theorems

* `appendLE16_eq`, `appendLE32_eq`, `appendLE64_eq`: The fixed-width writers.
* `appendCompactSize_eq`: The variable-length writer.
-/

namespace MercaMiner

abbrev appendBytes (out bytes : Bytes) : Bytes :=
  out ++ bytes

def appendLE16 (out : Bytes) (value : UInt16) : Bytes :=
  out ++ [value.toUInt8, (value >>> 8).toUInt8]

def appendLE32 (out : Bytes) (value : UInt32) : Bytes :=
  out ++ [value.toUInt8, (value >>> 8).toUInt8, (value >>> 16).toUInt8, (value >>> 24).toUInt8]

/-- The source counts the shift up by eight. -/
def appendLE64 (out : Bytes) (value : UInt64) : Bytes :=
  (List.range 8).foldl (fun acc k => acc ++ [(value >>> UInt64.ofNat (8 * k)).toUInt8]) out

def appendCompactSize (out : Bytes) (value : UInt64) : Bytes :=
  if value < 253 then out ++ [value.toUInt8]
  else if value ≤ 0xffff then appendLE16 (out ++ [253]) value.toUInt16
  else if value ≤ 0xffffffff then appendLE32 (out ++ [254]) value.toUInt32
  else appendLE64 (out ++ [255]) value

theorem toUInt8_eq_ofNat (b : UInt8) (n : Nat) (h : b.toNat = n % 256) : b = UInt8.ofNat n := by
  apply UInt8.toNat_inj.mp
  rw [h, UInt8.toNat_ofNat']

theorem appendLE16_eq (out : Bytes) (value : UInt16) :
    appendLE16 out value = out ++ LittleEndian.bytes 2 value.toNat := by
  have h0 := toUInt8_eq_ofNat value.toUInt8 value.toNat (UInt16.toNat_toUInt8 value)
  have h1 := toUInt8_eq_ofNat (value >>> 8).toUInt8 (value.toNat / 256) (by
    rw [UInt16.toNat_toUInt8, UInt16.toNat_shiftRight, Nat.shiftRight_eq_div_pow]; rfl)
  simp only [appendLE16, LittleEndian.bytes, ← h0, ← h1]

theorem appendLE32_eq (out : Bytes) (value : UInt32) :
    appendLE32 out value = out ++ LittleEndian.bytes 4 value.toNat := by
  have hbyte (s : UInt32) (k : Nat) (hs : 2 ^ (s.toNat % 32) = k) :
      (value >>> s).toUInt8 = UInt8.ofNat (value.toNat / k) :=
    toUInt8_eq_ofNat _ _ (by
      rw [UInt32.toNat_toUInt8, UInt32.toNat_shiftRight, Nat.shiftRight_eq_div_pow, hs])
  have h0 := toUInt8_eq_ofNat value.toUInt8 value.toNat (UInt32.toNat_toUInt8 value)
  simp only [appendLE32, LittleEndian.bytes, ← h0, hbyte 8 256 rfl, hbyte 16 (256 * 256) rfl,
    hbyte 24 (256 * 256 * 256) rfl, Nat.div_div_eq_div_mul]

theorem appendLE64_eq (out : Bytes) (value : UInt64) :
    appendLE64 out value = out ++ LittleEndian.bytes 8 value.toNat := by
  have hbyte (k : Nat) (hk : k < 8) :
      (value >>> UInt64.ofNat (8 * k)).toUInt8 = UInt8.ofNat (value.toNat / 256 ^ k) :=
    toUInt8_eq_ofNat _ _ (by
      have hs : (UInt64.ofNat (8 * k)).toNat % 64 = 8 * k := by
        rw [UInt64.toNat_ofNat']
        omega
      rw [UInt64.toNat_toUInt8, UInt64.toNat_shiftRight, hs, Nat.shiftRight_eq_div_pow,
        Nat.pow_mul])
  have hrange : List.range 8 = [0, 1, 2, 3, 4, 5, 6, 7] := rfl
  simp only [appendLE64, hrange, List.foldl_cons, List.foldl_nil, List.append_assoc,
    List.cons_append, List.nil_append, LittleEndian.bytes, Nat.div_div_eq_div_mul]
  rw [hbyte 0 (by omega), hbyte 1 (by omega), hbyte 2 (by omega), hbyte 3 (by omega),
    hbyte 4 (by omega), hbyte 5 (by omega), hbyte 6 (by omega), hbyte 7 (by omega)]
  norm_num

theorem appendCompactSize_eq (out : Bytes) (value : UInt64) :
    appendCompactSize out value = out ++ Wire.encodeCompactSize value.toNat := by
  have hlt : value < 253 ↔ value.toNat < 253 := UInt64.lt_iff_toNat_lt
  have h16 : value ≤ 0xffff ↔ value.toNat ≤ 0xffff := UInt64.le_iff_toNat_le
  have h32 : value ≤ 0xffffffff ↔ value.toNat ≤ 0xffffffff := UInt64.le_iff_toNat_le
  simp only [appendCompactSize, Wire.encodeCompactSize, hlt, h16, h32]
  by_cases h1 : value.toNat < 253
  · have hb := toUInt8_eq_ofNat value.toUInt8 value.toNat (UInt64.toNat_toUInt8 value)
    rw [if_pos h1, if_pos h1, hb]
    rfl
  · rw [if_neg h1, if_neg h1]
    by_cases h2 : value.toNat ≤ 0xffff
    · rw [if_pos h2, if_pos h2, appendLE16_eq, UInt64.toNat_toUInt16, Nat.mod_eq_of_lt (by omega),
        List.append_assoc]
      rfl
    · rw [if_neg h2, if_neg h2]
      by_cases h4 : value.toNat ≤ 0xffffffff
      · rw [if_pos h4, if_pos h4, appendLE32_eq, UInt64.toNat_toUInt32,
          Nat.mod_eq_of_lt (by omega), List.append_assoc]
        rfl
      · rw [if_neg h4, if_neg h4, appendLE64_eq, List.append_assoc]
        rfl

end MercaMiner
