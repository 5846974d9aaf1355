import MercaMiner.Core.UInt256

/-!
# Compact Targets

The proof-of-work target in its four-byte form, from `target.cpp`.

The top byte is a length, the low 23 bits a mantissa and the bit between them
a sign. `decodeCompact` stores the mantissa's bytes at the place the length
names, drops those past the end, and reports sign and overflow beside the
number.

## Main definitions

* `decodeCompact`: The number with its two flags.
* `validTargetFromCompact`: The number, if it is a usable target.
* `parseBitsHex`: Eight hexadecimal digits as a 32-bit number.
* `meetsTarget`: The proof-of-work test.
-/

namespace MercaMiner

structure CompactTarget where
  target : UInt256
  negative : Bool
  overflow : Bool

def CompactTarget.isValid (c : CompactTarget) : Bool :=
  !c.negative && !c.overflow && !c.target.isZero

/-- Store one byte of the word, unless its place is past the end. -/
def storeByte (offset : Nat) (word : UInt32) (bytes : Bytes) (i : Nat) : Bytes :=
  if offset + i < bytes.length then
    bytes.set (offset + i) (word >>> UInt32.ofNat (8 * i)).toUInt8
  else bytes

/-- Store the low-order `count` bytes of the word from `offset` on. -/
def storeWord (count offset : Nat) (word : UInt32) (bytes : Bytes) : Bytes :=
  (List.range count).foldl (storeByte offset word) bytes

theorem storeWord_succ (count offset : Nat) (word : UInt32) (bytes : Bytes) :
    storeWord (count + 1) offset word bytes
      = storeByte offset word (storeWord count offset word bytes) count := by
  simp only [storeWord, List.range_succ, List.foldl_append, List.foldl_cons, List.foldl_nil]

theorem length_storeWord (count offset : Nat) (word : UInt32) (bytes : Bytes) :
    (storeWord count offset word bytes).length = bytes.length := by
  induction count with
  | zero => rfl
  | succ k ih =>
      rw [storeWord_succ, storeByte]
      by_cases hlt : offset + k < (storeWord k offset word bytes).length
      · rw [if_pos hlt, List.length_set, ih]
      · rw [if_neg hlt, ih]

/-- The length byte. -/
def compactSize (compact : UInt32) : Nat :=
  (compact >>> 24).toNat

/-- The mantissa, already shifted down when the length leaves no room for all
    of its bytes. -/
def compactWord (compact : UInt32) : UInt32 :=
  let word := compact &&& 0x007fffff
  if compactSize compact ≤ 3 then word >>> UInt32.ofNat (8 * (3 - compactSize compact))
  else word

def decodeCompact (compact : UInt32) : CompactTarget :=
  let size := compactSize compact
  let word := compactWord compact
  let bytes :=
    if size ≤ 3 then storeWord 4 0 word UInt256.zero.bytes
    else storeWord 3 (size - 3) word UInt256.zero.bytes
  { target := ⟨bytes, by
      by_cases h : size ≤ 3
      · simp only [bytes, if_pos h, length_storeWord, UInt256.zero.size_eq]
      · simp only [bytes, if_neg h, length_storeWord, UInt256.zero.size_eq]⟩
    negative := word != 0 && (compact &&& 0x00800000) != 0
    overflow := word != 0 &&
      (decide (size > 34) || (decide (word > 0xff) && decide (size > 33)) ||
        (decide (word > 0xffff) && decide (size > 32))) }

def validTargetFromCompact (compact : UInt32) : Option UInt256 :=
  let decoded := decodeCompact compact
  if !decoded.isValid then none else some decoded.target

/-- The digit loop, most significant digit first. -/
def parseBitsLoop : Text → UInt32 → Option UInt32
  | [], value => some value
  | c :: rest, value =>
      let digit := hexDigit c
      if digit < 0 then none
      else parseBitsLoop rest ((value <<< 4) ||| UInt32.ofNat digit.toNat)

def parseBitsHex (hex : Text) : Option UInt32 :=
  if hex.length ≠ 8 then none else parseBitsLoop hex 0

def meetsTarget (hash target : UInt256) : Bool :=
  decide (hash ≤ target)

end MercaMiner
