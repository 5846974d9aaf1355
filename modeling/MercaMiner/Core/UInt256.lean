import MercaMiner.Basis.Hex
import MercaMiner.Basis.LittleEndian

/-!
# 256-bit Numbers

Byte strings and the 256-bit number type, from `serialization.h` and
`uint256.cpp`.

A `UInt256` stores its bytes least significant first and carries the proof
that there are 32 of them, so no later definition re-checks the width. Text
shows the most significant byte first, and comparison walks from the last
stored byte down.

## Main definitions

* `Bytes`: A byte vector.
* `Text`: A string, which in the source is a string of bytes.
* `UInt256`: A 256-bit number.
* `fromHexBE`: Reading 64 hexadecimal digits.
* `toHexBE`: The 64 lower-case digits of a number.
* `compareNumeric`: The three-way comparison.
* `UInt256.value`: The integer the bytes denote.

## Theorems

* `compareNumeric_spec`: Comparison is the order of the integers.
* `le_iff_value`: `<=` is the order of the integers.
-/

namespace MercaMiner

/-- A byte vector. -/
abbrev Bytes := List UInt8

/-- A string, byte by byte. -/
abbrev Text := List UInt8

/-- The bytes of a string literal of the source. -/
def text (s : String) : Text :=
  s.toList.map Char.toUInt8

/-- The digit table of `uint256.cpp` and `target.cpp`: the value of one
    hexadecimal digit, or minus one. -/
def hexDigit (c : UInt8) : Int :=
  if c ≥ '0'.toUInt8 ∧ c ≤ '9'.toUInt8 then (c.toNat : Int) - '0'.toNat
  else if c ≥ 'a'.toUInt8 ∧ c ≤ 'f'.toUInt8 then (c.toNat : Int) - 'a'.toNat + 10
  else if c ≥ 'A'.toUInt8 ∧ c ≤ 'F'.toUInt8 then (c.toNat : Int) - 'A'.toNat + 10
  else -1

/-- A 256-bit number, stored least significant byte first. -/
structure UInt256 where
  bytes : Bytes
  size_eq : bytes.length = 32
  deriving DecidableEq

namespace UInt256

def size : Nat := 32

theorem eq_of_bytes (x y : UInt256) (h : x.bytes = y.bytes) : x = y := by
  cases x
  cases y
  rwa [mk.injEq]

/-- The value-initialised number. -/
def zero : UInt256 := ⟨List.replicate 32 0, List.length_replicate⟩

instance : Inhabited UInt256 := ⟨zero⟩

/-- The loop over the byte positions of the text, most significant first. The
    pair at `be_index` is stored at `SIZE - 1 - be_index`. -/
def fromHexBELoop : Text → Nat → Bytes → Option Bytes
  | h :: l :: rest, beIndex, bytes =>
      let high := hexDigit h
      let low := hexDigit l
      if high < 0 ∨ low < 0 then none
      else fromHexBELoop rest (beIndex + 1)
        (bytes.set (size - 1 - beIndex) (UInt8.ofNat ((high.toNat <<< 4) ||| low.toNat)))
  | _, _, bytes => some bytes

theorem length_fromHexBELoop (hex : Text) (beIndex : Nat) (bytes : Bytes) :
    ∀ out, fromHexBELoop hex beIndex bytes = some out → out.length = bytes.length := by
  induction hex, beIndex, bytes using fromHexBELoop.induct with
  | case1 h l rest beIndex bytes high low hneg =>
      intro out hout
      simp only [fromHexBELoop] at hout
      rw [if_pos hneg] at hout
      exact absurd hout (by simp only [reduceCtorEq, not_false_eq_true])
  | case2 h l rest beIndex bytes high low hpos ih =>
      intro out hout
      simp only [fromHexBELoop] at hout
      rw [if_neg hpos] at hout
      rw [ih out hout, List.length_set]
  | case3 hex beIndex bytes hshort =>
      intro out hout
      rw [fromHexBELoop.eq_2 _ _ _ hshort, Option.some.injEq] at hout
      rw [← hout]

def fromHexBE (hex : Text) : Option UInt256 :=
  if hex.length ≠ size * 2 then none
  else match hloop : fromHexBELoop hex 0 zero.bytes with
    | none => none
    | some bytes => some ⟨bytes, by
        rw [length_fromHexBELoop hex 0 zero.bytes bytes hloop, zero.size_eq]⟩

def toHexBE (x : UInt256) : Text :=
  Hex.encode x.bytes.reverse

def isZero (x : UInt256) : Bool :=
  x.bytes.all (· == 0)

/-- Compare two byte strings from their first byte on. -/
def compareFrom : Bytes → Bytes → Int
  | a :: as, b :: bs => if a < b then -1 else if a > b then 1 else compareFrom as bs
  | _, _ => 0

/-- The source counts the index down from the last stored byte. -/
def compareNumeric (a b : UInt256) : Int :=
  compareFrom a.bytes.reverse b.bytes.reverse

instance : LE UInt256 := ⟨fun a b => compareNumeric a b ≤ 0⟩

instance : LT UInt256 := ⟨fun a b => compareNumeric a b < 0⟩

/-- The operator `>`, which the source writes out. -/
def gt (a b : UInt256) : Prop := compareNumeric a b > 0

/-- The operator `>=`. -/
def ge (a b : UInt256) : Prop := compareNumeric a b ≥ 0

instance (a b : UInt256) : Decidable (a ≤ b) :=
  inferInstanceAs (Decidable (compareNumeric a b ≤ 0))

instance (a b : UInt256) : Decidable (a < b) :=
  inferInstanceAs (Decidable (compareNumeric a b < 0))

/-- The integer the bytes denote. -/
def value (x : UInt256) : Nat :=
  LittleEndian.value x.bytes

/-- Walking two equally long byte strings from the most significant end
    finds the sign of the difference of their integers. -/
theorem compareFrom_spec (as bs : Bytes) (hlen : as.length = bs.length) :
    (compareFrom as bs < 0 ↔
      LittleEndian.value as.reverse < LittleEndian.value bs.reverse) ∧
    (compareFrom as bs = 0 ↔
      LittleEndian.value as.reverse = LittleEndian.value bs.reverse) := by
  induction as generalizing bs with
  | nil =>
      have hbs : bs = [] := List.length_eq_zero_iff.mp hlen.symm
      simp only [hbs, compareFrom, lt_self_iff_false, and_self]
  | cons a as ih =>
      cases bs with
      | nil => simp only [List.length_cons, List.length_nil, Nat.add_eq_zero_iff,
          Nat.one_ne_zero, and_false] at hlen
      | cons b bs =>
          have htail : as.length = bs.length := by
            simpa only [List.length_cons, Nat.add_right_cancel_iff] using hlen
          have hrev : as.reverse.length = bs.reverse.length := by
            simp only [List.length_reverse, htail]
          simp only [compareFrom, List.reverse_cons]
          rcases Nat.lt_trichotomy a.toNat b.toNat with hab | hab | hab
          · -- The leading bytes already decide.
            have hlt : a < b := UInt8.lt_iff_toNat_lt.mpr hab
            have hv := LittleEndian.value_lt_of_last as.reverse bs.reverse a b hrev hlt
            rw [if_pos hlt]
            omega
          · have heq : a = b := UInt8.toNat_inj.mp hab
            subst heq
            rcases ih bs htail with ⟨hlt, heq⟩
            rw [if_neg (UInt8.lt_irrefl a), if_neg (UInt8.lt_irrefl a), hlt, heq,
              LittleEndian.value_append, LittleEndian.value_append, hrev]
            omega
          · have hgt : b < a := UInt8.lt_iff_toNat_lt.mpr hab
            have hv := LittleEndian.value_lt_of_last bs.reverse as.reverse b a hrev.symm hgt
            rw [if_neg (UInt8.not_lt.mpr (UInt8.le_of_lt hgt)), if_pos hgt]
            omega

theorem compareNumeric_spec (a b : UInt256) :
    (compareNumeric a b < 0 ↔ a.value < b.value) ∧
    (compareNumeric a b = 0 ↔ a.value = b.value) := by
  have h := compareFrom_spec a.bytes.reverse b.bytes.reverse
    (by simp only [List.length_reverse, a.size_eq, b.size_eq])
  simpa only [compareNumeric, value, List.reverse_reverse] using h

theorem le_iff_value (a b : UInt256) : a ≤ b ↔ a.value ≤ b.value := by
  rcases compareNumeric_spec a b with ⟨hlt, heq⟩
  change compareNumeric a b ≤ 0 ↔ _
  omega

theorem lt_iff_value (a b : UInt256) : a < b ↔ a.value < b.value :=
  (compareNumeric_spec a b).1

theorem value_inj (a b : UInt256) (h : a.value = b.value) : a = b := by
  have hb := LittleEndian.value_inj a.bytes b.bytes (a.size_eq.trans b.size_eq.symm) h
  cases a
  cases b
  simp only [mk.injEq]
  exact hb

end UInt256

end MercaMiner
