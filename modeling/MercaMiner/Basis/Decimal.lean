import Mathlib.Data.Nat.Digits.Lemmas

/-!
# Decimal Numerals

Numbers as text. Text is a list of bytes.

## Main definitions

* `isDigit`: The ten digits.
* `value`: The number a text of digits denotes.
* `numeral`: A number without leading zeros.

## Theorems

* `value_numeral`: A numeral denotes its number.
* `isDigit_numeral`: A numeral is a text of digits.
-/

namespace Decimal

def isDigit (b : UInt8) : Bool :=
  decide ('0'.toUInt8 ≤ b ∧ b ≤ '9'.toUInt8)

/-- The number a text of digits denotes. -/
def value (l : List UInt8) : Nat :=
  l.foldl (fun n b => 10 * n + (b.toNat - '0'.toNat)) 0

def digit (d : Nat) : UInt8 :=
  UInt8.ofNat ('0'.toNat + d)

/-- The text of a number. -/
def numeral (n : Nat) : List UInt8 :=
  if n = 0 then [digit 0] else (Nat.digits 10 n).reverse.map digit

theorem value_snoc (l : List UInt8) (b : UInt8) :
    value (l ++ [b]) = 10 * value l + (b.toNat - '0'.toNat) := by
  rw [value, List.foldl_append]
  rfl

theorem toNat_digit (d : Nat) (h : d < 10) : (digit d).toNat = '0'.toNat + d := by
  have hzero : '0'.toNat = 48 := rfl
  rw [digit, UInt8.toNat_ofNat', hzero]
  omega

theorem isDigit_digit (d : Nat) (h : d < 10) : isDigit (digit d) = true := by
  have hnat := toNat_digit d h
  have hzero : '0'.toNat = 48 := rfl
  have hlow : '0'.toUInt8.toNat = 48 := rfl
  have hhigh : '9'.toUInt8.toNat = 57 := rfl
  rw [isDigit, decide_eq_true_eq, UInt8.le_iff_toNat_le, UInt8.le_iff_toNat_le]
  omega

/-- Digits written from the most significant one down. -/
theorem value_digits (ds : List Nat) (h : ∀ d ∈ ds, d < 10) :
    value (ds.reverse.map digit) = Nat.ofDigits 10 ds := by
  induction ds with
  | nil => rfl
  | cons d ds ih =>
      have hd := toNat_digit d (h d List.mem_cons_self)
      -- The least significant digit is written last.
      rw [List.reverse_cons, List.map_append, List.map_singleton, value_snoc,
        ih fun d' hd' => h d' (List.mem_cons_of_mem d hd'), Nat.ofDigits_cons, hd]
      push_cast
      omega

theorem value_numeral (n : Nat) : value (numeral n) = n := by
  unfold numeral
  by_cases h : n = 0
  · rw [if_pos h, h]
    rfl
  · rw [if_neg h, value_digits _ fun d hd => Nat.digits_lt_base (by omega) hd,
      Nat.ofDigits_digits]

theorem isDigit_numeral (n : Nat) : ∀ b ∈ numeral n, isDigit b = true := by
  unfold numeral
  by_cases h : n = 0
  · rw [if_pos h]
    exact List.forall_mem_singleton.mpr (isDigit_digit 0 (by omega))
  · rw [if_neg h]
    intro b hb
    rcases List.mem_map.mp hb with ⟨d, hd, rfl⟩
    exact isDigit_digit d (Nat.digits_lt_base (by omega) (List.mem_reverse.mp hd))

theorem numeral_ne_nil (n : Nat) : numeral n ≠ [] := by
  unfold numeral
  by_cases h : n = 0
  · rw [if_pos h]
    exact List.cons_ne_nil _ _
  · rw [if_neg h]
    intro hnil
    rw [List.map_eq_nil_iff, List.reverse_eq_nil_iff, Nat.digits_eq_nil_iff_eq_zero] at hnil
    exact h hnil

end Decimal
