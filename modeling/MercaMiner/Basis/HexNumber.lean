import Mathlib.Data.List.Basic
import MercaMiner.Basis.Hex
import MercaMiner.Basis.LittleEndian

/-!
# The Number a Hexadecimal Text Denotes

The base-16 value of a text, its first digit the most significant, and its
agreement with the bytes the text reads as.

The bytes of a text are in the same order as its digits, so the number is the
one a little-endian reader finds in the reversed bytes. Writing and reading
are inverse up to the case of the letters, and since the digits are in
alphabetical order, texts of one length are ordered as the numbers are.

## Main definitions

* `number`: The base-16 value of a text.

## Theorems

* `number_decode`: The bytes of a text denote its number.
* `decode_encode`: Written bytes are read back.
* `encode_decode`: What was read is written back in lower case.
* `encode_lt_iff`: Texts of one length are ordered as their numbers.
-/

namespace Hex

def digitValue (c : UInt8) : Nat :=
  ((digit c).getD 0).toNat

/-- The base-16 value of a text. What is not a digit counts as zero. -/
def number (s : List UInt8) : Nat :=
  s.foldl (fun n c => 16 * n + digitValue c) 0

theorem foldl_digits (s : List UInt8) (n : Nat) :
    s.foldl (fun n c => 16 * n + digitValue c) n = 16 ^ s.length * n + number s := by
  induction s generalizing n with
  | nil => simp only [List.foldl_nil, number, List.length_nil, pow_zero, one_mul, add_zero]
  | cons c s ih =>
      simp only [number, List.foldl_cons, List.length_cons]
      rw [ih, ih (16 * 0 + digitValue c)]
      ring

theorem number_cons (c : UInt8) (s : List UInt8) :
    number (c :: s) = 16 ^ s.length * digitValue c + number s := by
  rw [number, List.foldl_cons, foldl_digits, Nat.mul_zero, Nat.zero_add]

theorem digits_eq :
    digits = [48, 49, 50, 51, 52, 53, 54, 55, 56, 57, 97, 98, 99, 100, 101, 102] :=
  rfl

theorem digits_toNat (n : Nat) (h : n < 16) :
    (digits.getD n 0).toNat = if n < 10 then 48 + n else 87 + n := by
  have htable : ∀ n : Fin 16,
      (digits.getD n.val 0).toNat = if n.val < 10 then 48 + n.val else 87 + n.val := by
    rw [digits_eq]
    decide
  exact htable ⟨n, h⟩

/-- The value of a digit fits four bits, and the digit written for it is the
    lower-case one. -/
theorem digit_facts (c d : UInt8) (h : digit c = some d) :
    d.toNat < 16 ∧ digits.getD d.toNat 0 = lower c := by
  have hranges := (digit_eq_some c d).mp h
  have hlt : d.toNat < 16 := by omega
  refine ⟨hlt, UInt8.toNat_inj.mp ?_⟩
  rw [digits_toNat _ hlt, lower_toNat]
  split <;> split <;> omega

/-- The digit written for a value is read as that value. -/
theorem digit_getD (d : UInt8) (h : d.toNat < 16) : digit (digits.getD d.toNat 0) = some d := by
  rw [digit_eq_some, digits_toNat _ h]
  split <;> omega

theorem digit_lt (c d : UInt8) (h : digit c = some d) : d.toNat < 16 :=
  (digit_facts c d h).1

theorem joined_toNat (high low : UInt8) (hhigh : high.toNat < 16) (hlow : low.toNat < 16) :
    ((high <<< 4) ||| low).toNat = 16 * high.toNat + low.toNat := by
  have hshift : (high <<< 4).toNat = high.toNat <<< 4 := by
    have h4 : (4 : UInt8).toNat % 8 = 4 := rfl
    rw [UInt8.toNat_shiftLeft, h4, Nat.shiftLeft_eq]
    exact Nat.mod_eq_of_lt (by omega)
  -- The shifted digit has no bit in common with the other one.
  rw [UInt8.toNat_or, hshift, ← Nat.shiftLeft_add_eq_or_of_lt (i := 4) hlow, Nat.shiftLeft_eq]
  omega

/-- The bytes of a text denote its number, the first byte being the most
    significant. -/
theorem number_decode (s : List UInt8) :
    ∀ b, decode s = some b → number s = LittleEndian.value b.reverse := by
  induction s using List.twoStepInduction with
  | nil =>
      intro b h
      simp only [decode_nil, Option.some.injEq] at h
      rw [← h]
      rfl
  | singleton c =>
      intro b h
      simp only [decode_singleton, reduceCtorEq] at h
  | cons_cons h l rest ih _ =>
      intro b hb
      rcases decode_cons_cons_eq_some h l rest b hb with
        ⟨high, low, tail, hhigh, hlow, htail, rfl⟩
      have hjoined := joined_toNat high low (digit_lt h high hhigh) (digit_lt l low hlow)
      have hlen : rest.length = 2 * tail.length := length_decode rest tail htail
      have hpow : (16 : Nat) ^ rest.length = 256 ^ tail.length := by
        rw [hlen, Nat.pow_mul]
      rw [number_cons, number_cons, ih tail htail, List.reverse_cons, LittleEndian.value_append,
        List.length_reverse, LittleEndian.value_cons, LittleEndian.value_nil, hjoined,
        List.length_cons, Nat.pow_succ, hpow, digitValue, digitValue, hhigh, hlow]
      simp only [Option.getD_some]
      ring

theorem length_encode (b : List UInt8) : (encode b).length = 2 * b.length := by
  induction b with
  | nil => rfl
  | cons x b ih =>
      simp only [encode_cons, List.length_cons, ih]
      omega

theorem encode_append (a b : List UInt8) : encode (a ++ b) = encode a ++ encode b := by
  induction a with
  | nil => rfl
  | cons x a ih => simp only [List.cons_append, encode_cons, ih]

theorem high_toNat (b : UInt8) : (b >>> 4).toNat = b.toNat / 16 := by
  rw [UInt8.toNat_shiftRight, Nat.shiftRight_eq_div_pow]
  rfl

theorem low_toNat (b : UInt8) : (b &&& 0x0f).toNat = b.toNat % 16 := by
  rw [UInt8.toNat_and]
  exact Nat.and_two_pow_sub_one_eq_mod b.toNat 4

/-- The two digits of a byte are read back. -/
theorem digit_digits (b : UInt8) :
    digit (digits.getD (b >>> 4).toNat 0) = some (b >>> 4) ∧
    digit (digits.getD (b &&& 0x0f).toNat 0) = some (b &&& 0x0f) ∧
    ((b >>> 4) <<< 4) ||| (b &&& 0x0f) = b := by
  have hb := b.toNat_lt
  have hhigh : (b >>> 4).toNat < 16 := by
    rw [high_toNat]
    omega
  have hlow : (b &&& 0x0f).toNat < 16 := by
    rw [low_toNat]
    omega
  refine ⟨digit_getD _ hhigh, digit_getD _ hlow, UInt8.toNat_inj.mp ?_⟩
  rw [joined_toNat _ _ hhigh hlow, high_toNat, low_toNat]
  omega

theorem decode_encode (b : List UInt8) : decode (encode b) = some b := by
  induction b with
  | nil => rfl
  | cons x b ih =>
      rcases digit_digits x with ⟨hhigh, hlow, hjoin⟩
      rw [encode_cons, decode_cons_cons, hhigh, hlow, ih, Option.bind_some, Option.bind_some,
        Option.map_some, hjoin]

/-- What was read is written back in lower case. -/
theorem encode_decode (s : List UInt8) : ∀ b, decode s = some b → encode b = s.map lower := by
  induction s using List.twoStepInduction with
  | nil =>
      intro b h
      simp only [decode_nil, Option.some.injEq] at h
      rw [← h]
      rfl
  | singleton c =>
      intro b h
      simp only [decode_singleton, reduceCtorEq] at h
  | cons_cons h l rest ih _ =>
      intro b hb
      rcases decode_cons_cons_eq_some h l rest b hb with
        ⟨high, low, tail, hhigh, hlow, htail, rfl⟩
      have hjoined := joined_toNat high low (digit_lt h high hhigh) (digit_lt l low hlow)
      have hlt := digit_lt l low hlow
      -- Shifting and masking take the joined byte apart again.
      have htop : (((high <<< 4) ||| low) >>> 4).toNat = high.toNat := by
        rw [UInt8.toNat_shiftRight, hjoined, Nat.shiftRight_eq_div_pow]
        have h4 : (4 : UInt8).toNat % 8 = 4 := rfl
        rw [h4]
        omega
      have hbottom : (((high <<< 4) ||| low) &&& 0x0f).toNat = low.toNat := by
        rw [UInt8.toNat_and, hjoined]
        have hmask := Nat.and_two_pow_sub_one_eq_mod (16 * high.toNat + low.toNat) 4
        have h15 : (0x0f : UInt8).toNat = 2 ^ 4 - 1 := rfl
        rw [h15, hmask]
        omega
      rw [encode_cons, htop, hbottom, (digit_facts h high hhigh).2,
        (digit_facts l low hlow).2, ih tail htail, List.map_cons, List.map_cons]

/-- The sixteen digits stand in alphabetical order. -/
theorem digits_order (n m : Nat) (hn : n < 16) (hm : m < 16) :
    (digits.getD n 0 < digits.getD m 0 ↔ n < m) ∧
    (digits.getD n 0 = digits.getD m 0 ↔ n = m) := by
  rw [UInt8.lt_iff_toNat_lt, ← UInt8.toNat_inj, digits_toNat n hn, digits_toNat m hm]
  split <;> split <;> omega

/-- Texts written for byte strings of one length are ordered as the numbers
    these denote, most significant byte first. -/
theorem encode_lt_iff (a b : List UInt8) (hlen : a.length = b.length) :
    encode a < encode b ↔ LittleEndian.value a.reverse < LittleEndian.value b.reverse := by
  induction a generalizing b with
  | nil =>
      have hb : b = [] := List.length_eq_zero_iff.mp hlen.symm
      rw [hb]
      exact iff_of_false (List.lt_irrefl _) (Nat.lt_irrefl _)
  | cons x a ih =>
      cases b with
      | nil => exact absurd hlen (by simp only [List.length_cons, List.length_nil,
          Nat.add_eq_zero_iff, Nat.one_ne_zero, and_false, not_false_eq_true])
      | cons y b =>
          have htail : a.length = b.length := by
            simpa only [List.length_cons, Nat.add_right_cancel_iff] using hlen
          have hx := x.toNat_lt
          have hy := y.toNat_lt
          have hhigh := digits_order (x.toNat / 16) (y.toNat / 16) (by omega) (by omega)
          have hlow := digits_order (x.toNat % 16) (y.toNat % 16) (by omega) (by omega)
          have hrev : a.reverse.length = b.reverse.length := by
            simp only [List.length_reverse, htail]
          rw [encode_cons, encode_cons, List.cons_lt_cons_iff, List.cons_lt_cons_iff, ih b htail]
          simp only [high_toNat, low_toNat]
          rw [hhigh.1, hhigh.2, hlow.1, hlow.2, List.reverse_cons, List.reverse_cons]
          -- Two digits decide as their byte does, and a lower byte never outweighs it.
          rcases Nat.lt_trichotomy x.toNat y.toNat with hxy | hxy | hxy
          · have hv := LittleEndian.value_lt_of_last a.reverse b.reverse x y hrev
              (UInt8.lt_iff_toNat_lt.mpr hxy)
            omega
          · rw [LittleEndian.value_append, LittleEndian.value_append, LittleEndian.value_cons,
              LittleEndian.value_cons, hxy, hrev]
            omega
          · have hv := LittleEndian.value_lt_of_last b.reverse a.reverse y x hrev.symm
              (UInt8.lt_iff_toNat_lt.mpr hxy)
            omega

end Hex
