import Mathlib.Data.List.Induction

/-!
# Hexadecimal Text

Reading pairs of hexadecimal digits as bytes. Text is a list of bytes, the way
a program without a notion of encoding sees it.

Digits of either case are read, so reading commutes with lowering the case,
and `decode_isSome` says exactly which texts are readable: those of even
length with only digits in them.

## Main definitions

* `digit`: The value of one digit, if it is one.
* `decode`: The bytes a text denotes.
* `encode`: The lower-case text of a byte string.
* `lower`: Lower-case one character.

## Theorems

* `length_decode`: A readable text is twice as long as its bytes.
* `decode_isSome`: Which texts are readable.
* `decode_lower`: Case does not matter to reading.
* `decode_append`: A text read in two parts.
-/

namespace Hex

/-- The value of one hexadecimal digit of either case. -/
def digit (c : UInt8) : Option UInt8 :=
  if '0'.toUInt8 ≤ c ∧ c ≤ '9'.toUInt8 then some (c - '0'.toUInt8)
  else if 'a'.toUInt8 ≤ c ∧ c ≤ 'f'.toUInt8 then some (c - 'a'.toUInt8 + 10)
  else if 'A'.toUInt8 ≤ c ∧ c ≤ 'F'.toUInt8 then some (c - 'A'.toUInt8 + 10)
  else none

/-- The bytes a text denotes, two digits to a byte, the first more
    significant. -/
def decode : List UInt8 → Option (List UInt8)
  | [] => some []
  | [_] => none
  | h :: l :: rest => do
      let high ← digit h
      let low ← digit l
      let tail ← decode rest
      return ((high <<< 4) ||| low) :: tail

def digits : List UInt8 :=
  "0123456789abcdef".toList.map Char.toUInt8

/-- The lower-case text of a byte string. -/
def encode : List UInt8 → List UInt8
  | [] => []
  | b :: rest =>
      digits.getD (b >>> 4).toNat 0 :: digits.getD (b &&& 0x0f).toNat 0 :: encode rest

/-- Lower-case one character, leaving everything that is not an upper-case
    letter alone. -/
def lower (c : UInt8) : UInt8 :=
  if 'A'.toUInt8 ≤ c ∧ c ≤ 'Z'.toUInt8 then c + 32 else c

/-- The three ranges of digits, as numbers. -/
theorem digit_eq_some (c d : UInt8) :
    digit c = some d ↔
      (48 ≤ c.toNat ∧ c.toNat ≤ 57 ∧ d.toNat = c.toNat - 48) ∨
      (97 ≤ c.toNat ∧ c.toNat ≤ 102 ∧ d.toNat = c.toNat - 87) ∨
      (65 ≤ c.toNat ∧ c.toNat ≤ 70 ∧ d.toNat = c.toNat - 55) := by
  have h0 : '0'.toUInt8.toNat = 48 := rfl
  have h9 : '9'.toUInt8.toNat = 57 := rfl
  have ha : 'a'.toUInt8.toNat = 97 := rfl
  have hf : 'f'.toUInt8.toNat = 102 := rfl
  have hA : 'A'.toUInt8.toNat = 65 := rfl
  have hF : 'F'.toUInt8.toNat = 70 := rfl
  have h10 : (10 : UInt8).toNat = 10 := rfl
  have hc := c.toNat_lt
  have hd := d.toNat_lt
  unfold digit
  simp only [UInt8.le_iff_toNat_le, h0, h9, ha, hf, hA, hF]
  split
  · simp only [Option.some.injEq, ← UInt8.toNat_inj, UInt8.toNat_sub, h0]
    omega
  split
  · simp only [Option.some.injEq, ← UInt8.toNat_inj, UInt8.toNat_sub, UInt8.toNat_add, ha, h10]
    omega
  split
  · simp only [Option.some.injEq, ← UInt8.toNat_inj, UInt8.toNat_sub, UInt8.toNat_add, hA, h10]
    omega
  · simp only [reduceCtorEq, false_iff]
    omega

theorem lower_toNat (c : UInt8) :
    (lower c).toNat = if 65 ≤ c.toNat ∧ c.toNat ≤ 90 then c.toNat + 32 else c.toNat := by
  have hA : 'A'.toUInt8.toNat = 65 := rfl
  have hZ : 'Z'.toUInt8.toNat = 90 := rfl
  have h32 : (32 : UInt8).toNat = 32 := rfl
  unfold lower
  simp only [UInt8.le_iff_toNat_le, hA, hZ]
  split
  · rw [UInt8.toNat_add, h32]
    omega
  · rfl

theorem digit_lower (c : UInt8) : digit (lower c) = digit c := by
  have hlower := lower_toNat c
  ext d
  simp only [digit_eq_some, hlower]
  split <;> omega

theorem decode_nil : decode [] = some [] :=
  rfl

theorem decode_singleton (c : UInt8) : decode [c] = none :=
  rfl

theorem decode_cons_cons (h l : UInt8) (rest : List UInt8) :
    decode (h :: l :: rest) = (digit h).bind fun high => (digit l).bind fun low =>
      (decode rest).map fun tail => ((high <<< 4) ||| low) :: tail := by
  change ((digit h).bind fun high => (digit l).bind fun low => (decode rest).bind fun tail =>
    some (((high <<< 4) ||| low) :: tail)) = _
  cases digit h with
  | none => rfl
  | some high =>
      cases digit l with
      | none => rfl
      | some low => cases decode rest <;> rfl

theorem encode_cons (b : UInt8) (rest : List UInt8) :
    encode (b :: rest) =
      digits.getD (b >>> 4).toNat 0 :: digits.getD (b &&& 0x0f).toNat 0 :: encode rest :=
  rfl

/-- What reading a pair of digits and the text behind it has read. -/
theorem decode_cons_cons_eq_some (h l : UInt8) (rest b : List UInt8)
    (hb : decode (h :: l :: rest) = some b) :
    ∃ high low tail, digit h = some high ∧ digit l = some low ∧ decode rest = some tail ∧
      b = ((high <<< 4) ||| low) :: tail := by
  rw [decode_cons_cons] at hb
  simp only [Option.bind_eq_some_iff, Option.map_eq_some_iff] at hb
  rcases hb with ⟨high, hhigh, low, hlow, tail, htail, rfl⟩
  exact ⟨high, low, tail, hhigh, hlow, htail, rfl⟩

theorem length_decode (s : List UInt8) : ∀ b, decode s = some b → s.length = 2 * b.length := by
  induction s using List.twoStepInduction with
  | nil =>
      intro b h
      simp only [decode_nil, Option.some.injEq] at h
      rw [← h]
      rfl
  | singleton c =>
      intro b h
      simp only [decode_singleton, reduceCtorEq] at h
  | cons_cons h l rest ih _ =>
      intro b hb
      rcases decode_cons_cons_eq_some h l rest b hb with ⟨_, _, tail, _, _, htail, rfl⟩
      simp only [List.length_cons, ih tail htail]
      omega

/-- A text is readable exactly when it has even length and only digits. -/
theorem decode_isSome (s : List UInt8) :
    (decode s).isSome ↔ s.length % 2 = 0 ∧ ∀ c ∈ s, (digit c).isSome := by
  induction s using List.twoStepInduction with
  | nil => simp only [decode_nil, Option.isSome_some, List.length_nil, List.not_mem_nil,
      false_imp_iff, implies_true, and_self]
  | singleton c => simp only [decode_singleton, Option.isSome_none, List.length_singleton,
      Nat.reduceMod, Nat.one_ne_zero, false_and, reduceCtorEq]
  | cons_cons h l rest ih _ =>
      rw [decode_cons_cons]
      cases hh : digit h with
      | none => simp [hh]
      | some high =>
          cases hl : digit l with
          | none => simp [hl]
          | some low =>
              have hlen : (h :: l :: rest).length % 2 = rest.length % 2 := by
                simp only [List.length_cons]
                omega
              simp only [Option.bind_some, Option.isSome_map, ih, hlen, List.forall_mem_cons, hh,
                hl, Option.isSome_some, true_and]

theorem decode_lower (s : List UInt8) : decode (s.map lower) = decode s := by
  induction s using List.twoStepInduction with
  | nil => rfl
  | singleton c => rfl
  | cons_cons h l rest ih _ =>
      simp only [List.map_cons]
      rw [decode_cons_cons, decode_cons_cons, ih, digit_lower, digit_lower]

/-- A text of even length followed by another is read part by part. -/
theorem decode_append (s t : List UInt8) (heven : s.length % 2 = 0) :
    decode (s ++ t) = (decode s).bind fun a => (decode t).map fun b => a ++ b := by
  induction s using List.twoStepInduction with
  | nil => simp only [List.nil_append, decode_nil, Option.bind_some, Option.map_id']
  | singleton c => simp only [List.length_singleton, Nat.reduceMod, Nat.one_ne_zero] at heven
  | cons_cons h l rest ih _ =>
      have hrest : rest.length % 2 = 0 := by
        simp only [List.length_cons] at heven
        omega
      simp only [List.cons_append]
      rw [decode_cons_cons, decode_cons_cons, ih hrest]
      cases digit h with
      | none => rfl
      | some high =>
          cases digit l with
          | none => rfl
          | some low =>
              cases decode rest with
              | none => rfl
              | some a => cases decode t <;> rfl

end Hex
