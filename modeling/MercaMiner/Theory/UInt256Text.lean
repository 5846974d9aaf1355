import MercaMiner.Basis.HexNumber
import MercaMiner.Core.Target

/-!
# Text, Bytes and Order of 256-bit Numbers

The three views of a 256-bit number agree: the integer of its stored bytes is
the one its text denotes in base 16, and the comparison walks the bytes in the
order in which the text shows them.

The reader stores the byte of a pair of digits at the far end of what the
earlier pairs left, so after all pairs the buffer holds the bytes of the text
reversed. Everything about reading follows from that and from the facts about
hexadecimal text.

## Theorems

* `fromHexBELoop_eq`: What the digit loop stores.
* `fromHexBE_iff`: Which texts are read, and as what.
* `compareNumeric_eq`: Comparison is the sign of the difference.
* `uint256_text_order`: All of this for every text and all numbers.
-/

namespace MercaMiner

namespace UInt256

/-- The digit table of the reader is the library's. -/
theorem hexDigit_eq (c : UInt8) :
    hexDigit c = match Hex.digit c with
      | some d => (d.toNat : Int)
      | none => -1 := by
  have h0 : '0'.toUInt8.toNat = 48 := rfl
  have ha : 'a'.toUInt8.toNat = 97 := rfl
  have hA : 'A'.toUInt8.toNat = 65 := rfl
  have h10 : (10 : UInt8).toNat = 10 := rfl
  have hzero : '0'.toNat = 48 := rfl
  have hlower : 'a'.toNat = 97 := rfl
  have hupper : 'A'.toNat = 65 := rfl
  have hc := c.toNat_lt
  unfold hexDigit Hex.digit
  simp only [ge_iff_le]
  -- The two tables have the same three ranges.
  split
  next hrange =>
    have hlow := UInt8.le_iff_toNat_le.mp hrange.1
    simp only [UInt8.toNat_sub, h0, hzero] at hlow ⊢
    omega
  split
  next hrange =>
    have hlow := UInt8.le_iff_toNat_le.mp hrange.1
    have hhigh := UInt8.le_iff_toNat_le.mp hrange.2
    have hf : 'f'.toUInt8.toNat = 102 := rfl
    simp only [UInt8.toNat_add, UInt8.toNat_sub, ha, hf, h10, hlower] at hlow hhigh ⊢
    omega
  split
  next hrange =>
    have hlow := UInt8.le_iff_toNat_le.mp hrange.1
    have hhigh := UInt8.le_iff_toNat_le.mp hrange.2
    have hF : 'F'.toUInt8.toNat = 70 := rfl
    simp only [UInt8.toNat_add, UInt8.toNat_sub, hA, hF, h10, hupper] at hlow hhigh ⊢
    omega
  · rfl

/-- The loop fills the buffer downwards from the place of its first pair. -/
theorem fromHexBELoop_eq (hex : Text) (beIndex : Nat) (bytes : Bytes) (k : Nat)
    (hlen : hex.length = 2 * k) (hfits : beIndex + k ≤ size) (hsize : bytes.length = size) :
    fromHexBELoop hex beIndex bytes = (Hex.decode hex).map fun read =>
      bytes.take (size - beIndex - k) ++ (read.reverse ++ bytes.drop (size - beIndex)) := by
  induction hex, beIndex, bytes using fromHexBELoop.induct generalizing k with
  | case1 h l rest beIndex bytes high low hneg =>
      have hnone : Hex.decode (h :: l :: rest) = none := by
        rw [Hex.decode_cons_cons]
        simp only [high, low, hexDigit_eq] at hneg
        cases hh : Hex.digit h with
        | none => rfl
        | some d =>
            cases hl : Hex.digit l with
            | none => rfl
            | some e =>
                simp only [hh, hl] at hneg
                exact absurd hneg (not_or.mpr ⟨not_lt.mpr (Int.natCast_nonneg _),
                  not_lt.mpr (Int.natCast_nonneg _)⟩)
      simp only [fromHexBELoop]
      rw [if_pos hneg, hnone, Option.map_none]
  | case2 h l rest beIndex bytes high low hpos ih =>
      simp only [List.length_cons] at hlen
      simp only [fromHexBELoop]
      rw [if_neg hpos, ih (k - 1) (by omega) (by omega) (by rw [List.length_set, hsize]),
        Hex.decode_cons_cons]
      simp only [high, low, hexDigit_eq] at hpos ⊢
      cases hh : Hex.digit h with
      | none =>
          simp only [hh] at hpos
          omega
      | some d =>
          cases hl : Hex.digit l with
          | none =>
              simp only [hl] at hpos
              omega
          | some e =>
              -- The byte of this pair lies between the free part and the old one.
              have hbyte : UInt8.ofNat ((d.toNat <<< 4) ||| e.toNat) = (d <<< 4) ||| e := by
                have hd := Hex.digit_lt h d hh
                have he := Hex.digit_lt l e hl
                apply UInt8.toNat_inj.mp
                rw [Hex.joined_toNat d e hd he, UInt8.toNat_ofNat',
                  ← Nat.shiftLeft_add_eq_or_of_lt (i := 4) he, Nat.shiftLeft_eq]
                omega
              have hdrop : (bytes.set (size - 1 - beIndex) ((d <<< 4) ||| e)).drop
                  (size - (beIndex + 1)) = ((d <<< 4) ||| e) :: bytes.drop (size - beIndex) := by
                have hlt : size - (beIndex + 1) <
                    (bytes.set (size - 1 - beIndex) ((d <<< 4) ||| e)).length := by
                  rw [List.length_set]
                  omega
                rw [List.drop_eq_getElem_cons hlt, List.drop_set_of_lt (by omega),
                  show size - (beIndex + 1) + 1 = size - beIndex by omega]
                congr 1
                simp only [show size - (beIndex + 1) = size - 1 - beIndex by omega,
                  List.getElem_set_self]
              have htake : (bytes.set (size - 1 - beIndex) ((d <<< 4) ||| e)).take
                  (size - (beIndex + 1) - (k - 1)) = bytes.take (size - beIndex - k) := by
                rw [List.take_set_of_le (by omega),
                  show size - (beIndex + 1) - (k - 1) = size - beIndex - k by omega]
              simp only [Int.toNat_natCast, hbyte, hdrop, htake, Option.bind_some,
                Option.map_map]
              congr 1
              funext read
              simp only [Function.comp_apply, List.reverse_cons, List.append_assoc,
                List.singleton_append]
  | case3 hex beIndex bytes hshort =>
      have hnil : hex = [] := by
        cases hex with
        | nil => rfl
        | cons h tail =>
            cases tail with
            | nil =>
                rw [List.length_singleton] at hlen
                omega
            | cons l rest => exact (hshort h l rest rfl).elim
      have hk : k = 0 := by
        rw [hnil, List.length_nil] at hlen
        omega
      rw [hnil, hk, fromHexBELoop.eq_2 _ _ _ (by simp only [reduceCtorEq, imp_self, implies_true])]
      simp only [Hex.decode, Option.map_some, List.reverse_nil, List.nil_append, Nat.sub_zero,
        List.take_append_drop]

/-- A text is read as the number whose bytes, from the last one on, are the
    bytes of the text. -/
theorem fromHexBE_iff (hex : Text) (x : UInt256) :
    fromHexBE hex = some x ↔ hex.length = 64 ∧ Hex.decode hex = some x.bytes.reverse := by
  unfold fromHexBE
  by_cases hlen : hex.length = size * 2
  · have hloop := fromHexBELoop_eq hex 0 zero.bytes 32 (by rw [hlen]; rfl) (Nat.le_refl _)
      zero.size_eq
    have hempty : zero.bytes.drop size = [] :=
      List.drop_eq_nil_of_le (Nat.le_of_eq zero.size_eq)
    simp only [Nat.sub_zero, size, Nat.sub_self, List.take_zero, List.nil_append] at hloop hempty
    rw [hempty] at hloop
    simp only [List.append_nil] at hloop
    rw [if_neg (not_not.mpr hlen)]
    have h64 : hex.length = 64 := hlen
    split
    · next hnone =>
        rw [hloop, Option.map_eq_none_iff] at hnone
        simp only [reduceCtorEq, hnone, and_false]
    · next bytes hsome =>
        rw [hloop, Option.map_eq_some_iff] at hsome
        rcases hsome with ⟨read, hread, hbytes⟩
        rw [hread, Option.some.injEq, Option.some.injEq]
        constructor
        · intro hx
          refine ⟨h64, ?_⟩
          have hxbytes : bytes = x.bytes := congrArg UInt256.bytes hx
          rw [← hxbytes, ← hbytes, List.reverse_reverse]
        · intro hparts
          rcases hparts with ⟨_, hx⟩
          cases x with
          | mk xbytes hxsize =>
              simp only [mk.injEq]
              rw [← hbytes, hx, List.reverse_reverse]
  · rw [if_pos hlen]
    refine iff_of_false (by simp only [reduceCtorEq, not_false_eq_true]) fun h => hlen h.1

/-- Reading succeeds exactly on 64 digits, and then the bytes denote the
    integer of the text. -/
theorem fromHexBE_number (hex : Text) (x : UInt256) :
    fromHexBE hex = some x ↔
      hex.length = 64 ∧ (∀ c ∈ hex, (Hex.digit c).isSome) ∧ x.value = Hex.number hex := by
  rw [fromHexBE_iff]
  constructor
  · intro hparts
    rcases hparts with ⟨hlen, hread⟩
    have hsome := (Hex.decode_isSome hex).mp (by rw [hread]; rfl)
    refine ⟨hlen, hsome.2, ?_⟩
    rw [Hex.number_decode hex _ hread, List.reverse_reverse]
    rfl
  · intro hparts
    rcases hparts with ⟨hlen, hdigits, hvalue⟩
    have hsome : (Hex.decode hex).isSome := (Hex.decode_isSome hex).mpr ⟨by omega, hdigits⟩
    rcases Option.isSome_iff_exists.mp hsome with ⟨read, hread⟩
    have hsize := Hex.length_decode hex read hread
    -- Equally many bytes denoting the same number are the same bytes.
    have hsame : read.reverse = x.bytes := by
      refine LittleEndian.value_inj _ _ ?_ ?_
      · rw [List.length_reverse, x.size_eq]
        omega
      · rw [← Hex.number_decode hex read hread, ← hvalue]
        rfl
    exact ⟨hlen, by rw [hread, ← hsame, List.reverse_reverse]⟩

theorem fromHexBE_exists (hex : Text) :
    (∃ x, fromHexBE hex = some x) ↔ hex.length = 64 ∧ ∀ c ∈ hex, (Hex.digit c).isSome := by
  constructor
  · intro hparts
    rcases hparts with ⟨x, hx⟩
    rcases (fromHexBE_number hex x).mp hx with ⟨hlen, hdigits, _⟩
    exact ⟨hlen, hdigits⟩
  · intro hparts
    rcases hparts with ⟨hlen, hdigits⟩
    have hsome : (Hex.decode hex).isSome := (Hex.decode_isSome hex).mpr ⟨by omega, hdigits⟩
    rcases Option.isSome_iff_exists.mp hsome with ⟨read, hread⟩
    have hsize := Hex.length_decode hex read hread
    refine ⟨⟨read.reverse, by rw [List.length_reverse]; omega⟩, ?_⟩
    rw [fromHexBE_iff]
    exact ⟨hlen, by rw [hread, List.reverse_reverse]⟩

theorem fromHexBE_toHexBE (x : UInt256) : fromHexBE (toHexBE x) = some x := by
  rw [fromHexBE_iff, toHexBE, Hex.length_encode, List.length_reverse, x.size_eq, Hex.decode_encode]
  exact ⟨rfl, rfl⟩

theorem toHexBE_fromHexBE (hex : Text) (x : UInt256) (h : fromHexBE hex = some x) :
    toHexBE x = hex.map Hex.lower :=
  Hex.encode_decode hex _ ((fromHexBE_iff hex x).mp h).2

/-- The source's comparison returns one of three values. -/
theorem compareFrom_range (as bs : Bytes) :
    compareFrom as bs = -1 ∨ compareFrom as bs = 0 ∨ compareFrom as bs = 1 := by
  induction as generalizing bs with
  | nil => exact Or.inr (Or.inl rfl)
  | cons a as ih =>
      cases bs with
      | nil => exact Or.inr (Or.inl rfl)
      | cons b bs =>
          unfold compareFrom
          by_cases hlt : a < b
          · rw [if_pos hlt]
            exact Or.inl rfl
          by_cases hgt : a > b
          · rw [if_neg hlt, if_pos hgt]
            exact Or.inr (Or.inr rfl)
          · rw [if_neg hlt, if_neg hgt]
            exact ih bs

/-- Comparison is the sign of the difference of the integers. -/
theorem compareNumeric_eq (a b : UInt256) :
    compareNumeric a b = Int.sign ((a.value : Int) - b.value) := by
  rcases compareNumeric_spec a b with ⟨hlt, heq⟩
  have hrange := compareFrom_range a.bytes.reverse b.bytes.reverse
  rw [← compareNumeric] at hrange
  rcases Nat.lt_trichotomy a.value b.value with h | h | h
  · rw [Int.sign_eq_neg_one_of_neg (by omega)]
    omega
  · rw [h, Int.sub_self, Int.sign_zero]
    omega
  · rw [Int.sign_eq_one_of_pos (by omega)]
    omega

theorem eq_iff_value (a b : UInt256) : a = b ↔ a.value = b.value :=
  ⟨fun h => by rw [h], value_inj a b⟩

theorem gt_iff_value (a b : UInt256) : gt a b ↔ b.value < a.value := by
  rcases compareNumeric_spec a b with ⟨hlt, heq⟩
  rw [gt]
  omega

theorem ge_iff_value (a b : UInt256) : ge a b ↔ b.value ≤ a.value := by
  rcases compareNumeric_spec a b with ⟨hlt, heq⟩
  rw [ge]
  omega

/-- The texts of two numbers are in alphabetical order when the numbers are in
    theirs. -/
theorem toHexBE_lt_iff (a b : UInt256) : toHexBE a < toHexBE b ↔ a.value < b.value := by
  have h := Hex.encode_lt_iff a.bytes.reverse b.bytes.reverse
    (by rw [List.length_reverse, List.length_reverse, a.size_eq, b.size_eq])
  simp only [List.reverse_reverse] at h
  exact h

end UInt256

open UInt256

/-- The text, the bytes and the order of a 256-bit number all denote its
    integer. Reading succeeds exactly on 64 digits and gives their base-16
    value, writing and reading are inverse up to case, and the comparisons are
    one total order, which is also the order of the texts and the one the
    proof-of-work test uses. -/
theorem uint256_text_order :
    (∀ hex, (∃ x, fromHexBE hex = some x) ↔
      hex.length = 64 ∧ ∀ c ∈ hex, (Hex.digit c).isSome) ∧
    (∀ hex x, fromHexBE hex = some x → x.value = Hex.number hex) ∧
    (∀ x, fromHexBE (toHexBE x) = some x) ∧
    (∀ hex x, fromHexBE hex = some x → toHexBE x = hex.map Hex.lower) ∧
    (∀ a b, compareNumeric a b = Int.sign ((a.value : Int) - b.value)) ∧
    (∀ a b c : UInt256, a ≤ a ∧ (a ≤ b → b ≤ c → a ≤ c) ∧ (a ≤ b → b ≤ a → a = b) ∧
      (a ≤ b ∨ b ≤ a)) ∧
    (∀ a b : UInt256, (a < b ↔ a ≤ b ∧ a ≠ b) ∧ (gt a b ↔ b < a) ∧ (ge a b ↔ b ≤ a) ∧
      (a = b ↔ compareNumeric a b = 0)) ∧
    (∀ a b : UInt256, (a < b ↔ toHexBE a < toHexBE b) ∧ (a = b ↔ toHexBE a = toHexBE b)) ∧
    ∀ hash target, meetsTarget hash target = true ↔ hash.value ≤ target.value := by
  refine ⟨fromHexBE_exists, fun hex x h => ((fromHexBE_number hex x).mp h).2.2, fromHexBE_toHexBE,
    toHexBE_fromHexBE, compareNumeric_eq, fun a b c => ?_, fun a b => ?_, fun a b => ⟨?_, ?_⟩,
    fun hash target => ?_⟩
  · rw [le_iff_value, le_iff_value, le_iff_value, le_iff_value, le_iff_value, eq_iff_value]
    omega
  · rw [lt_iff_value, lt_iff_value, le_iff_value, le_iff_value, gt_iff_value, ge_iff_value, ne_eq,
      eq_iff_value, (compareNumeric_spec a b).2]
    omega
  · rw [lt_iff_value, toHexBE_lt_iff]
  · -- Equal texts are read as one number.
    refine ⟨fun h => by rw [h], fun h => ?_⟩
    have hread := fromHexBE_toHexBE a
    rw [h, fromHexBE_toHexBE b, Option.some.injEq] at hread
    exact hread.symm
  · rw [meetsTarget, decide_eq_true_eq, le_iff_value]

end MercaMiner
