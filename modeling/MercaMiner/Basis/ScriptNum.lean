import MercaMiner.Basis.Wire
import Mathlib.Data.Nat.Digits.Lemmas

/-!
# Script Numbers

The minimal little-endian numbers of the Bitcoin scripting language, and the
pushes that put one on the stack.

The top bit of the last byte is a sign, so a number whose base-256 digits end
in a byte of 128 or more gets a zero byte after them. A push of a small
positive number is a single opcode; any other is a length byte and the number.

## Main definitions

* `encode`: The minimal bytes of a number.
* `value`: The number any bytes denote, minimal or not.
* `read`: Reading a non-negative number, refusing one that is not minimal.
* `push`: The push of a number.
* `pushReader`: Reading a push.

## Theorems

* `read_encode`: A number is read back.
* `value_encode`, `encode_minimal`: Its bytes denote it, and no fewer do.
* `push_decodes`: A push is read back, whatever follows.
-/

namespace ScriptNum

/-- The base-256 digits as bytes. -/
def digits (n : Nat) : List UInt8 :=
  (Nat.digits 256 n).map UInt8.ofNat

def encode (n : Nat) : List UInt8 :=
  match (digits n).getLast? with
  | some back => if 128 ≤ back.toNat then digits n ++ [0] else digits n
  | none => digits n

/-- Read a non-negative number. A last byte of zero is only minimal when the
    byte before it would otherwise be a sign. -/
def read (b : List UInt8) : Option Nat :=
  match b.getLast? with
  | none => some 0
  | some top =>
      if 128 ≤ top.toNat then none
      else if top = 0 ∧ b.dropLast.getLast?.all fun next => next.toNat < 128 then none
      else some (LittleEndian.value b)

/-- The number a byte string denotes: the top bit of the last byte is the sign,
    the others are the magnitude. -/
def value (b : List UInt8) : Int :=
  match b.getLast? with
  | none => 0
  | some top =>
      if 128 ≤ top.toNat then -(LittleEndian.value (b.dropLast ++ [top - 128]) : Int)
      else (LittleEndian.value b : Int)

/-- The push of a positive number. -/
def push (n : Nat) : List UInt8 :=
  if n ≤ 16 then [UInt8.ofNat (0x50 + n)]
  else UInt8.ofNat (encode n).length :: encode n

open Wire Wire.Reader in
/-- Read a push: an opcode for one to sixteen, or a length of at most 75 with
    that many bytes. -/
def pushReader : Reader Nat :=
  andThen (number 1) fun op =>
    if 0x51 ≤ op ∧ op ≤ 0x60 then ret (op - 0x50)
    else if 1 ≤ op ∧ op ≤ 75 then andThen (take op) fun b => match read b with
      | some n => ret n
      | none => fail
    else fail

theorem value_digits (n : Nat) : LittleEndian.value (digits n) = n := by
  have hid : ∀ d ∈ Nat.digits 256 n, (UInt8.toNat ∘ UInt8.ofNat) d = id d := by
    intro d hd
    have hlt : d < 256 := Nat.digits_lt_base (by omega) hd
    rw [Function.comp_apply, UInt8.toNat_ofNat', Nat.mod_eq_of_lt hlt]
    rfl
  rw [LittleEndian.value, digits, List.map_map, List.map_congr_left hid, List.map_id,
    Nat.ofDigits_digits]

theorem digits_zero : digits 0 = [] := rfl

/-- The last digit of a positive number is not zero. -/
theorem getLast?_digits (n : Nat) (h : n ≠ 0) :
    ∃ back, (digits n).getLast? = some back ∧ back ≠ 0 := by
  have hne := Nat.digits_ne_nil_iff_ne_zero (b := 256).mpr h
  have hlast := Nat.getLast_digit_ne_zero 256 h
  refine ⟨UInt8.ofNat ((Nat.digits 256 n).getLast hne), ?_, fun hz => hlast ?_⟩
  · rw [digits, List.getLast?_map, List.getLast?_eq_some_getLast hne, Option.map_some]
  · have hlt : (Nat.digits 256 n).getLast hne < 256 :=
      Nat.digits_lt_base (by omega) (List.getLast_mem hne)
    have hnat := congrArg UInt8.toNat hz
    rw [UInt8.toNat_ofNat', Nat.mod_eq_of_lt hlt] at hnat
    exact hnat

theorem length_digits_le (n k : Nat) (h : n < 256 ^ k) : (digits n).length ≤ k := by
  rw [digits, List.length_map]
  exact (Nat.digits_length_le_iff (by omega) n).mpr h

theorem length_encode (n : Nat) : (encode n).length ≤ (digits n).length + 1 := by
  rw [encode]
  cases (digits n).getLast? with
  | none => exact Nat.le_succ _
  | some back =>
      by_cases hsign : 128 ≤ back.toNat
      · simp only [if_pos hsign, List.length_append, List.length_singleton, le_refl]
      · simp only [if_neg hsign]
        exact Nat.le_succ _

/-- A number is read back from its minimal bytes. -/
theorem read_encode (n : Nat) : read (encode n) = some n := by
  by_cases hz : n = 0
  · rw [hz]
    rfl
  rcases getLast?_digits n hz with ⟨back, hback, hne⟩
  rw [encode, hback]
  by_cases hsign : 128 ≤ back.toNat
  · -- The zero byte is needed, because the digit before it would be a sign.
    have hneeded : ¬(digits n ++ [0]).dropLast.getLast?.all fun next : UInt8 =>
        next.toNat < 128 := by
      rw [List.dropLast_concat, hback, Option.all_some, decide_eq_true_eq]
      omega
    have hpositive : ¬128 ≤ (0 : UInt8).toNat := by decide
    have hvalue : LittleEndian.value (digits n ++ [0]) = n := by
      rw [LittleEndian.value_append, value_digits]
      rfl
    simp only [if_pos hsign, read, List.getLast?_concat, true_and]
    rw [if_neg hpositive, if_neg hneeded, hvalue]
  · -- The last digit is not zero, so it is not superfluous.
    have hminimal : ¬(back = 0 ∧ (digits n).dropLast.getLast?.all fun next : UInt8 =>
        next.toNat < 128) :=
      fun h => hne h.1
    simp only [if_neg hsign, read, hback, if_neg hminimal, value_digits]

/-- The last byte of an encoding is not a sign. -/
theorem encode_top (n : Nat) (top : UInt8) (h : (encode n).getLast? = some top) :
    top.toNat < 128 := by
  unfold encode at h
  cases hback : (digits n).getLast? with
  | none =>
      simp only [hback, reduceCtorEq] at h
  | some back =>
      simp only [hback] at h
      by_cases hsign : 128 ≤ back.toNat
      · rw [if_pos hsign, List.getLast?_concat, Option.some.injEq] at h
        rw [← h]
        decide
      · rw [if_neg hsign, hback, Option.some.injEq] at h
        rw [← h]
        exact Nat.lt_of_not_le hsign

theorem value_encode (n : Nat) : value (encode n) = n := by
  have hbytes : LittleEndian.value (encode n) = n := by
    unfold encode
    cases (digits n).getLast? with
    | none => exact value_digits n
    | some back =>
        by_cases hsign : 128 ≤ back.toNat
        · simp only [if_pos hsign]
          rw [LittleEndian.value_append, value_digits]
          rfl
        · simp only [if_neg hsign, value_digits]
  unfold value
  cases htop : (encode n).getLast? with
  | none =>
      rw [List.getLast?_eq_none_iff.mp htop] at hbytes
      rw [← hbytes]
      rfl
  | some top =>
      have hlt := encode_top n top htop
      simp only [if_neg (Nat.not_le.mpr hlt), hbytes]

/-- No byte string with the same value is shorter. -/
theorem encode_minimal (n : Nat) (b : List UInt8) (h : value b = n) :
    (encode n).length ≤ b.length := by
  by_cases hz : n = 0
  · rw [hz]
    exact Nat.zero_le _
  rcases List.eq_nil_or_concat b with rfl | ⟨init, top, rfl⟩
  · rw [value, List.getLast?_nil] at h
    exact absurd (Int.ofNat.inj h).symm hz
  rw [List.concat_eq_append] at h ⊢
  rw [value, List.getLast?_concat] at h
  by_cases hsign : 128 ≤ top.toNat
  · -- A byte string with the sign set denotes no positive number.
    simp only [if_pos hsign] at h
    omega
  simp only [if_neg hsign] at h
  have hn : LittleEndian.value (init ++ [top]) = n := Int.ofNat.inj h
  have hinit := LittleEndian.value_lt init
  have hbound : n < 256 ^ init.length * 128 := by
    rw [← hn, LittleEndian.value_append]
    simp only [LittleEndian.value_cons, LittleEndian.value_nil, Nat.mul_zero, Nat.add_zero]
    calc LittleEndian.value init + 256 ^ init.length * top.toNat
        < 256 ^ init.length + 256 ^ init.length * top.toNat := by omega
      _ = 256 ^ init.length * (top.toNat + 1) := by ring
      _ ≤ 256 ^ init.length * 128 := Nat.mul_le_mul_left _ (by omega)
  have hdigits : (digits n).length ≤ (init ++ [top]).length := by
    refine length_digits_le n _ ?_
    rw [← hn]
    exact LittleEndian.value_lt _
  rcases getLast?_digits n hz with ⟨back, hback, _⟩
  unfold encode
  simp only [hback]
  by_cases hextra : 128 ≤ back.toNat
  · -- The digits alone are already shorter, since their last one is too large.
    rw [if_pos hextra, List.length_append, List.length_append, List.length_singleton,
      List.length_singleton]
    rcases List.getLast?_eq_some_iff.mp hback with ⟨front, hfront⟩
    have hlarge : 256 ^ front.length * 128 ≤ n := by
      calc 256 ^ front.length * 128
          ≤ 256 ^ front.length * back.toNat := Nat.mul_le_mul_left _ hextra
        _ ≤ LittleEndian.value (front ++ [back]) := by
            rw [LittleEndian.value_append]
            simp only [LittleEndian.value_cons, LittleEndian.value_nil, Nat.mul_zero,
              Nat.add_zero]
            exact Nat.le_add_left _ _
        _ = n := by rw [← hfront, value_digits]
    have hpow : 256 ^ front.length < 256 ^ init.length := by omega
    have hlt : front.length < init.length := (Nat.pow_lt_pow_iff_right (by omega)).mp hpow
    rw [hfront, List.length_append, List.length_singleton]
    omega
  · rw [if_neg hextra]
    exact hdigits

theorem length_encode_pos (n : Nat) (h : 0 < n) : 1 ≤ (encode n).length := by
  rcases Nat.eq_zero_or_pos (encode n).length with hzero | hpos
  · have hread := read_encode n
    rw [List.length_eq_zero_iff.mp hzero] at hread
    have hn : (0 : Nat) = n := Option.some.inj hread
    omega
  · exact hpos

/-- A push takes between one byte and two more than the digits. -/
theorem length_push (n k : Nat) (h : n < 256 ^ k) :
    1 ≤ (push n).length ∧ (push n).length ≤ k + 2 := by
  rw [push]
  by_cases hsmall : n ≤ 16
  · rw [if_pos hsmall, List.length_singleton]
    omega
  · have h1 := length_encode n
    have h2 := length_digits_le n k h
    rw [if_neg hsmall, List.length_cons]
    omega

open Wire Wire.Reader in
/-- A push is read back, whatever follows it. -/
theorem push_decodes (n : Nat) (hpos : 0 < n) (hlt : n < 256 ^ 74) :
    Decodes pushReader (push n) n := by
  have htag (tag : Nat) (hlt : tag < 256) (tail : List UInt8) (r : Nat → Reader Nat)
      (htail : Decodes (r tag) tail n) :
      Decodes (andThen (number 1) r) (UInt8.ofNat tag :: tail) n := by
    have hone := decodes_andThen (number 1) r _ tail tag n (number_decodes 1 tag hlt) htail
    simpa only [LittleEndian.bytes, List.singleton_append] using hone
  rw [push, pushReader]
  by_cases hsmall : n ≤ 16
  · rw [if_pos hsmall]
    refine htag (0x50 + n) (by omega) [] _ ?_
    rw [if_pos (by omega), Nat.add_sub_cancel_left]
    exact decodes_ret n
  · -- Short enough for its length to be the opcode.
    have hlen : (encode n).length ≤ 75 := by
      have h1 := length_encode n
      have h2 := length_digits_le n 74 hlt
      omega
    have hne := length_encode_pos n hpos
    rw [if_neg hsmall]
    refine htag (encode n).length (by omega) (encode n) _ ?_
    rw [if_neg (by omega), if_pos ⟨hne, hlen⟩]
    have htake := decodes_andThen (take (encode n).length)
      (fun b => match read b with | some n => ret n | none => fail) (encode n) [] (encode n) n
      (take_decodes (encode n)) (by rw [read_encode]; exact decodes_ret n)
    rw [List.append_nil] at htake
    exact htake

end ScriptNum
