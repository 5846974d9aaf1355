import Mathlib.Data.Nat.Digits.Defs
import Mathlib.Tactic.Ring

/-!
# Little-Endian Byte Strings

The number a byte string denotes when its first byte is the least significant
one, and the fixed-width byte string of a number.

`value` is Mathlib's `Nat.ofDigits` in base 256, so its facts are instances of
the digit lemmas. `bytes` is the writer: unlike `Nat.digits` it pads to a
fixed width, which is what every wire format wants. The two are inverse up to
truncation, and `value_set_zero` says what storing one byte into a zeroed
slot does to the number, which is how a buffer filled byte by byte is read.

## Main definitions

* `value`: The number a byte string denotes.
* `bytes`: The fixed-width byte string of a number.

## Theorems

* `value_append`: A concatenation scales its second half.
* `value_lt`: A byte string denotes a number below its width's power.
* `value_bytes`: Writing then reading truncates to the width.
* `bytes_value`: Reading then writing gives the bytes back.
* `bytes_mod`: What does not fit the width does not matter.
* `value_inj`: Equal width and equal number mean equal bytes.
* `value_set_zero`: Storing a byte over a zero adds its positional weight.
* `value_lt_of_last`: The most significant byte decides an order.
-/

namespace LittleEndian

/-- The number a byte string denotes, least significant byte first. -/
def value (l : List UInt8) : Nat :=
  Nat.ofDigits 256 (l.map UInt8.toNat)

/-- The low-order `n` bytes of a number, least significant first. -/
def bytes : Nat → Nat → List UInt8
  | 0, _ => []
  | n + 1, v => UInt8.ofNat v :: bytes n (v / 256)

@[simp] theorem value_nil : value [] = 0 := rfl

@[simp] theorem value_cons (b : UInt8) (l : List UInt8) :
    value (b :: l) = b.toNat + 256 * value l := by
  simp only [value, List.map_cons, Nat.ofDigits_cons]

theorem value_append (l r : List UInt8) :
    value (l ++ r) = value l + 256 ^ l.length * value r := by
  simp only [value, List.map_append, Nat.ofDigits_append, List.length_map]

theorem value_lt (l : List UInt8) : value l < 256 ^ l.length := by
  have h := Nat.ofDigits_lt_base_pow_length (b := 256) (l := l.map UInt8.toNat) (by omega)
    (fun x hx => by
      rcases List.mem_map.mp hx with ⟨b, _, rfl⟩
      exact b.toNat_lt)
  rwa [List.length_map] at h

@[simp] theorem length_bytes (n v : Nat) : (bytes n v).length = n := by
  induction n generalizing v with
  | zero => rfl
  | succ k ih => simp only [bytes, List.length_cons, ih]

@[simp] theorem value_replicate_zero (n : Nat) : value (List.replicate n 0) = 0 := by
  simp only [value, List.map_replicate, UInt8.toNat_zero, Nat.ofDigits_replicate_zero]

theorem value_bytes (n v : Nat) : value (bytes n v) = v % 256 ^ n := by
  induction n generalizing v with
  | zero => simp only [bytes, value_nil, pow_zero, Nat.mod_one]
  | succ k ih =>
      simp only [bytes, value_cons, ih, UInt8.toNat_ofNat']
      rw [pow_succ' 256 k, Nat.mod_mul]

theorem bytes_value (l : List UInt8) : bytes l.length (value l) = l := by
  induction l with
  | nil => rfl
  | cons b l ih =>
      have hb := b.toNat_lt
      have hdiv : (b.toNat + 256 * value l) / 256 = value l := by omega
      -- The first byte is the remainder, and the others are the quotient.
      have hhead : UInt8.ofNat (b.toNat + 256 * value l) = b := by
        apply UInt8.toNat_inj.mp
        rw [UInt8.toNat_ofNat']
        omega
      simp only [List.length_cons, bytes, value_cons, hdiv, ih, hhead]

theorem value_inj (l r : List UInt8) (hlen : l.length = r.length) (h : value l = value r) :
    l = r := by
  rw [← bytes_value l, ← bytes_value r, hlen, h]

theorem bytes_mod (n v : Nat) : bytes n (v % 256 ^ n) = bytes n v := by
  refine value_inj _ _ (by rw [length_bytes, length_bytes]) ?_
  rw [value_bytes, value_bytes, Nat.mod_mod]

/-- Storing a byte into a slot that holds zero adds the byte at that slot's
    weight. -/
theorem value_set_zero (l : List UInt8) (i : Nat) (b : UInt8) (h : l[i]? = some 0) :
    value (l.set i b) = value l + b.toNat * 256 ^ i := by
  induction l generalizing i with
  | nil => simp only [List.getElem?_nil, reduceCtorEq] at h
  | cons c l ih =>
      cases i with
      | zero =>
          simp only [List.getElem?_cons_zero, Option.some.injEq] at h
          simp only [h, List.set_cons_zero, value_cons, UInt8.toNat_zero]
          ring
      | succ k =>
          simp only [List.getElem?_cons_succ] at h
          simp only [List.set_cons_succ, value_cons, ih k h]
          ring

/-- With the more significant halves in order, the low halves do not matter:
    this is one step of comparing from the top byte down. -/
theorem value_lt_of_last (l r : List UInt8) (b c : UInt8) (hlen : l.length = r.length)
    (h : b < c) : value (l ++ [b]) < value (r ++ [c]) := by
  have hl := value_lt l
  have hbc : b.toNat + 1 ≤ c.toNat := UInt8.lt_iff_toNat_lt.mp h
  rw [value_append, value_append, hlen]
  simp only [value_cons, value_nil, Nat.mul_zero, Nat.add_zero]
  rw [hlen] at hl
  calc value l + 256 ^ r.length * b.toNat
      < 256 ^ r.length + 256 ^ r.length * b.toNat := by omega
    _ = 256 ^ r.length * (b.toNat + 1) := by ring
    _ ≤ 256 ^ r.length * c.toNat := Nat.mul_le_mul_left _ hbc
    _ ≤ value r + 256 ^ r.length * c.toNat := Nat.le_add_left _ _

end LittleEndian
