import Mathlib.Data.List.GetD
import Mathlib.Data.Nat.NthRoot.Defs
import MercaMiner.Basis.Chunks
import MercaMiner.Basis.LittleEndian

/-!
# SHA-256

The hash function of FIPS 180-4 on byte strings.

Words are 32 bits wide and most significant byte first. The message schedule
is a list that grows by one word a time, each from four earlier ones. The
constants of the rounds and the initial hash value are not listed: they are
the first bits of the fractional parts of the cube roots and square roots of
the first primes, which `fraction` computes.

## Main definitions

* `roundConstants`, `initial`: The constants, from roots of primes.
* `schedule`: The message schedule.
* `compress`: One block.
* `sha256`: The hash of a message.

## Theorems

* `word_of_lt`, `word_recurrence`: The schedule, word by word.
* `length_padded`: A padded message is a whole number of blocks.
-/

namespace Fips180

/-- Rotate right. -/
def rotr (x : UInt32) (n : Nat) : UInt32 :=
  ⟨x.toBitVec.rotateRight n⟩

def ch (x y z : UInt32) : UInt32 :=
  (x &&& y) ^^^ (~~~x &&& z)

def maj (x y z : UInt32) : UInt32 :=
  (x &&& y) ^^^ (x &&& z) ^^^ (y &&& z)

def bigSigma0 (x : UInt32) : UInt32 :=
  rotr x 2 ^^^ rotr x 13 ^^^ rotr x 22

def bigSigma1 (x : UInt32) : UInt32 :=
  rotr x 6 ^^^ rotr x 11 ^^^ rotr x 25

def smallSigma0 (x : UInt32) : UInt32 :=
  rotr x 7 ^^^ rotr x 18 ^^^ (x >>> 3)

def smallSigma1 (x : UInt32) : UInt32 :=
  rotr x 17 ^^^ rotr x 19 ^^^ (x >>> 10)

/-- The primes below a bound. -/
def primesBelow (bound : Nat) : List Nat :=
  (List.range bound).filter fun p => Nat.ble 2 p && (List.range p).all fun d =>
    Nat.ble d 1 || p % d != 0

/-- The first 32 bits of the fractional part of a root. -/
def fraction (degree p : Nat) : UInt32 :=
  UInt32.ofNat (Nat.nthRoot degree (p * 2 ^ (32 * degree)))

/-- From the cube roots of the first 64 primes. -/
def roundConstants : List UInt32 :=
  (primesBelow 312).map (fraction 3)

structure State where
  a : UInt32
  b : UInt32
  c : UInt32
  d : UInt32
  e : UInt32
  f : UInt32
  g : UInt32
  h : UInt32
  deriving DecidableEq

namespace State

def toList (s : State) : List UInt32 :=
  [s.a, s.b, s.c, s.d, s.e, s.f, s.g, s.h]

def add (s t : State) : State :=
  ⟨s.a + t.a, s.b + t.b, s.c + t.c, s.d + t.d, s.e + t.e, s.f + t.f, s.g + t.g, s.h + t.h⟩

end State

/-- From the square roots of the first eight primes. -/
def initial : State :=
  ⟨fraction 2 2, fraction 2 3, fraction 2 5, fraction 2 7, fraction 2 11, fraction 2 13,
    fraction 2 17, fraction 2 19⟩

/-- The number a byte string denotes, most significant byte first. -/
def bigEndian (l : List UInt8) : Nat :=
  LittleEndian.value l.reverse

/-- The sixteen words of a block. -/
def blockWords (block : List UInt8) : List UInt32 :=
  (List.range 16).map fun i => UInt32.ofNat (bigEndian ((block.drop (4 * i)).take 4))

/-- The schedule with a number of words after the sixteen of the block. -/
def schedule (m : List UInt32) : Nat → List UInt32
  | 0 => m
  | n + 1 =>
      let w := schedule m n
      w ++ [smallSigma1 (w.getD (n + 14) 0) + w.getD (n + 9) 0 + smallSigma0 (w.getD (n + 1) 0) +
        w.getD n 0]

def round (v : State) (kw : UInt32 × UInt32) : State :=
  let t1 := v.h + bigSigma1 v.e + ch v.e v.f v.g + kw.1 + kw.2
  let t2 := bigSigma0 v.a + maj v.a v.b v.c
  ⟨t1 + t2, v.a, v.b, v.c, v.d + t1, v.e, v.f, v.g⟩

def compress (s : State) (block : List UInt8) : State :=
  s.add ((roundConstants.zip (schedule (blockWords block) 48)).foldl round s)

/-- A one bit, zeros, and the number of bits of the message in 64 bits. -/
def pad (length : Nat) : List UInt8 :=
  0x80 :: List.replicate ((119 - length % 64) % 64) 0 ++
    (LittleEndian.bytes 8 (8 * length)).reverse

def sha256 (message : List UInt8) : List UInt8 :=
  (Chunks.absorb 64 compress initial (message ++ pad message.length)).1.toList.flatMap fun word =>
    (LittleEndian.bytes 4 word.toNat).reverse

theorem length_padded (message : List UInt8) : (message ++ pad message.length).length % 64 = 0 := by
  unfold pad
  simp only [List.length_append, List.length_cons, List.length_replicate, List.length_reverse,
    LittleEndian.length_bytes]
  omega

theorem schedule_zero (m : List UInt32) : schedule m 0 = m := rfl

theorem schedule_succ (m : List UInt32) (n : Nat) :
    schedule m (n + 1) = schedule m n ++ [smallSigma1 ((schedule m n).getD (n + 14) 0) +
      (schedule m n).getD (n + 9) 0 + smallSigma0 ((schedule m n).getD (n + 1) 0) +
      (schedule m n).getD n 0] := rfl

theorem length_schedule (m : List UInt32) (n : Nat) : (schedule m n).length = m.length + n := by
  induction n with
  | zero => rfl
  | succ k ih =>
      rw [schedule_succ, List.length_append, List.length_singleton, ih]
      omega

/-- A word of the schedule by its number. -/
def word (m : List UInt32) (t : Nat) : UInt32 :=
  (schedule m (t + 1 - m.length)).getD t 0

/-- The schedule only grows. -/
theorem schedule_prefix (m : List UInt32) (n k t : Nat) (h : t < m.length + n) :
    (schedule m (n + k)).getD t 0 = (schedule m n).getD t 0 := by
  induction k with
  | zero => rfl
  | succ k ih =>
      rw [← Nat.add_assoc, schedule_succ,
        List.getD_append _ _ _ _ (by rw [length_schedule]; omega), ih]

theorem getD_schedule (m : List UInt32) (n t : Nat) (h : t < m.length + n) :
    (schedule m n).getD t 0 = word m t := by
  unfold word
  rw [← schedule_prefix m (t + 1 - m.length) (n - (t + 1 - m.length)) t (by omega)]
  congr 2
  omega

theorem word_of_lt (m : List UInt32) (t : Nat) (h : t < m.length) : word m t = m.getD t 0 := by
  unfold word
  rw [show t + 1 - m.length = 0 by omega, schedule_zero]

theorem word_recurrence (m : List UInt32) (h : m.length = 16) (t : Nat) :
    word m (t + 16) = smallSigma1 (word m (t + 14)) + word m (t + 9) +
      smallSigma0 (word m (t + 1)) + word m t := by
  have hlen := length_schedule m t
  rw [← getD_schedule m t (t + 14) (by omega), ← getD_schedule m t (t + 9) (by omega),
    ← getD_schedule m t (t + 1) (by omega), ← getD_schedule m t t (by omega),
    ← getD_schedule m (t + 1) (t + 16) (by omega), schedule_succ,
    List.getD_append_right _ _ _ _ (by omega), show t + 16 - (schedule m t).length = 0 by omega]
  rfl

theorem schedule_eq_map (m : List UInt32) (n : Nat) :
    schedule m n = (List.range (m.length + n)).map (word m) := by
  refine List.ext_getElem ?_ fun t ht ht' => ?_
  · rw [length_schedule, List.length_map, List.length_range]
  · rw [length_schedule] at ht
    rw [List.getElem_map, List.getElem_range, ← getD_schedule m n t ht,
      List.getD_eq_getElem _ _ (by rw [length_schedule]; exact ht)]

end Fips180
