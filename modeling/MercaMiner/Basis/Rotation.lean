import Mathlib.Logic.Function.Iterate

/-!
# Rotations

Rotating a word left and back, at any width, and the shift-and-or form
programs compute a rotation of a 64-bit word with.

## Theorems

* `rotateRight_rotateLeft`, `rotateLeft_rotateRight`: The two directions undo
  each other.
* `rotateLeft_rotateLeft`: Two rotations are one by the sum.
* `rotateLeft_xor`: Rotating respects exclusive or.
* `iterate_rotateLeft`: Rotating again and again.
* `shiftLeft_or_shiftRight`: Two shifts and an or rotate left.
* `shiftRight_or_shiftLeft`: The other two rotate right.
-/

namespace Rotation

theorem rotateRight_rotateLeft {w : Nat} (x : BitVec w) (r : Nat) :
    (x.rotateLeft r).rotateRight r = x := by
  refine BitVec.eq_of_getLsbD_eq (fun i hi => ?_)
  have hr : r % w < w := Nat.mod_lt r (by omega)
  rw [BitVec.getLsbD_rotateRight]
  by_cases hlow : i < w - r % w
  · -- The bit was moved up by `r` and comes back down.
    rw [decide_eq_true hlow, cond_true, BitVec.getLsbD_rotateLeft,
      decide_eq_false (by omega), cond_false, decide_eq_true (by omega), Bool.true_and,
      Nat.add_sub_cancel_left]
  · -- The bit was moved past the top.
    rw [decide_eq_false hlow, cond_false, decide_eq_true hi, Bool.true_and,
      BitVec.getLsbD_rotateLeft, decide_eq_true (by omega), cond_true]
    congr 1
    omega

theorem rotateLeft_rotateRight {w : Nat} (x : BitVec w) (r : Nat) :
    (x.rotateRight r).rotateLeft r = x := by
  refine BitVec.eq_of_getLsbD_eq (fun i hi => ?_)
  have hr : r % w < w := Nat.mod_lt r (by omega)
  rw [BitVec.getLsbD_rotateLeft]
  by_cases hlow : i < r % w
  · rw [decide_eq_true hlow, cond_true, BitVec.getLsbD_rotateRight,
      decide_eq_false (by omega), cond_false, decide_eq_true (by omega), Bool.true_and]
    congr 1
    omega
  · rw [decide_eq_false hlow, cond_false, decide_eq_true hi, Bool.true_and,
      BitVec.getLsbD_rotateRight, decide_eq_true (by omega), cond_true]
    congr 1
    omega

/-- Bit `i` comes from `r` places below, around the end of the word. -/
theorem getLsbD_rotateLeft_mod {w : Nat} (x : BitVec w) (r i : Nat) (hi : i < w) :
    (x.rotateLeft r).getLsbD i = x.getLsbD ((i + (w - r % w)) % w) := by
  have hr : r % w < w := Nat.mod_lt r (by omega)
  rw [BitVec.getLsbD_rotateLeft]
  by_cases hlow : i < r % w
  · rw [decide_eq_true hlow, cond_true,
      Nat.mod_eq_of_lt (show i + (w - r % w) < w by omega), Nat.add_comm]
  · have hwrap : i + (w - r % w) = i - r % w + w := by omega
    rw [decide_eq_false hlow, cond_false, decide_eq_true hi, Bool.true_and, hwrap,
      Nat.add_mod_right, Nat.mod_eq_of_lt (show i - r % w < w by omega)]

theorem rotateLeft_rotateLeft {w : Nat} (x : BitVec w) (r s : Nat) :
    (x.rotateLeft r).rotateLeft s = x.rotateLeft (r + s) := by
  refine BitVec.eq_of_getLsbD_eq (fun i hi => ?_)
  have hw : 0 < w := by omega
  rw [getLsbD_rotateLeft_mod _ s i hi, getLsbD_rotateLeft_mod _ r _ (Nat.mod_lt _ hw),
    getLsbD_rotateLeft_mod _ (r + s) i hi]
  congr 1
  -- The index goes down by both counts, each of them below the width.
  have hr : r % w < w := Nat.mod_lt r hw
  have hs : s % w < w := Nat.mod_lt s hw
  rw [Nat.mod_add_mod, Nat.add_mod r s w]
  rcases Nat.lt_or_ge (r % w + s % w) w with hlt | hge
  · rw [Nat.mod_eq_of_lt hlt, show i + (w - s % w) + (w - r % w) =
      i + (w - (r % w + s % w)) + w by omega, Nat.add_mod_right]
  · rw [Nat.mod_eq_sub_mod hge, Nat.mod_eq_of_lt (show r % w + s % w - w < w by omega),
      show i + (w - s % w) + (w - r % w) = i + (w - (r % w + s % w - w)) by omega]

theorem rotateLeft_xor {w : Nat} (x y : BitVec w) (r : Nat) :
    (x ^^^ y).rotateLeft r = x.rotateLeft r ^^^ y.rotateLeft r := by
  refine BitVec.eq_of_getLsbD_eq (fun i hi => ?_)
  rw [BitVec.getLsbD_xor, getLsbD_rotateLeft_mod _ r i hi, getLsbD_rotateLeft_mod _ r i hi,
    getLsbD_rotateLeft_mod _ r i hi, BitVec.getLsbD_xor]

theorem rotateLeft_of_dvd {w : Nat} (x : BitVec w) (r : Nat) (h : w ∣ r) : x.rotateLeft r = x := by
  refine BitVec.eq_of_getLsbD_eq (fun i hi => ?_)
  rw [getLsbD_rotateLeft_mod _ r i hi, Nat.mod_eq_zero_of_dvd h, Nat.sub_zero, Nat.add_mod_right,
    Nat.mod_eq_of_lt hi]

theorem iterate_rotateLeft {w : Nat} (n r : Nat) :
    (fun x : BitVec w => x.rotateLeft r)^[n] = fun x => x.rotateLeft (n * r) := by
  induction n with
  | zero =>
      funext x
      rw [Nat.zero_mul, rotateLeft_of_dvd x 0 (Nat.dvd_zero w)]
      rfl
  | succ k ih =>
      funext x
      rw [Function.iterate_succ_apply', ih, rotateLeft_rotateLeft, Nat.succ_mul]

/-- A shift count below the width is not reduced. -/
theorem toNat_umod (k : UInt64) (hk : k.toNat < 64) : (k.toBitVec % 64).toNat = k.toNat := by
  rw [BitVec.toNat_umod]
  exact Nat.mod_eq_of_lt hk

theorem toNat_complement (k : UInt64) (hk : k.toNat < 64) : (64 - k).toNat = 64 - k.toNat := by
  rw [UInt64.toNat_sub]
  have h64 : (64 : UInt64).toNat = 64 := rfl
  omega

theorem shiftLeft_or_shiftRight (x k : UInt64) (hpos : 0 < k.toNat) (hk : k.toNat < 64) :
    ((x <<< k) ||| (x >>> (64 - k))).toBitVec = x.toBitVec.rotateLeft k.toNat := by
  have hc := toNat_complement k hk
  rw [UInt64.toBitVec_or, UInt64.toBitVec_shiftLeft, UInt64.toBitVec_shiftRight,
    BitVec.rotateLeft_def, Nat.mod_eq_of_lt hk, BitVec.shiftLeft_eq', BitVec.ushiftRight_eq',
    toNat_umod k hk, toNat_umod (64 - k) (by omega), hc]

theorem shiftRight_or_shiftLeft (x k : UInt64) (hpos : 0 < k.toNat) (hk : k.toNat < 64) :
    ((x >>> k) ||| (x <<< (64 - k))).toBitVec = x.toBitVec.rotateRight k.toNat := by
  have hc := toNat_complement k hk
  rw [UInt64.toBitVec_or, UInt64.toBitVec_shiftRight, UInt64.toBitVec_shiftLeft,
    BitVec.rotateRight_def, Nat.mod_eq_of_lt hk, BitVec.ushiftRight_eq', BitVec.shiftLeft_eq',
    toNat_umod k hk, toNat_umod (64 - k) (by omega), hc]

end Rotation
