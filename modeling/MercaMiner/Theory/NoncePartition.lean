import MercaMiner.Core.ParallelMiner

/-!
# The Ranges of the Workers

The partition of a nonce range is a tiling of it.

The loop works in 64-bit arithmetic and stores 32-bit ends. Nothing wraps:
every cursor it reaches is at most one past the last nonce.

## Main definitions

* `NonceRange.span`: A range as a half-open interval of numbers.

## Theorems

* `partitionNonceRange_ok`: When the partition succeeds, and that it tiles.
-/

namespace MercaMiner

open Outcome Tiling

/-- The nonces of a range as a half-open interval. -/
def NonceRange.span (r : NonceRange) : Nat × Nat :=
  (r.rangeBegin.toNat, r.rangeEnd.toNat + 1)

/-- The size of a worker's range. What the workers after it get of the
    remainder is what is left of it. -/
theorem rangeSize_spec (baseSize remainder worker : UInt64) (hbase : 0 < baseSize.toNat)
    (hlt : baseSize.toNat + 1 < 2 ^ 64) :
    ∃ size, (baseSize + (if worker < remainder then 1 else 0)).toNat = size ∧ 0 < size ∧
      ∀ k, size + min k (remainder.toNat - (worker.toNat + 1)) =
        baseSize.toNat + min (k + 1) (remainder.toNat - worker.toNat) := by
  by_cases hshare : worker < remainder
  · have hnat : worker.toNat < remainder.toNat := UInt64.lt_iff_toNat_lt.mp hshare
    refine ⟨baseSize.toNat + 1, ?_, by omega, fun k => by omega⟩
    rw [if_pos hshare, UInt64.toNat_add, UInt64.toNat_one]
    omega
  · have hnat : remainder.toNat ≤ worker.toNat :=
      Nat.le_of_not_lt fun h => hshare (UInt64.lt_iff_toNat_lt.mpr h)
    refine ⟨baseSize.toNat, ?_, hbase, fun k => by omega⟩
    rw [if_neg hshare, UInt64.toNat_add, UInt64.toNat_zero]
    omega

/-- The variables of the loop after one range, in numbers. -/
theorem cursor_spec (cursor rangeSize worker : UInt64) (size : Nat)
    (hsize : rangeSize.toNat = size) (hpos : 0 < size) (hfit : cursor.toNat + size < 2 ^ 64)
    (hworker : worker.toNat + 1 < 2 ^ 64) :
    (cursor + rangeSize - 1).toNat = cursor.toNat + size - 1 ∧
    (cursor + rangeSize - 1 + 1).toNat = cursor.toNat + size ∧
    (worker + 1).toNat = worker.toNat + 1 := by
  have hend : (cursor + rangeSize - 1).toNat = cursor.toNat + size - 1 := by
    rw [UInt64.toNat_sub_of_le _ _ (by
      rw [UInt64.le_iff_toNat_le, UInt64.toNat_add, UInt64.toNat_one]
      omega), UInt64.toNat_add, UInt64.toNat_one]
    omega
  refine ⟨hend, ?_, ?_⟩
  · rw [UInt64.toNat_add, hend, UInt64.toNat_one]
    omega
  · rw [UInt64.toNat_add, UInt64.toNat_one]
    omega

theorem partitionLoop_succ (baseSize remainder : UInt64) (k : Nat) (worker cursor : UInt64) :
    partitionLoop baseSize remainder (k + 1) worker cursor =
      ⟨cursor.toUInt32, (cursor + (baseSize + if worker < remainder then 1 else 0) - 1).toUInt32⟩ ::
        partitionLoop baseSize remainder k (worker + 1)
          (cursor + (baseSize + if worker < remainder then 1 else 0) - 1 + 1) := rfl

/-- The loop tiles what is left, where the workers below the remainder get one
    more. -/
theorem partitionLoop_tiles (baseSize remainder : UInt64) (k : Nat) (worker cursor : UInt64)
    (hi : Nat) (hbase : 0 < baseSize.toNat)
    (hworker : worker.toNat + k < 2 ^ 64) (hbound : hi ≤ 2 ^ 32)
    (hhi : cursor.toNat + k * baseSize.toNat + min k (remainder.toNat - worker.toNat) = hi) :
    Tiles cursor.toNat ((partitionLoop baseSize remainder k worker cursor).map NonceRange.span)
      hi := by
  induction k generalizing worker cursor with
  | zero =>
      change cursor.toNat = hi
      omega
  | succ k ih =>
      have hmul : (k + 1) * baseSize.toNat = k * baseSize.toNat + baseSize.toNat := by ring
      rw [hmul] at hhi
      generalize hpart : k * baseSize.toNat = part at hhi ih
      rcases rangeSize_spec baseSize remainder worker hbase (by omega) with
        ⟨size, hsize, hpos, hshare⟩
      have hrest := hshare k
      simp only [partitionLoop_succ, List.map_cons, Tiles, NonceRange.span]
      generalize baseSize + (if worker < remainder then 1 else 0) = rangeSize at hsize ⊢
      rcases cursor_spec cursor rangeSize worker size hsize hpos (by omega) (by omega) with
        ⟨hend, hnext, hstep⟩
      -- Below 2^32 the narrowing conversions lose nothing.
      have hbegin32 : cursor.toUInt32.toNat = cursor.toNat := by
        rw [UInt64.toNat_toUInt32]
        omega
      have hend32 : (cursor + rangeSize - 1).toUInt32.toNat + 1 = cursor.toNat + size := by
        rw [UInt64.toNat_toUInt32, hend]
        omega
      refine ⟨hbegin32, by omega, ?_⟩
      have htail := ih (worker + 1) (cursor + rangeSize - 1 + 1) (by omega)
        (by rw [hstep, hnext]; omega)
      rw [hnext] at htail
      rw [hend32]
      exact htail

theorem length_partitionLoop (baseSize remainder : UInt64) (k : Nat) (worker cursor : UInt64) :
    (partitionLoop baseSize remainder k worker cursor).length = k := by
  induction k generalizing worker cursor with
  | zero => rfl
  | succ k ih => rw [partitionLoop_succ, List.length_cons, ih]

theorem toNat_min (a b : UInt64) : (min a b).toNat = min a.toNat b.toNat := by
  rw [UInt64.min_def]
  by_cases h : a ≤ b
  · rw [if_pos h, Nat.min_eq_left (UInt64.le_iff_toNat_le.mp h)]
  · have hle := UInt64.le_iff_toNat_le.mp (UInt64.le_of_lt (UInt64.not_le.mp h))
    rw [if_neg h, Nat.min_eq_right hle]

/-- The number of nonces, which does not fit 32 bits for the full range. -/
theorem toNat_nonceCount (nonceBegin nonceEnd : UInt32) (h : nonceBegin.toNat ≤ nonceEnd.toNat) :
    (nonceEnd.toUInt64 - nonceBegin.toUInt64 + 1).toNat =
      nonceEnd.toNat + 1 - nonceBegin.toNat := by
  have hlt := nonceEnd.toNat_lt
  rw [UInt64.toNat_add, UInt64.toNat_sub_of_le _ _ (by
    rw [UInt64.le_iff_toNat_le, UInt32.toNat_toUInt64, UInt32.toNat_toUInt64]
    exact h), UInt32.toNat_toUInt64, UInt32.toNat_toUInt64, UInt64.toNat_one]
  omega

/-- The partition succeeds exactly on proper arguments. Its ranges tile the
    requested interval, and there are as many as there are workers, or nonces
    if those are fewer. -/
theorem partitionNonceRange_ok (nonceBegin nonceEnd : UInt32) (workerCount : UInt64)
    (ranges : List NonceRange)
    (h : partitionNonceRange nonceBegin nonceEnd workerCount = .ok ranges) :
    nonceBegin.toNat ≤ nonceEnd.toNat ∧
    Tiles nonceBegin.toNat (ranges.map NonceRange.span) (nonceEnd.toNat + 1) ∧
    ranges.length = min (nonceEnd.toNat + 1 - nonceBegin.toNat) workerCount.toNat := by
  simp only [partitionNonceRange, bind_ok, check_ok, pure_ok, exists_const] at h
  rcases h with ⟨hworkers, horder, rfl⟩
  have hle : nonceBegin.toNat ≤ nonceEnd.toNat :=
    Nat.le_of_not_lt fun hlt => horder (UInt32.lt_iff_toNat_lt.mpr hlt)
  have hbeginLt := nonceBegin.toNat_lt
  have hendLt := nonceEnd.toNat_lt
  have hcount := toNat_nonceCount nonceBegin nonceEnd hle
  have hpos : 0 < workerCount.toNat := by
    refine Nat.pos_of_ne_zero fun hz => hworkers ?_
    exact UInt64.toNat_inj.mp hz
  generalize nonceEnd.toUInt64 - nonceBegin.toUInt64 + 1 = nonceCount at hcount ⊢
  have hactive := toNat_min nonceCount workerCount
  generalize min nonceCount workerCount = active at hactive ⊢
  have hactivePos : 0 < active.toNat := by omega
  -- Every worker gets the quotient, and the remainder is less than the workers.
  have hmod : nonceCount.toNat % active.toNat < active.toNat := Nat.mod_lt _ hactivePos
  have hdiv : active.toNat * (nonceCount.toNat / active.toNat)
      + nonceCount.toNat % active.toNat = nonceCount.toNat := Nat.div_add_mod _ _
  have hbase : 0 < nonceCount.toNat / active.toNat :=
    Nat.div_pos (by omega) hactivePos
  refine ⟨hle, ?_, ?_⟩
  · have htiles := partitionLoop_tiles (nonceCount / active) (nonceCount % active) active.toNat 0
      nonceBegin.toUInt64 (nonceEnd.toNat + 1)
      (by rw [UInt64.toNat_div]; exact hbase)
      (by rw [UInt64.toNat_zero]; have := active.toNat_lt; omega)
      (by omega)
      (by
        rw [UInt64.toNat_div, UInt64.toNat_mod, UInt32.toNat_toUInt64, UInt64.toNat_zero]
        generalize active.toNat * (nonceCount.toNat / active.toNat) = whole at hdiv ⊢
        omega)
    rw [UInt32.toNat_toUInt64] at htiles
    exact htiles
  · rw [length_partitionLoop]
    omega

end MercaMiner
