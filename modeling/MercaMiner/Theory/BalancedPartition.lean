import MercaMiner.Theory.NoncePartition

/-!
# The Partition Is Balanced

The ranges of the workers one by one.

`partitionWide` are the values of the loop before they are stored in 32 bits.
The range with number `i` starts after `i` quotients and as many nonces of the
remainder as there are workers before it to take one. Everything about the
partition follows from that formula, together with the tiling.

## Main definitions

* `partitionWide`, `partitionValues`: The loop's 64-bit values.
* `NonceRange.size`: The number of nonces of a range.
* `Shares`, `IsShare`: The quotient and the remainder, and a range by its number.

## Theorems

* `partitionWide_getElem?`: The values of each range.
* `partition_shares`: The ranges, each by its number.
* `partition_exact`: The partition of every range over every number of
  workers.
-/

namespace MercaMiner

open Outcome Tiling

def NonceRange.size (r : NonceRange) : Nat :=
  r.rangeEnd.toNat + 1 - r.rangeBegin.toNat

/-- Storing the two ends of a range. -/
def NonceRange.narrow (p : UInt64 × UInt64) : NonceRange :=
  ⟨p.1.toUInt32, p.2.toUInt32⟩

/-- The values of `cursor` and `range_end` in the loop over the workers. -/
def partitionWide (baseSize remainder : UInt64) : Nat → UInt64 → UInt64 → List (UInt64 × UInt64)
  | 0, _, _ => []
  | k + 1, worker, cursor =>
      let rangeSize := baseSize + (if worker < remainder then 1 else 0)
      let rangeEnd := cursor + rangeSize - 1
      (cursor, rangeEnd) :: partitionWide baseSize remainder k (worker + 1) (rangeEnd + 1)

/-- The values in a partition. -/
def partitionValues (nonceBegin nonceEnd : UInt32) (workerCount : UInt64) :
    List (UInt64 × UInt64) :=
  let nonceCount := nonceEnd.toUInt64 - nonceBegin.toUInt64 + 1
  let activeCount := min nonceCount workerCount
  partitionWide (nonceCount / activeCount) (nonceCount % activeCount) activeCount.toNat 0
    nonceBegin.toUInt64

theorem partitionWide_succ (baseSize remainder : UInt64) (k : Nat) (worker cursor : UInt64) :
    partitionWide baseSize remainder (k + 1) worker cursor =
      (cursor, cursor + (baseSize + if worker < remainder then 1 else 0) - 1) ::
        partitionWide baseSize remainder k (worker + 1)
          (cursor + (baseSize + if worker < remainder then 1 else 0) - 1 + 1) := rfl

theorem partitionLoop_eq_narrow (baseSize remainder : UInt64) (k : Nat) (worker cursor : UInt64) :
    partitionLoop baseSize remainder k worker cursor =
      (partitionWide baseSize remainder k worker cursor).map NonceRange.narrow := by
  induction k generalizing worker cursor with
  | zero => rfl
  | succ k ih =>
      simp only [partitionLoop_succ, partitionWide_succ, List.map_cons, ih]
      rfl

/-- The values of the range with number `i`, when the last range ends below
    2^32. -/
theorem partitionWide_getElem? (baseSize remainder : UInt64) (k : Nat) (worker cursor : UInt64)
    (hbase : 0 < baseSize.toNat) (hworker : worker.toNat + k < 2 ^ 64)
    (hfit : cursor.toNat + k * baseSize.toNat + min k (remainder.toNat - worker.toNat) ≤ 2 ^ 32)
    (i : Nat) (hi : i < k) :
    ∃ p, (partitionWide baseSize remainder k worker cursor)[i]? = some p ∧
      p.1.toNat = cursor.toNat + i * baseSize.toNat + min i (remainder.toNat - worker.toNat) ∧
      p.2.toNat + 1 = cursor.toNat + (i + 1) * baseSize.toNat
        + min (i + 1) (remainder.toNat - worker.toNat) := by
  induction k generalizing worker cursor i with
  | zero => omega
  | succ k ih =>
      have hmul : (k + 1) * baseSize.toNat = k * baseSize.toNat + baseSize.toNat := by ring
      rw [hmul] at hfit
      generalize hpart : k * baseSize.toNat = part at hfit ih
      rcases rangeSize_spec baseSize remainder worker hbase (by omega) with
        ⟨size, hsize, hpos, hshare⟩
      have hnow := hshare 0
      have hrest := hshare k
      rw [partitionWide_succ]
      generalize baseSize + (if worker < remainder then 1 else 0) = rangeSize at hsize ⊢
      rcases cursor_spec cursor rangeSize worker size hsize hpos (by omega) (by omega) with
        ⟨hend, hnext, hstep⟩
      cases i with
      | zero =>
          refine ⟨_, List.getElem?_cons_zero, ?_, ?_⟩
          · simp only [Nat.zero_mul, Nat.add_zero, Nat.zero_min]
          · simp only [hend, Nat.zero_add, Nat.one_mul]
            omega
      | succ j =>
          rcases ih (worker + 1) (cursor + rangeSize - 1 + 1) (by omega)
            (by rw [hstep, hnext]; omega) j (by omega) with ⟨p, hp, hfirst, hlast⟩
          have hj := hshare j
          have hj' := hshare (j + 1)
          have hmulj : (j + 1) * baseSize.toNat = j * baseSize.toNat + baseSize.toNat := by ring
          have hmulj' : (j + 1 + 1) * baseSize.toNat
              = j * baseSize.toNat + baseSize.toNat + baseSize.toNat := by ring
          rw [hstep, hnext] at hfirst hlast
          rw [hmulj] at hlast
          refine ⟨p, ?_, ?_, ?_⟩
          · rw [List.getElem?_cons_succ]
            exact hp
          · rw [hfirst, hmulj]
            omega
          · rw [hlast, hmulj']
            omega

section

variable (nonceBegin nonceEnd : UInt32) (workerCount : UInt64)

/-- The quotient and the remainder of a partition, with what makes them one. -/
structure Shares (quotient remainder active : Nat) : Prop where
  quotient_pos : 0 < quotient
  remainder_lt : remainder < active
  total : nonceBegin.toNat + (active * quotient + remainder) = nonceEnd.toNat + 1
  active_eq : active = min (nonceEnd.toNat - nonceBegin.toNat + 1) workerCount.toNat

/-- The values of every range in terms of the shares. -/
theorem partitionValues_getElem? (horder : nonceBegin.toNat ≤ nonceEnd.toNat)
    (hworkers : 0 < workerCount.toNat) :
    ∃ quotient remainder active, Shares nonceBegin nonceEnd workerCount quotient remainder active ∧
      (partitionValues nonceBegin nonceEnd workerCount).length = active ∧
      ∀ i, i < active → ∃ p, (partitionValues nonceBegin nonceEnd workerCount)[i]? = some p ∧
        p.1.toNat = nonceBegin.toNat + i * quotient + min i remainder ∧
        p.2.toNat + 1 = nonceBegin.toNat + (i + 1) * quotient + min (i + 1) remainder := by
  have hendLt := nonceEnd.toNat_lt
  have hcount := toNat_nonceCount nonceBegin nonceEnd horder
  simp only [partitionValues]
  generalize nonceEnd.toUInt64 - nonceBegin.toUInt64 + 1 = nonceCount at hcount ⊢
  have hactive := toNat_min nonceCount workerCount
  generalize min nonceCount workerCount = active at hactive ⊢
  have hactivePos : 0 < active.toNat := by omega
  have hmod : nonceCount.toNat % active.toNat < active.toNat := Nat.mod_lt _ hactivePos
  have hdiv : active.toNat * (nonceCount.toNat / active.toNat)
      + nonceCount.toNat % active.toNat = nonceCount.toNat := Nat.div_add_mod _ _
  have hbase : 0 < nonceCount.toNat / active.toNat := Nat.div_pos (by omega) hactivePos
  refine ⟨nonceCount.toNat / active.toNat, nonceCount.toNat % active.toNat, active.toNat,
    ⟨hbase, hmod, by omega, by omega⟩, ?_, fun i hi => ?_⟩
  · have hlen := length_partitionLoop (nonceCount / active) (nonceCount % active) active.toNat 0
      nonceBegin.toUInt64
    rw [partitionLoop_eq_narrow, List.length_map] at hlen
    exact hlen
  · have hvalues := partitionWide_getElem? (nonceCount / active) (nonceCount % active) active.toNat
      0 nonceBegin.toUInt64 (by rw [UInt64.toNat_div]; exact hbase)
      (by rw [UInt64.toNat_zero]; have := active.toNat_lt; omega) (by
        rw [UInt64.toNat_div, UInt64.toNat_mod, UInt32.toNat_toUInt64, UInt64.toNat_zero]
        generalize active.toNat * (nonceCount.toNat / active.toNat) = whole at hdiv ⊢
        omega) i hi
    rw [UInt64.toNat_div, UInt64.toNat_mod, UInt32.toNat_toUInt64, UInt64.toNat_zero,
      Nat.sub_zero] at hvalues
    exact hvalues

theorem partitionNonceRange_eq (horder : nonceBegin ≤ nonceEnd) (hworkers : workerCount ≠ 0) :
    partitionNonceRange nonceBegin nonceEnd workerCount =
      .ok ((partitionValues nonceBegin nonceEnd workerCount).map NonceRange.narrow) := by
  have hnot : ¬nonceBegin > nonceEnd := UInt32.not_lt.mpr horder
  simp only [partitionNonceRange, bind_ok, check_ok, pure_ok, exists_const]
  exact ⟨hworkers, hnot, partitionLoop_eq_narrow _ _ _ _ _⟩

/-- A range is the one with number `i`. -/
structure IsShare (quotient remainder i : Nat) (r : NonceRange) : Prop where
  first : r.rangeBegin.toNat = nonceBegin.toNat + i * quotient + min i remainder
  last : r.rangeEnd.toNat + 1 =
    nonceBegin.toNat + (i + 1) * quotient + min (i + 1) remainder

/-- The size of a range by its number. -/
theorem IsShare.size (quotient remainder i : Nat) (r : NonceRange)
    (h : IsShare nonceBegin quotient remainder i r) :
    r.rangeBegin.toNat + r.size = r.rangeEnd.toNat + 1 ∧
      r.size = quotient + if i < remainder then 1 else 0 := by
  have hmul : (i + 1) * quotient = i * quotient + quotient := by ring
  have hfirst := h.first
  have hlast := h.last
  unfold NonceRange.size
  by_cases hlarge : i < remainder
  · rw [if_pos hlarge]
    omega
  · rw [if_neg hlarge]
    omega

/-- A range with a smaller number ends before one with a larger number
    begins. -/
theorem IsShare.apart (quotient remainder i j : Nat) (r s : NonceRange)
    (hr : IsShare nonceBegin quotient remainder i r)
    (hs : IsShare nonceBegin quotient remainder j s) (h : i < j) :
    r.rangeEnd.toNat < s.rangeBegin.toNat := by
  have hle : (i + 1) * quotient ≤ j * quotient := Nat.mul_le_mul_right quotient h
  have hlast := hr.last
  have hfirst := hs.first
  omega

/-- A range with a smaller number is as large or larger by one, because only
    the first ranges take a nonce of the remainder. -/
theorem IsShare.balanced (quotient remainder i j : Nat) (r s : NonceRange)
    (hr : IsShare nonceBegin quotient remainder i r)
    (hs : IsShare nonceBegin quotient remainder j s) (h : i < j) :
    s.size ≤ r.size ∧ r.size ≤ s.size + 1 := by
  have hri := (hr.size nonceBegin quotient remainder i r).2
  have hsj := (hs.size nonceBegin quotient remainder j s).2
  by_cases hlarge : j < remainder
  · rw [if_pos hlarge] at hsj
    rw [if_pos (Nat.lt_trans h hlarge)] at hri
    omega
  · rw [if_neg hlarge] at hsj
    by_cases hlarge' : i < remainder
    · rw [if_pos hlarge'] at hri
      omega
    · rw [if_neg hlarge'] at hri
      omega

/-- Two ranges that share a nonce have one number. -/
theorem IsShare.unique (quotient remainder i j nonce : Nat) (r s : NonceRange)
    (hr : IsShare nonceBegin quotient remainder i r)
    (hs : IsShare nonceBegin quotient remainder j s)
    (hnonce : r.rangeBegin.toNat ≤ nonce ∧ nonce ≤ r.rangeEnd.toNat)
    (hnonce' : s.rangeBegin.toNat ≤ nonce ∧ nonce ≤ s.rangeEnd.toNat) : j = i := by
  rcases Nat.lt_trichotomy i j with hlt | heq | hlt
  · have hapart := hr.apart nonceBegin quotient remainder i j r s hs hlt
    omega
  · exact heq.symm
  · have hapart := hs.apart nonceBegin quotient remainder j i s r hr hlt
    omega

/-- Storing the values of a range in 32 bits. Every value fits, so it changes
    nothing. -/
theorem narrow_isShare (quotient remainder active : Nat)
    (hshares : Shares nonceBegin nonceEnd workerCount quotient remainder active) (i : Nat)
    (hi : i < active) (p : UInt64 × UInt64)
    (hfirst : p.1.toNat = nonceBegin.toNat + i * quotient + min i remainder)
    (hlast : p.2.toNat + 1 = nonceBegin.toNat + (i + 1) * quotient + min (i + 1) remainder) :
    IsShare nonceBegin quotient remainder i (NonceRange.narrow p) ∧
      p.1.toUInt32.toUInt64 = p.1 ∧ p.2.toUInt32.toUInt64 = p.2 := by
  have hle : (i + 1) * quotient ≤ active * quotient := Nat.mul_le_mul_right _ hi
  have hmul : (i + 1) * quotient = i * quotient + quotient := by ring
  have htotal := hshares.total
  have hpos := hshares.quotient_pos
  have hend := nonceEnd.toNat_lt
  have hsmall : p.1.toNat < 2 ^ 32 ∧ p.2.toNat < 2 ^ 32 := by omega
  have hkept (v : UInt64) (hv : v.toNat < 2 ^ 32) : v.toUInt32.toNat = v.toNat := by
    rw [UInt64.toNat_toUInt32]
    omega
  refine ⟨⟨?_, ?_⟩, UInt64.toNat_inj.mp ?_, UInt64.toNat_inj.mp ?_⟩
  · rw [← hfirst]
    exact hkept p.1 hsmall.1
  · rw [← hlast]
    exact congrArg (· + 1) (hkept p.2 hsmall.2)
  · rw [UInt32.toNat_toUInt64, hkept p.1 hsmall.1]
  · rw [UInt32.toNat_toUInt64, hkept p.2 hsmall.2]

/-- The ranges of a partition, each by its number. -/
theorem partition_shares (horder : nonceBegin.toNat ≤ nonceEnd.toNat)
    (hworkers : 0 < workerCount.toNat) :
    ∃ quotient remainder active, Shares nonceBegin nonceEnd workerCount quotient remainder active ∧
      (partitionValues nonceBegin nonceEnd workerCount).length = active ∧
      (∀ (i : Nat) r, ((partitionValues nonceBegin nonceEnd workerCount).map
        NonceRange.narrow)[i]? = some r → IsShare nonceBegin quotient remainder i r) ∧
      ∀ p ∈ partitionValues nonceBegin nonceEnd workerCount,
        p.1.toUInt32.toUInt64 = p.1 ∧ p.2.toUInt32.toUInt64 = p.2 := by
  rcases partitionValues_getElem? nonceBegin nonceEnd workerCount horder hworkers with
    ⟨quotient, remainder, active, hshares, hlen, hvalues⟩
  -- The values with number `i` are those of the formula.
  have hentry : ∀ (i : Nat) p, (partitionValues nonceBegin nonceEnd workerCount)[i]? = some p →
      IsShare nonceBegin quotient remainder i (NonceRange.narrow p) ∧
        p.1.toUInt32.toUInt64 = p.1 ∧ p.2.toUInt32.toUInt64 = p.2 := by
    intro i p hp
    have hi : i < active := by
      rw [← hlen]
      exact (List.getElem?_eq_some_iff.mp hp).1
    rcases hvalues i hi with ⟨p', hp', hfirst, hlast⟩
    rw [hp, Option.some.injEq] at hp'
    rw [← hp'] at hfirst hlast
    exact narrow_isShare nonceBegin nonceEnd workerCount quotient remainder active hshares i hi p
      hfirst hlast
  refine ⟨quotient, remainder, active, hshares, hlen, fun i r hr => ?_, fun p hp => ?_⟩
  · rw [List.getElem?_map, Option.map_eq_some_iff] at hr
    rcases hr with ⟨p, hp, rfl⟩
    exact (hentry i p hp).1
  · rcases List.getElem?_of_mem hp with ⟨i, hi⟩
    exact (hentry i p hi).2

end

/-- The partition of every range over every positive number of workers. The
    ranges are as many as there are workers, or nonces if those are fewer. They
    follow each other without gap from the first nonce to the last, the larger
    ones come first and are larger by one, and no value of the loop changes when
    it is stored in 32 bits. So every nonce is in exactly one range. -/
theorem partition_exact (nonceBegin nonceEnd : UInt32) (workerCount : UInt64)
    (horder : nonceBegin ≤ nonceEnd) (hworkers : workerCount ≠ 0) :
    ∃ ranges, partitionNonceRange nonceBegin nonceEnd workerCount = .ok ranges ∧
      ranges.length = min (nonceEnd.toNat - nonceBegin.toNat + 1) workerCount.toNat ∧
      (∀ r ∈ ranges, r.rangeBegin ≤ r.rangeEnd) ∧
      (∃ r, ranges.head? = some r ∧ r.rangeBegin = nonceBegin) ∧
      (∃ r, ranges.getLast? = some r ∧ r.rangeEnd = nonceEnd) ∧
      (∀ (i : Nat) r s, ranges[i]? = some r → ranges[i + 1]? = some s →
        s.rangeBegin.toNat = r.rangeEnd.toNat + 1) ∧
      (∀ (i j : Nat) r s, i < j → ranges[i]? = some r → ranges[j]? = some s →
        s.size ≤ r.size ∧ r.size ≤ s.size + 1) ∧
      (ranges = (partitionValues nonceBegin nonceEnd workerCount).map NonceRange.narrow ∧
        ∀ p ∈ partitionValues nonceBegin nonceEnd workerCount,
          p.1.toUInt32.toUInt64 = p.1 ∧ p.2.toUInt32.toUInt64 = p.2) ∧
      ∀ nonce, nonceBegin ≤ nonce → nonce ≤ nonceEnd →
        ∃! i : Nat, ∃ r, ranges[i]? = some r ∧ r.rangeBegin ≤ nonce ∧ nonce ≤ r.rangeEnd := by
  have hle : nonceBegin.toNat ≤ nonceEnd.toNat := UInt32.le_iff_toNat_le.mp horder
  have hpos : 0 < workerCount.toNat :=
    Nat.pos_of_ne_zero fun hzero => hworkers (UInt64.toNat_inj.mp hzero)
  have hpartition := partitionNonceRange_eq nonceBegin nonceEnd workerCount horder hworkers
  rcases partitionNonceRange_ok nonceBegin nonceEnd workerCount _ hpartition with
    ⟨_, htiles, hlength⟩
  rcases partition_shares nonceBegin nonceEnd workerCount hle hpos with
    ⟨quotient, remainder, active, hshares, hlen, hentry, hkept⟩
  have hcount : ((partitionValues nonceBegin nonceEnd workerCount).map
      NonceRange.narrow).length = active := by
    rw [List.length_map, hlen]
  generalize hranges : (partitionValues nonceBegin nonceEnd workerCount).map NonceRange.narrow
    = ranges at hpartition htiles hlength hcount hentry
  have htotal := hshares.total
  have hrem := hshares.remainder_lt
  have hne : ranges ≠ [] := by
    rintro rfl
    rw [List.length_nil] at hlength
    omega
  refine ⟨ranges, hpartition, by omega, ?_, ?_, ?_, ?_, ?_, ⟨rfl, hkept⟩, ?_⟩
  · intro r hr
    rcases List.getElem?_of_mem hr with ⟨i, hi⟩
    rcases (hentry i r hi).size with ⟨hend, hsize⟩
    have hquotient := hshares.quotient_pos
    rw [UInt32.le_iff_toNat_le]
    omega
  · refine ⟨ranges.head hne, List.head?_eq_some_head hne, UInt32.toNat_inj.mp ?_⟩
    have hfirst := (hentry 0 (ranges.head hne) (by
      rw [← List.head?_eq_getElem?, List.head?_eq_some_head hne])).first
    rw [hfirst]
    omega
  · refine ⟨ranges.getLast hne, List.getLast?_eq_some_getLast hne, UInt32.toNat_inj.mp ?_⟩
    have hlast := (hentry (ranges.length - 1) (ranges.getLast hne) (by
      rw [← List.getLast?_eq_getElem?, List.getLast?_eq_some_getLast hne])).last
    -- The last share ends where the range does.
    have hactive : ranges.length - 1 + 1 = active := by omega
    rw [hactive] at hlast
    omega
  · intro i r s hr hs
    have hlast := (hentry i r hr).last
    have hfirst := (hentry (i + 1) s hs).first
    omega
  · intro i j r s hij hr hs
    exact (hentry i r hr).balanced _ _ _ _ _ _ _ (hentry j s hs) hij
  · intro nonce hlow hhigh
    rw [UInt32.le_iff_toNat_le] at hlow hhigh
    simp only [UInt32.le_iff_toNat_le]
    rcases tiles_cover _ _ _ nonce.toNat htiles hlow (by omega) with ⟨span, hspan, hin⟩
    rcases List.mem_map.mp hspan with ⟨range, hrange, rfl⟩
    rcases List.getElem?_of_mem hrange with ⟨i, hi⟩
    simp only [NonceRange.span] at hin
    have hrange : range.rangeBegin.toNat ≤ nonce.toNat ∧ nonce.toNat ≤ range.rangeEnd.toNat :=
      ⟨hin.1, by omega⟩
    refine ⟨i, ⟨range, hi, hrange⟩, ?_⟩
    rintro j ⟨s, hs, hnonce⟩
    exact (hentry i range hi).unique _ _ _ _ _ nonce.toNat _ _ (hentry j s hs) hrange hnonce

/-- The whole space of 2^32 nonces over three workers. -/
theorem partition_exact_full_range :
    ∃ ranges, partitionNonceRange 0 0xffffffff 3 = .ok ranges ∧ ranges.length = 3 ∧
      ∃! i : Nat, ∃ r, ranges[i]? = some r ∧ r.rangeBegin ≤ 0x80000000 ∧
        0x80000000 ≤ r.rangeEnd := by
  rcases partition_exact 0 0xffffffff 3 (by decide) (by decide) with
    ⟨ranges, hranges, hlength, _, _, _, _, _, _, hunique⟩
  exact ⟨ranges, hranges, hlength, hunique 0x80000000 (by decide) (by decide)⟩

end MercaMiner
