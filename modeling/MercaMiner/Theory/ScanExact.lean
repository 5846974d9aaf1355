import MercaMiner.Theory.PadIndependence

/-!
# A Scan Is Exact

What the three results of a scan say, for every schedule of the cancellation
flags.

A scan tries the nonces in order and stops at the first that meets the target,
at the end of its range, or before a nonce at which it sees a flag. So the
nonces it hashed are an initial part of the range, it counted exactly these,
and all but a found one missed. The counter never passes the end of the range,
which may be the largest number there is.

## Main definitions

* `MissedUpTo`: The nonces before some point were tried in vain.
* `ScanConcluded`: What a result says about the nonces that were tried.
* `hashV1Of`: The hash of a header with a nonce.

## Theorems

* `scanMemoryLoop_spec`: The loop, by induction on the nonces left.
* `scan_exact`: A scan of a range.
-/

namespace MercaMiner

/-- The first `k` nonces from `first` on were hashed in vain, and no flag was
    seen before any of them. -/
structure MissedUpTo (hashOf : UInt32 → UInt256) (target : UInt256)
    (readings : Nat → FlagReadings) (first k : Nat) : Prop where
  quiet : ∀ i, i < k → (readings i).any = false
  missed : ∀ nonce : UInt32, first ≤ nonce.toNat → nonce.toNat < first + k →
    meetsTarget (hashOf nonce) target = false

/-- What the result of a scan from `first` to `last` says, when `count` nonces
    were hashed. -/
def ScanConcluded (hashOf : UInt32 → UInt256) (target : UInt256) (readings : Nat → FlagReadings)
    (first last : Nat) (result : ScanResult) (count : Nat) : Prop :=
  match result.status with
  | .found => ∃ k, count = k + 1 ∧ MissedUpTo hashOf target readings first k ∧
      (readings k).any = false ∧ result.nonce.toNat = first + k ∧ first + k ≤ last ∧
      result.hash = hashOf result.nonce ∧ meetsTarget result.hash target = true
  | .exhausted => MissedUpTo hashOf target readings first count ∧ first + count = last + 1 ∧
      result.nonce.toNat = last ∧ result.hash = hashOf result.nonce
  | .cancelled => MissedUpTo hashOf target readings first count ∧ (readings count).any = true ∧
      result.nonce.toNat = first + count ∧ first + count ≤ last ∧ result.hash = UInt256.zero

section

variable (hashOf : UInt32 → UInt256) (target : UInt256) (readings : Nat → FlagReadings)

theorem MissedUpTo.nil (first : Nat) : MissedUpTo hashOf target readings first 0 :=
  ⟨fun _ hi => absurd hi (Nat.not_lt_zero _), fun _ hlow hhigh => by omega⟩

/-- One nonce more, in front. -/
theorem MissedUpTo.cons (nonce : UInt32) (k : Nat) (hquiet : (readings 0).any = false)
    (hmiss : meetsTarget (hashOf nonce) target = false)
    (h : MissedUpTo hashOf target (fun i => readings (i + 1)) (nonce.toNat + 1) k) :
    MissedUpTo hashOf target readings nonce.toNat (k + 1) := by
  refine ⟨fun i hi => ?_, fun n hlow hhigh => ?_⟩
  · cases i with
    | zero => exact hquiet
    | succ i => exact h.quiet i (by omega)
  · -- The nonce in front, or one the rest of the scan tried.
    by_cases hn : n = nonce
    · rw [hn]
      exact hmiss
    · have hne : n.toNat ≠ nonce.toNat := fun heq => hn (UInt32.toNat_inj.mp heq)
      exact h.missed n (by omega) (by omega)

/-- A scan that goes on after its first nonce concludes what the rest of it
    does. -/
theorem ScanConcluded.cons (nonce : UInt32) (last count : Nat) (result : ScanResult)
    (hquiet : (readings 0).any = false) (hmiss : meetsTarget (hashOf nonce) target = false)
    (h : ScanConcluded hashOf target (fun i => readings (i + 1)) (nonce.toNat + 1) last result
      count) : ScanConcluded hashOf target readings nonce.toNat last result (count + 1) := by
  rw [ScanConcluded] at h ⊢
  cases hstatus : result.status with
  | found =>
      rw [hstatus] at h
      rcases h with ⟨k, rfl, hmissed, hflags, hnonce, hle, hfound⟩
      exact ⟨k + 1, rfl, hmissed.cons hashOf target readings nonce k hquiet hmiss, hflags,
        by omega, by omega, hfound⟩
  | exhausted =>
      rw [hstatus] at h
      rcases h with ⟨hmissed, hcount, hnonce⟩
      exact ⟨hmissed.cons hashOf target readings nonce count hquiet hmiss, by omega, hnonce⟩
  | cancelled =>
      rw [hstatus] at h
      rcases h with ⟨hmissed, hflags, hnonce, hle, hzero⟩
      exact ⟨hmissed.cons hashOf target readings nonce count hquiet hmiss, hflags, by omega,
        by omega, hzero⟩

theorem ScanConcluded.count_le (first last count : Nat) (result : ScanResult)
    (h : ScanConcluded hashOf target readings first last result count) :
    first + count ≤ last + 1 := by
  rw [ScanConcluded] at h
  cases hstatus : result.status with
  | found =>
      rw [hstatus] at h
      rcases h with ⟨k, rfl, _, _, _, hle, _⟩
      omega
  | exhausted =>
      rw [hstatus] at h
      exact Nat.le_of_eq h.2.1
  | cancelled =>
      rw [hstatus] at h
      omega

end

section

variable {Pad : Type} (hashV1 : Bytes → Pad → UInt256 × Pad) (header : BlockHeader)
  (target : UInt256) (hashOf : UInt32 → UInt256)

/-- The loop with its memory, when the hash does not depend on the scratchpad.
    The induction is on the bound, which exceeds the nonces left. -/
theorem scanMemoryLoop_spec
    (hhash : ∀ nonce pad, (hashV1 (headerBytes header nonce) pad).1 = hashOf nonce)
    (fuel : Nat) (readings : Nat → FlagReadings) (f : ScanFrame) (m : ScanMemory Pad)
    (hcopy : ∀ nonce, { m.candidateHeader with nonce := nonce } = { header with nonce := nonce })
    (hle : f.nonce.toNat ≤ f.nonceEnd.toNat)
    (hfuel : f.nonceEnd.toNat - f.nonce.toNat < fuel) :
    ∃ result m' count, scanMemoryLoop hashV1 target fuel readings f m = some (result, m') ∧
      ScanConcluded hashOf target readings f.nonce.toNat f.nonceEnd.toNat result count ∧
      result.hashesChecked = f.hashesChecked + UInt64.ofNat count ∧
      m'.header = m.header ∧
      m'.liveHashes = m.liveHashes.map (· + UInt64.ofNat count) ∧
      m'.hashed.map UInt32.toNat =
        m.hashed.map UInt32.toNat ++ List.range' f.nonce.toNat count := by
  induction fuel generalizing readings f m with
  | zero => omega
  | succ k ih =>
      rw [scanMemoryLoop]
      by_cases hany : (readings 0).any = true
      · -- Interrupted before the next nonce: nothing is hashed any more.
        rw [if_pos hany]
        refine ⟨f.interrupt, m, 0, rfl, ?_, (UInt64.add_zero _).symm, rfl, ?_, ?_⟩
        · exact ⟨MissedUpTo.nil hashOf target readings _, hany, rfl, hle, rfl⟩
        · cases m.liveHashes with
          | none => rfl
          | some n => exact congrArg some (UInt64.add_zero n).symm
        · rw [List.range'_zero, List.append_nil]
      have hquiet : (readings 0).any = false := Bool.eq_false_of_not_eq_true hany
      have hvalue : (m.hashNonce hashV1 f.nonce).1 = hashOf f.nonce := by
        rw [← hhash f.nonce m.scratchpad, headerBytes, ← hcopy f.nonce]
        rfl
      have hhashed : (m.hashNonce hashV1 f.nonce).2.hashed.map UInt32.toNat
          = m.hashed.map UInt32.toNat ++ List.range' f.nonce.toNat 1 :=
        List.map_append
      rw [if_neg hany]
      simp only [hvalue, ScanFrame.conclude]
      by_cases hmeets : meetsTarget (hashOf f.nonce) target = true
      · rw [if_pos hmeets]
        exact ⟨_, _, 1, rfl, ⟨0, rfl, MissedUpTo.nil hashOf target readings _, hquiet, rfl, hle,
          rfl, hmeets⟩, rfl, rfl, rfl, hhashed⟩
      have hmiss : meetsTarget (hashOf f.nonce) target = false :=
        Bool.eq_false_of_not_eq_true hmeets
      rw [if_neg hmeets]
      by_cases hend : f.nonce = f.nonceEnd
      · rw [if_pos hend]
        refine ⟨_, _, 1, rfl, ⟨?_, ?_, ?_, rfl⟩, rfl, rfl, rfl, hhashed⟩
        · exact (MissedUpTo.nil hashOf target _ _).cons hashOf target readings f.nonce 0 hquiet
            hmiss
        · rw [hend]
        · rw [hend]
      rw [if_neg hend]
      have hne : f.nonce.toNat ≠ f.nonceEnd.toNat := fun h => hend (UInt32.toNat_inj.mp h)
      have hbound := f.nonceEnd.toNat_lt
      -- The nonce is below the end of the range, so it does not wrap.
      have hnext : (f.nonce + 1).toNat = f.nonce.toNat + 1 := by
        rw [UInt32.toNat_add, UInt32.toNat_one]
        omega
      rcases ih (fun i => readings (i + 1))
        { f with nonce := f.nonce + 1, hashesChecked := f.hashesChecked + 1 }
        (m.hashNonce hashV1 f.nonce).2 (fun nonce => hcopy nonce) (by
          simp only [hnext]
          omega) (by
          simp only [hnext]
          omega) with
        ⟨result, m', count, hloop, hconcluded, hchecked, hheader, hlive, hmore⟩
      simp only [hnext] at hconcluded hmore
      have hcount (n : UInt64) : n + 1 + UInt64.ofNat count = n + UInt64.ofNat (count + 1) := by
        rw [UInt64.ofNat_add, UInt64.add_assoc, UInt64.add_comm (UInt64.ofNat count)]
        rfl
      refine ⟨result, m', count + 1, hloop,
        hconcluded.cons hashOf target readings f.nonce _ count result hquiet hmiss, ?_, hheader,
        ?_, ?_⟩
      · -- The counter, the caller's counter and the list have grown alike.
        rw [hchecked, hcount]
      · rw [hlive]
        cases hm : m.liveHashes with
        | none => simp only [ScanMemory.hashNonce, hm, Option.map_none]
        | some n => simp only [ScanMemory.hashNonce, hm, Option.map_some, hcount]
      · rw [hmore, hhashed, List.append_assoc, List.range'_append_1, Nat.add_comm 1 count]

end

section

variable (sha3_512 : Bytes → Vector UInt8 64) (sha3_256 : Bytes → UInt256) (header : BlockHeader)

/-- The hash of a header with a nonce. -/
def hashV1Of (nonce : UInt32) : UInt256 :=
  (Mercahash.scannerHash sha3_512 sha3_256 (headerBytes header nonce)
    Mercahash.freshScratchpad).1

/-- It is what the hash function computes, whatever the scratchpad holds. -/
theorem hashV1Of_eq (nonce : UInt32) (pad : Mercahash.Scratchpad) :
    (Mercahash.hashV1 sha3_512 sha3_256 (headerBytes header nonce) pad).map Prod.fst
      = some (hashV1Of sha3_512 sha3_256 header nonce) := by
  have hlen : (headerBytes header nonce).length = Mercahash.headerSize :=
    BlockHeader.length_serialize _
  rw [Mercahash.scannerHash_eq sha3_512 sha3_256 _ hlen pad,
    Mercahash.scannerHash_forgets sha3_512 sha3_256 header nonce pad Mercahash.freshScratchpad]
  rfl

/-- A scan on the scanner's scratchpad. -/
def nonceScan (target : UInt256) (readings : Nat → FlagReadings) (nonceBegin nonceEnd : UInt32)
    (pad : Mercahash.Scratchpad) (liveHashes : Option UInt64) :
    Except ScanError (Option (ScanResult × ScanMemory Mercahash.Scratchpad)) :=
  scanInMemory (Mercahash.scannerHash sha3_512 sha3_256) header target readings nonceBegin nonceEnd
    pad liveHashes

end

/-- A scan of a range, for every schedule of the three flags. It throws exactly
    for a reversed range. Otherwise it returns, the nonces it hashed are the
    first ones of the range in order, and each of the three results means what
    it says. -/
theorem scan_exact (sha3_512 : Bytes → Vector UInt8 64) (sha3_256 : Bytes → UInt256)
    (header : BlockHeader) (target : UInt256) (readings : Nat → FlagReadings)
    (nonceBegin nonceEnd : UInt32) (pad : Mercahash.Scratchpad) (liveHashes : Option UInt64) :
    ((∃ e, nonceScan sha3_512 sha3_256 header target readings nonceBegin nonceEnd pad liveHashes
      = .error e) ↔ nonceBegin > nonceEnd) ∧
    (nonceBegin ≤ nonceEnd → ∃ result memory,
      nonceScan sha3_512 sha3_256 header target readings nonceBegin nonceEnd pad liveHashes
        = .ok (some (result, memory)) ∧
      memory.header = header ∧
      memory.liveHashes = liveHashes.map (· + result.hashesChecked) ∧
      memory.hashed.map UInt32.toNat
        = List.range' nonceBegin.toNat result.hashesChecked.toNat ∧
      nonceBegin ≤ result.nonce ∧ result.nonce ≤ nonceEnd ∧
      (result.status = .found →
        meetsTarget (hashV1Of sha3_512 sha3_256 header result.nonce) target = true ∧
        result.hash = hashV1Of sha3_512 sha3_256 header result.nonce ∧
        (∀ n, nonceBegin ≤ n → n < result.nonce →
          meetsTarget (hashV1Of sha3_512 sha3_256 header n) target = false) ∧
        result.hashesChecked.toNat = result.nonce.toNat - nonceBegin.toNat + 1) ∧
      (result.status = .exhausted →
        (∀ n, nonceBegin ≤ n → n ≤ nonceEnd →
          meetsTarget (hashV1Of sha3_512 sha3_256 header n) target = false) ∧
        result.nonce = nonceEnd ∧ result.hash = hashV1Of sha3_512 sha3_256 header nonceEnd ∧
        result.hashesChecked.toNat = nonceEnd.toNat - nonceBegin.toNat + 1) ∧
      (result.status = .cancelled →
        (readings (result.nonce.toNat - nonceBegin.toNat)).any = true ∧
        (∀ n, nonceBegin ≤ n → n < result.nonce →
          meetsTarget (hashV1Of sha3_512 sha3_256 header n) target = false) ∧
        result.hashesChecked.toNat = result.nonce.toNat - nonceBegin.toNat)) := by
  refine ⟨?_, fun horder => ?_⟩
  · rw [nonceScan, scanInMemory]
    by_cases horder : nonceBegin > nonceEnd
    · rw [if_pos horder]
      exact iff_of_true ⟨_, rfl⟩ horder
    · rw [if_neg horder]
      exact iff_of_false (by simp only [reduceCtorEq, exists_false, not_false_eq_true]) horder
  have hle : nonceBegin.toNat ≤ nonceEnd.toNat := UInt32.le_iff_toNat_le.mp horder
  have hlt := nonceEnd.toNat_lt
  have hhash : ∀ nonce pad, (Mercahash.scannerHash sha3_512 sha3_256 (headerBytes header nonce)
      pad).1 = hashV1Of sha3_512 sha3_256 header nonce := fun nonce pad => by
    rw [Mercahash.scannerHash_forgets sha3_512 sha3_256 header nonce pad Mercahash.freshScratchpad]
    rfl
  rcases scanMemoryLoop_spec _ header target _ hhash ((nonceEnd - nonceBegin).toNat + 1) readings
    (ScanFrame.start nonceBegin nonceEnd) ⟨header, header, pad, liveHashes, []⟩ (fun _ => rfl) hle
    (by
      rw [UInt32.toNat_sub_of_le _ _ horder]
      exact Nat.lt_succ_self _) with
    ⟨result, memory, count, hloop, hconcluded, hchecked, hheader, hlive, hhashed⟩
  -- The count fits its variable, because the range has at most 2^32 nonces.
  have hcountLe := hconcluded.count_le _ target readings _ _ count result
  have hzero : (ScanFrame.start nonceBegin nonceEnd).hashesChecked = 0 := rfl
  rw [hzero, UInt64.zero_add] at hchecked
  simp only [ScanFrame.start] at hconcluded hcountLe hhashed
  have hcount : result.hashesChecked.toNat = count := by
    rw [hchecked, UInt64.toNat_ofNat']
    omega
  have hnot : ¬nonceBegin > nonceEnd := UInt32.not_lt.mpr horder
  refine ⟨result, memory, ?_, hheader, by rw [hlive, hchecked], by rw [hhashed, hcount]; rfl, ?_⟩
  · rw [nonceScan, scanInMemory, if_neg hnot, hloop]
  rw [ScanConcluded] at hconcluded
  simp only [UInt32.le_iff_toNat_le, UInt32.lt_iff_toNat_lt]
  cases hstatus : result.status with
  | found =>
      rw [hstatus] at hconcluded
      rcases hconcluded with ⟨k, rfl, hmissed, _, hnonce, hend, hvalue, hmeets⟩
      refine ⟨by omega, by omega, fun _ => ⟨hvalue ▸ hmeets, hvalue, fun n hlow hhigh => ?_,
        by omega⟩, fun h => absurd h (by simp only [reduceCtorEq, not_false_eq_true]),
        fun h => absurd h (by simp only [reduceCtorEq, not_false_eq_true])⟩
      exact hmissed.missed n hlow (by omega)
  | exhausted =>
      rw [hstatus] at hconcluded
      rcases hconcluded with ⟨hmissed, hend, hnonce, hvalue⟩
      have hlast : result.nonce = nonceEnd := UInt32.toNat_inj.mp hnonce
      refine ⟨by omega, by omega, fun h => absurd h (by
        simp only [reduceCtorEq, not_false_eq_true]), fun _ => ⟨fun n hlow hhigh => ?_, hlast,
        hlast ▸ hvalue, by omega⟩, fun h => absurd h (by
        simp only [reduceCtorEq, not_false_eq_true])⟩
      exact hmissed.missed n hlow (by omega)
  | cancelled =>
      rw [hstatus] at hconcluded
      rcases hconcluded with ⟨hmissed, hflags, hnonce, hend, _⟩
      have hindex : result.nonce.toNat - nonceBegin.toNat = count := by omega
      refine ⟨by omega, by omega, fun h => absurd h (by
        simp only [reduceCtorEq, not_false_eq_true]), fun h => absurd h (by
        simp only [reduceCtorEq, not_false_eq_true]), fun _ => ⟨hindex ▸ hflags,
        fun n hlow hhigh => ?_, by omega⟩⟩
      exact hmissed.missed n hlow (by omega)

/-- A scan of the last nonce there is does not go past it. -/
theorem scan_exact_last_nonce :
    ∃ result memory, nonceScan (fun _ => Vector.replicate 64 0) (fun _ => UInt256.zero)
        ⟨0, UInt256.zero, UInt256.zero, 0, 0, 0⟩ UInt256.zero (fun _ => ⟨some false, none, none⟩)
        0xffffffff 0xffffffff Mercahash.freshScratchpad (some 7) = .ok (some (result, memory)) ∧
      result.nonce = 0xffffffff ∧ memory.liveHashes = some (7 + result.hashesChecked) := by
  rcases (scan_exact (fun _ => Vector.replicate 64 0) (fun _ => UInt256.zero)
    ⟨0, UInt256.zero, UInt256.zero, 0, 0, 0⟩ UInt256.zero (fun _ => ⟨some false, none, none⟩)
    0xffffffff 0xffffffff Mercahash.freshScratchpad (some 7)).2 (by decide) with
    ⟨result, memory, hscan, _, hlive, _, hlow, hhigh, _⟩
  exact ⟨result, memory, hscan, UInt32.le_antisymm hhigh hlow, hlive⟩

end MercaMiner
