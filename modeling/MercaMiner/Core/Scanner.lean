import MercaMiner.Core.Header
import MercaMiner.Core.Target

/-!
# The Nonce Scanner

Searching one range of nonces with one thread, from `scanner.cpp`.

A scan tries one nonce after the other. Before each it reads up to three
cancellation flags, which other threads may raise at any time; a flag the
caller did not pass is not read. `ScanFrame` holds the loop's local variables,
so that the parallel miner can interleave scans step by step with the same
two operations: `ScanFrame.interrupt` and `ScanFrame.conclude`.

The hash function works in a scratchpad the scanner owns and reuses, which is
a parameter here together with the function. `scan` follows the result and the
scratchpad. `scanInMemory` is the same scan with everything it works on: the
caller's header, the copy the nonce is written to, and the caller's counter.

## Main definitions

* `ScanResult`: What a scan returns.
* `ScanFrame`: The local variables of a scan.
* `Flag`, `raised`: A nullable flag and reading it.
* `scan`: A whole scan, for given readings of the flags.
* `ScanMemory`, `scanInMemory`: A scan with the objects it works on.

## Theorems

* `scanLoop_congr`: What a scan depends on.
* `scanLoop_isSome`: A scan returns.
* `scanInMemory_eq`: The two forms of a scan agree.
-/

namespace MercaMiner

inductive ScanStatus where
  | found
  | exhausted
  | cancelled
  deriving DecidableEq

structure ScanResult where
  status : ScanStatus
  nonce : UInt32
  hash : UInt256
  hashesChecked : UInt64
  deriving DecidableEq

/-- A flag given by pointer: absent, or present with its current value. -/
abbrev Flag := Option Bool

/-- The test `flag != nullptr && flag->load()`. -/
def raised (flag : Flag) : Bool :=
  flag == some true

/-- The local variables of a scan in progress. -/
structure ScanFrame where
  nonce : UInt32
  nonceEnd : UInt32
  hashesChecked : UInt64

namespace ScanFrame

/-- The variables on entry. -/
def start (nonceBegin nonceEnd : UInt32) : ScanFrame :=
  ⟨nonceBegin, nonceEnd, 0⟩

/-- The result when a flag was seen raised. -/
def interrupt (f : ScanFrame) : ScanResult :=
  ⟨.cancelled, f.nonce, UInt256.zero, f.hashesChecked⟩

/-- The rest of an iteration, once its hash is computed: either the scan is
    over or it goes on with the next nonce. -/
def conclude (f : ScanFrame) (target hash : UInt256) : ScanFrame ⊕ ScanResult :=
  let hashesChecked := f.hashesChecked + 1
  if meetsTarget hash target then .inr ⟨.found, f.nonce, hash, hashesChecked⟩
  -- The end is tested before the increment, so the nonce cannot wrap.
  else if f.nonce = f.nonceEnd then .inr ⟨.exhausted, f.nonce, hash, hashesChecked⟩
  else .inl { f with nonce := f.nonce + 1, hashesChecked := hashesChecked }

end ScanFrame

/-- The bytes hashed for a nonce. -/
def headerBytes (header : BlockHeader) (nonce : UInt32) : Bytes :=
  BlockHeader.serialize { header with nonce := nonce }

/-- What the three flags hold when an iteration reads them. -/
structure FlagReadings where
  cancelled : Flag
  cancelledSecondary : Flag
  cancelledTertiary : Flag

def FlagReadings.any (r : FlagReadings) : Bool :=
  raised r.cancelled || raised r.cancelledSecondary || raised r.cancelledTertiary

/-- A scan and its exception. -/
inductive ScanError where
  | beginExceedsEnd
  deriving DecidableEq

def ScanError.what : ScanError → String
  | beginExceedsEnd => "nonce range begin exceeds nonce range end"

section

variable {Pad : Type} (hashV1 : Bytes → Pad → UInt256 × Pad) (header : BlockHeader)
  (target : UInt256)

/-- The loop of a scan. The flag readings are listed iteration by iteration,
    and the first argument bounds the number of iterations. -/
def scanLoop : Nat → (Nat → FlagReadings) → ScanFrame → Pad → Option (ScanResult × Pad)
  | 0, _, _, _ => none
  | fuel + 1, readings, f, pad =>
      if (readings 0).any then some (f.interrupt, pad)
      else
        let (hash, pad') := hashV1 (headerBytes header f.nonce) pad
        match f.conclude target hash with
        | .inr result => some (result, pad')
        | .inl next => scanLoop fuel (fun i => readings (i + 1)) next pad'

/-- A scan of the nonces from `nonceBegin` to `nonceEnd`. -/
def scan (readings : Nat → FlagReadings) (nonceBegin nonceEnd : UInt32) (pad : Pad) :
    Except ScanError (Option (ScanResult × Pad)) :=
  if nonceBegin > nonceEnd then .error .beginExceedsEnd
  else .ok (scanLoop hashV1 header target ((nonceEnd - nonceBegin).toNat + 1) readings
    (ScanFrame.start nonceBegin nonceEnd) pad)

/-- What a scan works on. The nonces hashed so far are not a variable of the
    program. -/
structure ScanMemory (Pad : Type) where
  header : BlockHeader
  candidateHeader : BlockHeader
  scratchpad : Pad
  liveHashes : Option UInt64
  hashed : List UInt32

/-- Writing a nonce into the copied header, hashing the copy and counting. -/
def ScanMemory.hashNonce (m : ScanMemory Pad) (nonce : UInt32) : UInt256 × ScanMemory Pad :=
  let candidateHeader := { m.candidateHeader with nonce := nonce }
  let (hash, scratchpad) := hashV1 candidateHeader.serialize m.scratchpad
  (hash, { m with
    candidateHeader := candidateHeader
    scratchpad := scratchpad
    liveHashes := m.liveHashes.map (· + 1)
    hashed := m.hashed ++ [nonce] })

/-- The loop of a scan with its memory. -/
def scanMemoryLoop : Nat → (Nat → FlagReadings) → ScanFrame → ScanMemory Pad →
    Option (ScanResult × ScanMemory Pad)
  | 0, _, _, _ => none
  | fuel + 1, readings, f, m =>
      if (readings 0).any then some (f.interrupt, m)
      else
        let (hash, m') := m.hashNonce hashV1 f.nonce
        match f.conclude target hash with
        | .inr result => some (result, m')
        | .inl next => scanMemoryLoop fuel (fun i => readings (i + 1)) next m'

/-- A scan with its memory. The copy of the header is made on entry. -/
def scanInMemory (readings : Nat → FlagReadings) (nonceBegin nonceEnd : UInt32) (pad : Pad)
    (liveHashes : Option UInt64) : Except ScanError (Option (ScanResult × ScanMemory Pad)) :=
  if nonceBegin > nonceEnd then .error .beginExceedsEnd
  else .ok (scanMemoryLoop hashV1 target ((nonceEnd - nonceBegin).toNat + 1) readings
    (ScanFrame.start nonceBegin nonceEnd) ⟨header, header, pad, liveHashes, []⟩)

/-- Both loops hash the same bytes, because the copy differs from the header in
    its nonce only. -/
theorem scanMemoryLoop_eq (fuel : Nat) (readings : Nat → FlagReadings) (f : ScanFrame)
    (m : ScanMemory Pad)
    (hcopy : ∀ nonce, { m.candidateHeader with nonce := nonce } = { header with nonce := nonce }) :
    (scanMemoryLoop hashV1 target fuel readings f m).map (fun p => (p.1, p.2.scratchpad)) =
      scanLoop hashV1 header target fuel readings f m.scratchpad := by
  induction fuel generalizing readings f m with
  | zero => rfl
  | succ k ih =>
      rw [scanMemoryLoop, scanLoop]
      by_cases hany : (readings 0).any = true
      · rw [if_pos hany, if_pos hany]
        rfl
      rw [if_neg hany, if_neg hany]
      -- The same bytes are hashed, so both loops conclude the same.
      simp only [ScanMemory.hashNonce, hcopy, headerBytes]
      cases f.conclude target
          (hashV1 (BlockHeader.serialize { header with nonce := f.nonce }) m.scratchpad).1 with
      | inr result => rfl
      | inl next => exact ih _ next _ fun nonce => rfl

theorem scanInMemory_eq (readings : Nat → FlagReadings) (nonceBegin nonceEnd : UInt32) (pad : Pad)
    (liveHashes : Option UInt64) :
    (scanInMemory hashV1 header target readings nonceBegin nonceEnd pad liveHashes).map
        (Option.map fun p => (p.1, p.2.scratchpad)) =
      scan hashV1 header target readings nonceBegin nonceEnd pad := by
  rw [scanInMemory, scan]
  by_cases horder : nonceBegin > nonceEnd
  · rw [if_pos horder, if_pos horder]
    rfl
  · rw [if_neg horder, if_neg horder, Except.map]
    exact congrArg Except.ok (scanMemoryLoop_eq hashV1 header target _ _ _ _ fun _ => rfl)

/-- A scan depends on the flags through whether any is up, and on the hash
    function through the hashes. -/
theorem scanLoop_congr {Pad' : Type} (hashV1' : Bytes → Pad' → UInt256 × Pad')
    (hhash : ∀ nonce pad pad', (hashV1 (headerBytes header nonce) pad).1
      = (hashV1' (headerBytes header nonce) pad').1)
    (fuel : Nat) (readings readings' : Nat → FlagReadings)
    (hany : ∀ i, (readings i).any = (readings' i).any) (f : ScanFrame) (pad : Pad) (pad' : Pad') :
    (scanLoop hashV1 header target fuel readings f pad).map Prod.fst =
      (scanLoop hashV1' header target fuel readings' f pad').map Prod.fst := by
  induction fuel generalizing readings readings' f pad pad' with
  | zero => rfl
  | succ k ih =>
      rw [scanLoop, scanLoop, ← hany 0]
      by_cases hseen : (readings 0).any = true
      · rw [if_pos hseen, if_pos hseen]
        rfl
      rw [if_neg hseen, if_neg hseen]
      simp only [hhash f.nonce pad pad']
      cases f.conclude target (hashV1' (headerBytes header f.nonce) pad').1 with
      | inr result => rfl
      | inl next => exact ih _ _ (fun i => hany (i + 1)) next _ _

/-- The bound suffices whenever it exceeds the number of nonces left. -/
theorem scanLoop_isSome (fuel : Nat) (readings : Nat → FlagReadings) (f : ScanFrame) (pad : Pad)
    (hle : f.nonce.toNat ≤ f.nonceEnd.toNat)
    (hfuel : f.nonceEnd.toNat - f.nonce.toNat < fuel) :
    (scanLoop hashV1 header target fuel readings f pad).isSome := by
  induction fuel generalizing readings f pad with
  | zero => omega
  | succ k ih =>
      rw [scanLoop]
      by_cases hany : (readings 0).any = true
      · rw [if_pos hany]
        rfl
      rw [if_neg hany]
      simp only [ScanFrame.conclude]
      by_cases hmeets : meetsTarget (hashV1 (headerBytes header f.nonce) pad).1 target = true
      · rw [if_pos hmeets]
        rfl
      rw [if_neg hmeets]
      by_cases hend : f.nonce = f.nonceEnd
      · rw [if_pos hend]
        rfl
      rw [if_neg hend]
      -- The scan goes on only below the end of its range.
      have hne : f.nonce.toNat ≠ f.nonceEnd.toNat := fun h => hend (UInt32.toNat_inj.mp h)
      have hbound := f.nonceEnd.toNat_lt
      have hnext : (f.nonce + 1).toNat = f.nonce.toNat + 1 := by
        rw [UInt32.toNat_add, UInt32.toNat_one]
        omega
      refine ih _ _ _ ?_ ?_
      · simp only [hnext]
        omega
      · simp only [hnext]
        omega

end

end MercaMiner
