import MercaMiner.Core.Mercahash.Mix
import MercaMiner.Core.Sha3

/-!
# MercaHash With Its Hashers

How `crypto/mercahash.cpp` uses SHA-3: hasher objects that are written to a
part at a time and then finalized.

A hasher the source declares without an initialiser has a buffer that holds
anything; `garbage` says what, by the step of the checkpoint the hasher is
declared in and by zero for the last one. The temporaries of `InitialState`
are value-initialised.

## Main definitions

* `initialStateHashed`, `checkpointHashed`, `finalizeHashed`: The three uses.
* `hashHashed`: The hash function.
-/

namespace MercaMiner

/-- `WriteHashUint64`, of which the source has one for each hasher. -/
def Sha3.writeHashUint64 {v : Variant} (hasher : Sha3 v) (value : UInt64) : Sha3 v :=
  hasher.write (LittleEndian.bytes 8 value.toNat)

namespace Mercahash

def initialStateHashed (header : Bytes) : State :=
  let hasher : Sha3_512 := Sha3.new .sha3_512 (Vector.replicate 8 0)
  let digest0 := Sha3_512.digest ((hasher.write stateDomain0).write header)
  let digest1 := Sha3_512.digest ((hasher.write stateDomain1).write header)
  (Vector.ofFn (digestWord digest0) ++ Vector.ofFn (digestWord digest1) : Vector UInt64 (8 + 8))

/-- The hasher a checkpoint finalizes. -/
def checkpointHasher (buffer : Vector UInt8 8) (state : State) (step : UInt64)
    (primary : PrimaryResult) (secondary : SecondaryResult) : Sha3_512 :=
  let hasher := (Sha3.new .sha3_512 buffer).write checkpointDomain
  let hasher := hasher.writeHashUint64 step
  let hasher := hasher.writeHashUint64 (UInt64.ofNat primary.lineIndex)
  let hasher := hasher.writeHashUint64 (UInt64.ofNat secondary.lineIndex)
  let hasher := state.toList.foldl Sha3.writeHashUint64 hasher
  let hasher := primary.written.toList.foldl Sha3.writeHashUint64 hasher
  secondary.written.toList.foldl Sha3.writeHashUint64 hasher

def checkpointHashed (buffer : Vector UInt8 8) (state : State) (step : UInt64)
    (primary : PrimaryResult) (secondary : SecondaryResult) : State :=
  let digest := (checkpointHasher buffer state step primary secondary).digest
  let state := forWords (fun j state =>
    let state := state.xorAt (lo j) (digestWord digest j)
    state.addAt (hi j) (rotl (digestWord digest (j + 3)) (checkpointRotation j))) state
  mercaARXRound state

section

variable (garbage : Nat → Vector UInt8 8)

def mixStepHashed (step : Nat) (w : Workspace) : Option Workspace := do
  let buffer := garbage step
  let step := UInt64.ofNat step
  let (primary, w) ← primaryStep w step
  if step % secondaryInterval = 0 then
    let (secondary, w) ← secondaryStep w step primary
    let state := if step % crossLaneInterval = 0 then crossLaneMix w.state step else w.state
    let state := if step % checkpointInterval = 0 then
      checkpointHashed buffer state step primary secondary else state
    return { w with state := state }
  else
    return w

def finalizeHashed (state : State) (header : Bytes) : UInt256 :=
  let hasher := ((Sha3.new .sha3_256 (garbage 0)).write finalDomain).write header
  Sha3_256.digest (state.toList.foldl Sha3.writeHashUint64 hasher)

/-- `Hash`, with the hashers it uses. -/
def hashHashed (header : Bytes) (scratchpad : Scratchpad) (params : WorkParams) :
    Option (UInt256 × Scratchpad) :=
  if header.length = headerSize ∧ params.mixSteps > 0 then do
    let w ← fillScratchpad ⟨initialStateHashed header, scratchpad⟩ params.scratchpadFill
    let b ← bindScratchpad ⟨w, none⟩ params.bindingPasses
    let w ← Loop.loop (mixStepHashed garbage) params.mixSteps.toNat 1 b.toWorkspace
    let state ← finalSample w.state w.scratchpad
    return (finalizeHashed garbage state header, w.scratchpad)
  else none

end

end Mercahash

end MercaMiner
