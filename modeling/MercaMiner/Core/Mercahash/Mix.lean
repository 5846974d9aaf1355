import MercaMiner.Core.Mercahash.Bind

/-!
# Mixing the Scratchpad

The later phases of MercaHash and the whole function, from
`crypto/mercahash.cpp`.

Every mixing step reads and rewrites one line the state selects; every
sixteenth step does the same to a second, different line, and less often the
step mixes the whole state or absorbs it into SHA3. The final phase only
reads.

SHA3 is a pair of parameters: functions of the bytes written to the hasher.
A hasher under construction is the byte string written so far.

## Main definitions

* `primaryStep`, `secondaryStep`: The two kinds of line update.
* `mixScratchpad`: Mixing.
* `finalSample`: The reads at the end.
* `hash`, `hashV1`: The hash function, general and frozen.
-/

namespace MercaMiner

namespace Mercahash

def headerSize : Nat := 80

def secondaryInterval : UInt64 := 16

def crossLaneInterval : UInt64 := 64

def checkpointInterval : UInt64 := 1024

def finalReads : Nat := 256

structure PrimaryResult where
  lineIndex : Nat
  written : Line

/-- The line a step selects. -/
def primaryIndex (state : State) (step : UInt64) : Nat :=
  let primarySeed := state.get 0 ^^^ rotl (state.get 5) 17 ^^^ state.get 10 ^^^
    rotl (state.get 15) 41 ^^^ (step * constants 0)
  (primarySeed &&& lineMask).toNat

/-- Take the selected line into the state. -/
def absorbPrimary (step : UInt64) (memory : Line) (state : State) : State :=
  let state := forWords (fun j state =>
    let x := memory.get j ^^^ rotl (state.get (hi j)) (rotation1 j) ^^^ (step * constants j)
    state.addAt (lo j) x) state
  forWords (fun j state =>
    let y := state.get (lo j) + memory.get (j + 3) + rotl (state.get (lo (j + 5))) (rotation2 j)
    state.store (hi j) (rotl (state.get (hi j) ^^^ y) (rotation1 (j + 3)))) state

def primaryLine (step : UInt64) (memory : Line) (state : State) : Line :=
  Vector.ofFn fun j =>
    memory.get j ^^^ state.get (lo j) ^^^ rotl (state.get (hi j)) (rotation2 j) ^^^
      (step * constants (j + 1))

def feedPrimary (state : State) (written : Line) : State :=
  let state := state.xorAt 0 (written.get 5)
  let state := state.addAt 1 (rotl (written.get 6) 9)
  let state := state.xorAt 2 (written.get 7)
  let state := state.addAt 3 (rotl (written.get 0) 21)
  let state := state.xorAt 4 (written.get 1)
  let state := state.addAt 5 (rotl (written.get 2) 33)
  let state := state.xorAt 6 (written.get 3)
  let state := state.addAt 7 (rotl (written.get 4) 45)
  let state := state.addAt 8 (written.get 3)
  let state := state.xorAt 9 (rotl (written.get 4) 15)
  let state := state.addAt 10 (written.get 5)
  let state := state.xorAt 11 (rotl (written.get 6) 27)
  let state := state.addAt 12 (written.get 7)
  let state := state.xorAt 13 (rotl (written.get 0) 39)
  let state := state.addAt 14 (written.get 1)
  state.xorAt 15 (rotl (written.get 2) 51)

def primaryStep (w : Workspace) (step : UInt64) : Option (PrimaryResult × Workspace) := do
  let index := primaryIndex w.state step
  let memory ← readLine w.scratchpad index
  let state := absorbPrimary step memory w.state
  let written := primaryLine step memory state
  let scratchpad ← writeLine w.scratchpad index written
  return (⟨index, written⟩, ⟨feedPrimary state written, scratchpad⟩)

structure SecondaryResult where
  lineIndex : Nat
  written : Line
  forcedDistinct : Bool

/-- The line a step selects before it is made distinct from the first one. -/
def secondaryIndex (state : State) (step : UInt64) (primary : PrimaryResult) : Nat :=
  let secondarySeed := state.get 2 ^^^ rotl (state.get 7) 23 ^^^ state.get 9 ^^^
    rotl (state.get 14) 37 ^^^ primary.written.get (Fin.ofNat 8 step.toNat) ^^^ (step * constants 3)
  (secondarySeed &&& lineMask).toNat

def absorbSecondary (step : UInt64) (memory : Line) (state : State) : State :=
  let state := forWords (fun j state =>
    let z := memory.get j + state.get (Fin.ofNat 16 (j.val + 11)) + (step ^^^ constants (j + 5))
    state.addAt (hi j) (rotl z (rotation2 j))) state
  forWords (fun j state =>
    let word := state.get (lo j) ^^^ memory.get (j + 5) ^^^ state.get (hi j)
    state.store (lo j) (rotl word (rotation1 j))) state

def secondaryLine (step : UInt64) (memory : Line) (state : State) : Line :=
  Vector.ofFn fun j =>
    memory.get j + state.get (lo j) + rotl (state.get (hi j)) (rotation1 (j + 2)) +
      (step * constants (j + 6))

def feedSecondary (state : State) (written : Line) : State :=
  let state := state.addAt 0 (written.get 7)
  let state := state.xorAt 1 (rotl (written.get 0) 13)
  let state := state.addAt 2 (written.get 1)
  let state := state.xorAt 3 (rotl (written.get 2) 25)
  let state := state.addAt 4 (written.get 3)
  let state := state.xorAt 5 (rotl (written.get 4) 35)
  let state := state.addAt 6 (written.get 5)
  let state := state.xorAt 7 (rotl (written.get 6) 49)
  let state := state.xorAt 8 (written.get 2)
  let state := state.addAt 9 (rotl (written.get 3) 17)
  let state := state.xorAt 10 (written.get 4)
  let state := state.addAt 11 (rotl (written.get 5) 29)
  let state := state.xorAt 12 (written.get 6)
  let state := state.addAt 13 (rotl (written.get 7) 43)
  let state := state.xorAt 14 (written.get 0)
  state.addAt 15 (rotl (written.get 1) 55)

def secondaryStep (w : Workspace) (step : UInt64) (primary : PrimaryResult) :
    Option (SecondaryResult × Workspace) := do
  let index := secondaryIndex w.state step primary
  -- The line the primary step wrote is left alone.
  let forcedDistinct := index == primary.lineIndex
  let index := if forcedDistinct then index ^^^ 1 else index
  let memory ← readLine w.scratchpad index
  let state := absorbSecondary step memory w.state
  let written := secondaryLine step memory state
  let scratchpad ← writeLine w.scratchpad index written
  return (⟨index, written, forcedDistinct⟩, ⟨feedSecondary state written, scratchpad⟩)

def crossLaneMix (state : State) (step : UInt64) : State :=
  let state := state.xorAt 0 step
  let state := state.addAt 8 (step * constants 2)
  mercaARXRound (mercaARXRound state)

/-- Append a word to what a hasher was given. -/
def writeHashUint64 (written : Bytes) (value : UInt64) : Bytes :=
  written ++ LittleEndian.bytes 8 value.toNat

/-- Word `j` of a 64-byte digest. -/
def digestWord (digest : Vector UInt8 64) (j : Fin 8) : UInt64 :=
  Memory.readLE64 digest (8 * j.val) (by omega)

def stateDomain0 : Bytes := text "MercaHash-v1/state/0"

def stateDomain1 : Bytes := text "MercaHash-v1/state/1"

def checkpointDomain : Bytes := text "MercaHash-v1/checkpoint"

def finalDomain : Bytes := text "MercaHash-v1/final"

structure WorkParams where
  mixSteps : UInt32
  scratchpadFill : ScratchpadFillMode
  bindingPasses : UInt32

/-- The frozen consensus workload. -/
def v1Params : WorkParams :=
  ⟨131072, .alternatingHalfRound, 1⟩

section

variable (sha3_512 : Bytes → Vector UInt8 64) (sha3_256 : Bytes → UInt256)

def initialState (header : Bytes) : State :=
  let digest0 := sha3_512 (stateDomain0 ++ header)
  let digest1 := sha3_512 (stateDomain1 ++ header)
  (Vector.ofFn (digestWord digest0) ++ Vector.ofFn (digestWord digest1) : Vector UInt64 (8 + 8))

/-- What a checkpoint hashes. -/
def checkpointBytes (state : State) (step : UInt64) (primary : PrimaryResult)
    (secondary : SecondaryResult) : Bytes :=
  let written := writeHashUint64 checkpointDomain step
  let written := writeHashUint64 written (UInt64.ofNat primary.lineIndex)
  let written := writeHashUint64 written (UInt64.ofNat secondary.lineIndex)
  let written := state.toList.foldl writeHashUint64 written
  let written := primary.written.toList.foldl writeHashUint64 written
  secondary.written.toList.foldl writeHashUint64 written

def checkpoint (state : State) (step : UInt64) (primary : PrimaryResult)
    (secondary : SecondaryResult) : State :=
  let digest := sha3_512 (checkpointBytes state step primary secondary)
  let state := forWords (fun j state =>
    let state := state.xorAt (lo j) (digestWord digest j)
    state.addAt (hi j) (rotl (digestWord digest (j + 3)) (checkpointRotation j))) state
  mercaARXRound state

/-- What a step does to the state after its second line update. -/
def afterSecondary (state : State) (step : UInt64) (primary : PrimaryResult)
    (secondary : SecondaryResult) : State :=
  let state := if step % crossLaneInterval = 0 then crossLaneMix state step else state
  if step % checkpointInterval = 0 then checkpoint sha3_512 state step primary secondary else state

def mixStep (step : Nat) (w : Workspace) : Option Workspace := do
  let step := UInt64.ofNat step
  let (primary, w) ← primaryStep w step
  if step % secondaryInterval = 0 then
    let (secondary, w) ← secondaryStep w step primary
    return { w with state := afterSecondary sha3_512 w.state step primary secondary }
  else
    return w

def mixScratchpad (w : Workspace) (mixSteps : UInt32) : Option Workspace :=
  Loop.loop (mixStep sha3_512) mixSteps.toNat 1 w

/-- The line a sample reads, selected as in a primary step. -/
def sampleIndex (state : State) (sample : UInt64) : Nat :=
  primaryIndex state sample

/-- Take a sampled line and its number into the state. -/
def absorbSample (sample : UInt64) (index : Nat) (memory : Line) (state : State) : State :=
  let state := forWords (fun j state =>
    let x := memory.get j ^^^ rotl (state.get (hi j)) (rotation1 j) ^^^ (sample + constants j)
    state.addAt (lo j) x) state
  let state := forWords (fun j state =>
    let word := state.get (hi j) ^^^ state.get (lo j) ^^^ memory.get (j + 3)
    state.store (hi j) (rotl word (rotation2 j))) state
  let state := state.xorAt 0 (UInt64.ofNat index)
  let state := state.addAt 8 (rotl (UInt64.ofNat index) 29)
  if (sample + 1) % 16 = 0 then mercaARXRound state else state

def sampleStep (scratchpad : Scratchpad) (sample : Nat) (state : State) : Option State := do
  let sample := UInt64.ofNat sample
  let index := sampleIndex state sample
  let memory ← readLine scratchpad index
  return absorbSample sample index memory state

def finalSample (state : State) (scratchpad : Scratchpad) : Option State :=
  Loop.loop (sampleStep scratchpad) finalReads 0 state

def finalizeHash (state : State) (header : Bytes) : UInt256 :=
  sha3_256 (state.toList.foldl writeHashUint64 (finalDomain ++ header))

/-- What happens once the scratchpad is filled. -/
def hashFilled (header : Bytes) (params : WorkParams) (w : Workspace) :
    Option (UInt256 × Scratchpad) := do
  let b ← bindScratchpad ⟨w, none⟩ params.bindingPasses
  let w ← mixScratchpad sha3_512 b.toWorkspace params.mixSteps
  let state ← finalSample w.state w.scratchpad
  return (finalizeHash sha3_256 state header, w.scratchpad)

/-- The hash of a header, with the scratchpad it leaves behind. -/
def hash (header : Bytes) (scratchpad : Scratchpad) (params : WorkParams) :
    Option (UInt256 × Scratchpad) :=
  if header.length = headerSize ∧ params.mixSteps > 0 then do
    let w ← fillScratchpad ⟨initialState sha3_512 header, scratchpad⟩ params.scratchpadFill
    hashFilled sha3_512 sha3_256 header params w
  else none

def hashV1 (header : Bytes) (scratchpad : Scratchpad) : Option (UInt256 × Scratchpad) :=
  hash sha3_512 sha3_256 header scratchpad v1Params

end

end Mercahash

end MercaMiner
