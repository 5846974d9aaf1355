import MercaMiner.Basis.Chunks
import MercaMiner.Basis.Memory
import MercaMiner.Core.Keccak
import MercaMiner.Core.UInt256

/-!
# SHA-3

The incremental hashers of `crypto/sha3.h` and `crypto/sha3.cpp`.

The source writes the class three times with different constants; `Sha3` is
the class with the constants as a parameter, and `Sha3_256`, `Sha3_512` and
`Sha3_384` are the three. An object keeps the permutation's state, the number
of words absorbed since the last permutation, and a buffer of eight bytes of
which the first `mBufsize` are waiting. Both counters carry their bounds, so
that every access to the state and to the buffer is in range. What the buffer
holds behind its counter is whatever was there before, and at first anything:
the source does not initialise it.

## Main definitions

* `Variant`: The constants of the three classes.
* `Sha3`: A hasher under way.
* `Sha3.write`, `Sha3.finalize`, `Sha3.reset`: Its member functions.
* `Sha3_512.digest`, `Sha3_256.digest`: The digest by its type.
-/

namespace MercaMiner

open Keccak

inductive Variant where
  | sha3_256
  | sha3_512
  | sha3_384
  deriving DecidableEq

namespace Variant

/-- Sponge rate in bits. -/
def rateBits : Variant → Nat
  | sha3_256 => 1088
  | sha3_512 => 576
  | sha3_384 => 832

/-- Sponge rate as a multiple of the buffer size. -/
def rateBuffers (v : Variant) : Nat :=
  v.rateBits / (8 * 8)

def outputSize : Variant → Nat
  | sha3_256 => 32
  | sha3_512 => 64
  | sha3_384 => 48

theorem rateBuffers_pos (v : Variant) : 0 < v.rateBuffers := by
  cases v <;> decide

theorem rateBuffers_le (v : Variant) : v.rateBuffers ≤ 25 := by
  cases v <;> decide

end Variant

/-- The state and the position the next word is absorbed at. -/
structure Sponge (v : Variant) where
  mState : Lanes
  mPos : Nat
  pos_lt : mPos < v.rateBuffers

/-- The word eight bytes denote. -/
def readLE64 (bytes : Bytes) : UInt64 :=
  UInt64.ofNat (LittleEndian.value bytes)

namespace Sponge

variable {v : Variant}

theorem pos_lt_lanes (s : Sponge v) : s.mPos < 25 :=
  Nat.lt_of_lt_of_le s.pos_lt v.rateBuffers_le

def start (v : Variant) : Sponge v :=
  ⟨Vector.replicate 25 0, 0, v.rateBuffers_pos⟩

/-- `m_state[m_pos++] ^= word`, and a permutation when the rate is full. -/
def absorbWord (s : Sponge v) (word : UInt64) : Sponge v :=
  let mState := xorAt s.mState s.mPos word s.pos_lt_lanes
  have hpos := s.pos_lt
  if hfull : s.mPos + 1 = v.rateBuffers then ⟨keccakF mState, 0, v.rateBuffers_pos⟩
  else ⟨mState, s.mPos + 1, by omega⟩

def absorbChunk (s : Sponge v) (chunk : Bytes) : Sponge v :=
  s.absorbWord (readLE64 chunk)

end Sponge

/-- A hasher object. -/
structure Sha3 (v : Variant) extends Sponge v where
  mBuffer : Vector UInt8 8
  mBufsize : Nat
  bufsize_lt : mBufsize < 8

abbrev Sha3_256 := Sha3 .sha3_256

abbrev Sha3_512 := Sha3 .sha3_512

abbrev Sha3_384 := Sha3 .sha3_384

namespace Sha3

variable {v : Variant}

theorem bufsize_zero : 0 < 8 := by omega

/-- A new object, whose buffer holds anything. -/
def new (v : Variant) (mBuffer : Vector UInt8 8) : Sha3 v :=
  ⟨Sponge.start v, mBuffer, 0, bufsize_zero⟩

/-- Fill the buffer and process it. -/
def fillBuffer (hasher : Sha3 v) (data : Bytes) (hfill : 8 - hasher.mBufsize ≤ data.length) :
    Sha3 v :=
  have hlt := hasher.bufsize_lt
  let mBuffer := Memory.storeBytes hasher.mBuffer hasher.mBufsize
    (data.take (8 - hasher.mBufsize)) (by rw [List.length_take]; omega)
  ⟨hasher.absorbWord (Memory.readLE64 mBuffer 0 (by omega)), mBuffer, 0, by omega⟩

/-- Keep the remainder in the buffer. -/
def keepRemainder (hasher : Sha3 v) (data : Bytes) (hroom : hasher.mBufsize + data.length < 8) :
    Sha3 v :=
  { hasher with
    mBuffer := Memory.storeBytes hasher.mBuffer hasher.mBufsize data (by omega)
    mBufsize := hasher.mBufsize + data.length
    bufsize_lt := hroom }

/-- Process chunks directly from the data, and keep the rest. There is a whole
    chunk to process only when nothing is waiting in the buffer. -/
def processChunks (hasher : Sha3 v) (data : Bytes)
    (hroom : hasher.mBufsize = 0 ∨ hasher.mBufsize + data.length < 8) : Sha3 v :=
  let out := Chunks.absorb 8 Sponge.absorbChunk hasher.toSponge data
  keepRemainder { hasher with toSponge := out.1 } out.2 (by
    have hrest := Chunks.length_rest 8 Sponge.absorbChunk bufsize_zero hasher.toSponge data
    simp only [out, hrest]
    omega)

def write (hasher : Sha3 v) (data : Bytes) : Sha3 v :=
  if hfill : hasher.mBufsize ≠ 0 ∧ 8 - hasher.mBufsize ≤ data.length then
    processChunks (fillBuffer hasher data hfill.2) (data.drop (8 - hasher.mBufsize)) (Or.inl rfl)
  else
    processChunks hasher data (by omega)

/-- Pad, permute and read the first words out. -/
def finalize (hasher : Sha3 v) : Sha3 v × Bytes :=
  have hlt := hasher.bufsize_lt
  let mBuffer := Memory.storeBytes hasher.mBuffer hasher.mBufsize
    (List.replicate (8 - hasher.mBufsize) 0) (by rw [List.length_replicate]; omega)
  let mBuffer := mBuffer.set hasher.mBufsize (mBuffer[hasher.mBufsize] ^^^ 0x06)
  have hpos := v.rateBuffers_pos
  have hrate := v.rateBuffers_le
  let mState := xorAt hasher.mState hasher.mPos (Memory.readLE64 mBuffer 0 (by omega))
    hasher.pos_lt_lanes
  let mState := xorAt mState (v.rateBuffers - 1) 0x8000000000000000 (by omega)
  let mState := keccakF mState
  ({ hasher with mState := mState, mBuffer := mBuffer },
    (mState.toList.take (v.outputSize / 8)).flatMap fun word => LittleEndian.bytes 8 word.toNat)

def reset (hasher : Sha3 v) : Sha3 v :=
  ⟨Sponge.start v, hasher.mBuffer, 0, bufsize_zero⟩

theorem length_finalize (hasher : Sha3 v) : hasher.finalize.2.length = v.outputSize := by
  unfold finalize
  simp only [List.length_flatMap, LittleEndian.length_bytes]
  rw [List.map_const', List.sum_replicate_nat, List.length_take, Vector.length_toList]
  cases v <;> rfl

end Sha3

/-- The digest of a 512-bit hasher, as the array it is written to. -/
def Sha3_512.digest (hasher : Sha3_512) : Vector UInt8 64 :=
  ⟨hasher.finalize.2.toArray, by rw [List.size_toArray, Sha3.length_finalize]; rfl⟩

/-- The digest of a 256-bit hasher, as a number. -/
def Sha3_256.digest (hasher : Sha3_256) : UInt256 :=
  ⟨hasher.finalize.2, Sha3.length_finalize hasher⟩

end MercaMiner
