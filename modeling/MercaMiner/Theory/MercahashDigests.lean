import MercaMiner.Core.Mercahash.Hashers
import MercaMiner.Theory.Sha3Sponge

/-!
# MercaHash Over SHA-3

The hash function with its hasher objects is the hash function over the SHA-3
of the standard, so what is proved about `hash` for any pair of functions in
the place of SHA-3 holds of the program.

A hasher is written to many times before it is finalized; the digest is that
of everything written, in order. In particular the uninitialised buffers the
source declares its hashers with have no part in the result.

## Main definitions

* `fips512`, `fips256`: SHA-3 by the types of the digests.

## Theorems

* `checkpointHashed_eq`, `finalizeHashed_eq`: The uses of a hasher.
* `hashHashed_eq`: The hash function.
-/

namespace MercaMiner

open Keccak

theorem length_sha3 (v : Variant) (message : Bytes) :
    (Fips202.sha3 v.outputSize message).length = v.outputSize := by
  have hnew := (Sha3.sha3_of_writes v [message]).1 (Vector.replicate 8 0)
  rw [List.flatten_cons, List.flatten_nil, List.append_nil] at hnew
  rw [← hnew]
  exact Sha3.length_finalize _

/-- SHA3-512 of the standard. -/
def fips512 (message : Bytes) : Vector UInt8 64 :=
  ⟨(Fips202.sha3 64 message).toArray, by
    rw [List.size_toArray]
    exact length_sha3 .sha3_512 message⟩

/-- SHA3-256 of the standard. -/
def fips256 (message : Bytes) : UInt256 :=
  ⟨Fips202.sha3 32 message, length_sha3 .sha3_256 message⟩

namespace Sha3

variable {v : Variant}

/-- What a hasher was given since it was new. -/
def Given (hasher : Sha3 v) (written : Bytes) : Prop :=
  hasher.view = Chunks.feed 8 Sponge.absorbChunk (Sponge.start v, []) written

theorem given_new (buffer : Vector UInt8 8) : (new v buffer).Given [] :=
  (Chunks.feed_nil 8 Sponge.absorbChunk (Sponge.start v, []) (show 0 < 8 by omega)).symm

theorem given_write (hasher : Sha3 v) (written data : Bytes) (h : hasher.Given written) :
    (hasher.write data).Given (written ++ data) := by
  unfold Given at h ⊢
  rw [view_write, h, Chunks.feed_feed 8 _ (by omega)]

theorem given_foldl_writeHashUint64 (hasher : Sha3 v) (written : Bytes) (words : List UInt64)
    (h : hasher.Given written) :
    (words.foldl writeHashUint64 hasher).Given
      (words.foldl Mercahash.writeHashUint64 written) := by
  induction words generalizing hasher written with
  | nil => exact h
  | cons word rest ih => exact ih _ _ (given_write hasher written _ h)

theorem finalize_of_given (hasher : Sha3 v) (written : Bytes) (h : hasher.Given written) :
    hasher.finalize.2 = Fips202.sha3 v.outputSize written :=
  finalize_of_view hasher written h

end Sha3

theorem digest512_of_given (hasher : Sha3_512) (written : Bytes) (h : hasher.Given written) :
    hasher.digest = fips512 written := by
  unfold Sha3_512.digest fips512
  exact Vector.toArray_inj.mp (congrArg List.toArray (Sha3.finalize_of_given hasher written h))

theorem digest256_of_given (hasher : Sha3_256) (written : Bytes) (h : hasher.Given written) :
    hasher.digest = fips256 written := by
  have hdigest := Sha3.finalize_of_given hasher written h
  rw [show Variant.sha3_256.outputSize = 32 from rfl] at hdigest
  apply UInt256.eq_of_bytes
  simp only [Sha3_256.digest, fips256]
  exact hdigest

namespace Mercahash

theorem initialStateHashed_eq (header : Bytes) :
    initialStateHashed header = initialState fips512 header := by
  unfold initialStateHashed initialState
  have hgiven (domain : Bytes) := digest512_of_given _ _
    (Sha3.given_write _ _ header (Sha3.given_write _ _ domain
      (Sha3.given_new (v := .sha3_512) (Vector.replicate 8 0))))
  simp only [hgiven, List.nil_append]

/-- A checkpoint's hasher is given the bytes of the checkpoint. -/
theorem checkpointHasher_given (buffer : Vector UInt8 8) (state : State) (step : UInt64)
    (primary : PrimaryResult) (secondary : SecondaryResult) :
    (checkpointHasher buffer state step primary secondary).Given
      (checkpointBytes state step primary secondary) := by
  unfold checkpointHasher checkpointBytes
  refine Sha3.given_foldl_writeHashUint64 _ _ _ (Sha3.given_foldl_writeHashUint64 _ _ _
    (Sha3.given_foldl_writeHashUint64 _ _ _ ?_))
  exact Sha3.given_write _ _ _ (Sha3.given_write _ _ _ (Sha3.given_write _ _ _
    (Sha3.given_write _ _ _ (Sha3.given_new buffer))))

theorem checkpointHashed_eq (buffer : Vector UInt8 8) (state : State) (step : UInt64)
    (primary : PrimaryResult) (secondary : SecondaryResult) :
    checkpointHashed buffer state step primary secondary =
      checkpoint fips512 state step primary secondary := by
  unfold checkpointHashed checkpoint
  rw [digest512_of_given _ _ (checkpointHasher_given buffer state step primary secondary)]

theorem mixStepHashed_eq (garbage : Nat → Vector UInt8 8) :
    mixStepHashed garbage = mixStep fips512 := by
  funext step w
  unfold mixStepHashed mixStep afterSecondary
  simp only [checkpointHashed_eq]

theorem finalizeHashed_eq (garbage : Nat → Vector UInt8 8) (state : State) (header : Bytes) :
    finalizeHashed garbage state header = finalizeHash fips256 state header := by
  unfold finalizeHashed finalizeHash
  exact digest256_of_given _ _ (Sha3.given_foldl_writeHashUint64 _ _ _
    (Sha3.given_write _ _ header (Sha3.given_write _ _ finalDomain
      (Sha3.given_new (v := .sha3_256) (garbage 0)))))

/-- The program's hash is MercaHash over the SHA-3 of the standard, whatever
    the buffers of its hashers held. -/
theorem hashHashed_eq (garbage : Nat → Vector UInt8 8) (header : Bytes) (scratchpad : Scratchpad)
    (params : WorkParams) :
    hashHashed garbage header scratchpad params =
      hash fips512 fips256 header scratchpad params := by
  unfold hashHashed hash hashFilled mixScratchpad
  simp only [initialStateHashed_eq, mixStepHashed_eq, finalizeHashed_eq]

end Mercahash

end MercaMiner
