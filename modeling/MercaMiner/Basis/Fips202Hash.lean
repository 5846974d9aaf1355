import MercaMiner.Basis.Chunks
import MercaMiner.Basis.Fips202
import MercaMiner.Basis.LittleEndian

/-!
# The SHA-3 Functions

The hash functions of FIPS 202 on byte strings.

A message is padded to whole blocks of the rate, each block is added to the
state and the state permuted, and the digest is read off the front of the
state, with another permutation whenever a block of the rate has been read.
Lane `(x, y)` holds the eight bytes from `8 * (5 * y + x)` on, the first of
them least significant. On bytes the suffix bits and the padding of the
standard are a byte `06`, zeros and a final byte `80`, or `86` where the two
meet.

## Main definitions

* `xorBlock`: Add a block to the state.
* `pad`: The suffix and the padding of a message.
* `absorbMessage`, `squeeze`: The two phases of the sponge.
* `sha3`: The function with a digest of a given number of bytes.

## Theorems

* `length_pad`: A padded message is a whole number of blocks.
-/

namespace Fips202

/-- The eight bytes of a block from `8 * i` on, as a word. A block is shorter
    than the state, and what is missing counts as zeros. -/
def blockWord (block : List UInt8) (i : Nat) : BitVec 64 :=
  BitVec.ofNat 64 (LittleEndian.value ((block.drop (8 * i)).take 8))

def xorBlock (a : State 64) (block : List UInt8) : State 64 :=
  fun x y => a x y ^^^ blockWord block (5 * y.val + x.val)

def absorbBlock (a : State 64) (block : List UInt8) : State 64 :=
  permutation 6 (xorBlock a block)

/-- What is appended to a message of the given length. -/
def pad (rate length : Nat) : List UInt8 :=
  let q := rate - length % rate
  if q = 1 then [0x86] else 0x06 :: List.replicate (q - 2) 0 ++ [0x80]

def absorbMessage (rate : Nat) (message : List UInt8) : State 64 :=
  (Chunks.absorb rate absorbBlock (fun _ _ => 0) (message ++ pad rate message.length)).1

/-- The bytes of the state, in the order of its positions. -/
def stateBytes (a : State 64) : List UInt8 :=
  (List.finRange 25).flatMap fun i =>
    LittleEndian.bytes 8 (a ⟨i.val % 5, by omega⟩ ⟨i.val / 5, by omega⟩).toNat

/-- A number of blocks read off the state, which is permuted in between. -/
def squeeze (rate : Nat) : Nat → State 64 → List UInt8
  | 0, _ => []
  | blocks + 1, a => (stateBytes a).take rate ++ squeeze rate blocks (permutation 6 a)

/-- SHA-3 with a digest of `size` bytes: the capacity is twice the digest. -/
def sha3 (size : Nat) (message : List UInt8) : List UInt8 :=
  let rate := 200 - 2 * size
  (squeeze rate (size / rate + 1) (absorbMessage rate message)).take size

theorem length_pad (rate length : Nat) (h : 0 < rate) :
    (pad rate length).length = rate - length % rate := by
  have hlt := Nat.mod_lt length h
  unfold pad
  by_cases hone : rate - length % rate = 1
  · simp only [if_pos hone, List.length_singleton]
    exact hone.symm
  · simp only [if_neg hone, List.cons_append, List.length_cons, List.length_append,
      List.length_replicate, List.length_nil]
    omega

theorem length_padded (rate : Nat) (message : List UInt8) (h : 0 < rate) :
    (message ++ pad rate message.length).length % rate = 0 := by
  have hlt := Nat.mod_lt message.length h
  have hdiv := Nat.div_add_mod message.length rate
  rw [List.length_append, length_pad rate _ h]
  have hsum : message.length + (rate - message.length % rate) =
      rate * (message.length / rate + 1) := by
    rw [Nat.mul_add, Nat.mul_one]
    omega
  rw [hsum, Nat.mul_mod_right]

end Fips202
