import MercaMiner.Core.UInt256

/-!
# SHA-256

The double SHA-256 of the block format, from `hash256.cpp` and the portable
code path of `crypto/sha256.cpp`.

The source unrolls the 64 rounds and keeps the message schedule in sixteen
variables it updates in place. `transform` runs the same rounds over the table
of round constants: `rounds` renames the eight working variables instead of
permuting the arguments, and the schedule is a window of sixteen words of
which the oldest is replaced by the next one. The vectorised transforms the
source can switch to compute the same function and are not embedded.

Everything proved about the block format treats `doubleSha256` as a function
of its input bytes. It is executable so that a whole block can be built and
checked at a concrete template.

## Main definitions

* `transform`: One compression of a 64-byte chunk.
* `CSha256`: The incremental hasher, with `write` and `finalize`.
* `doubleSha256`: The hash that identifies transactions and blocks.
-/

namespace MercaMiner

namespace Sha256

def ch (x y z : UInt32) : UInt32 := z ^^^ (x &&& (y ^^^ z))

def maj (x y z : UInt32) : UInt32 := (x &&& y) ||| (z &&& (x ||| y))

/-- Rotate right, which the source spells as two shifts. -/
def rotr (x : UInt32) (n m : UInt32) : UInt32 := (x >>> n) ||| (x <<< m)

def bigSigma0 (x : UInt32) : UInt32 := rotr x 2 30 ^^^ rotr x 13 19 ^^^ rotr x 22 10

def bigSigma1 (x : UInt32) : UInt32 := rotr x 6 26 ^^^ rotr x 11 21 ^^^ rotr x 25 7

def sigma0 (x : UInt32) : UInt32 := rotr x 7 25 ^^^ rotr x 18 14 ^^^ (x >>> 3)

def sigma1 (x : UInt32) : UInt32 := rotr x 17 15 ^^^ rotr x 19 13 ^^^ (x >>> 10)

/-- The eight chaining words. -/
structure Words where
  a : UInt32
  b : UInt32
  c : UInt32
  d : UInt32
  e : UInt32
  f : UInt32
  g : UInt32
  h : UInt32
  deriving DecidableEq

def initialState : Words :=
  ⟨0x6a09e667, 0xbb67ae85, 0x3c6ef372, 0xa54ff53a,
    0x510e527f, 0x9b05688c, 0x1f83d9ab, 0x5be0cd19⟩

/-- The constant each of the 64 rounds adds. -/
def roundConstants : List UInt32 :=
  [0x428a2f98, 0x71374491, 0xb5c0fbcf, 0xe9b5dba5, 0x3956c25b, 0x59f111f1, 0x923f82a4, 0xab1c5ed5,
   0xd807aa98, 0x12835b01, 0x243185be, 0x550c7dc3, 0x72be5d74, 0x80deb1fe, 0x9bdc06a7, 0xc19bf174,
   0xe49b69c1, 0xefbe4786, 0x0fc19dc6, 0x240ca1cc, 0x2de92c6f, 0x4a7484aa, 0x5cb0a9dc, 0x76f988da,
   0x983e5152, 0xa831c66d, 0xb00327c8, 0xbf597fc7, 0xc6e00bf3, 0xd5a79147, 0x06ca6351, 0x14292967,
   0x27b70a85, 0x2e1b2138, 0x4d2c6dfc, 0x53380d13, 0x650a7354, 0x766a0abb, 0x81c2c92e, 0x92722c85,
   0xa2bfe8a1, 0xa81a664b, 0xc24b8b70, 0xc76c51a3, 0xd192e819, 0xd6990624, 0xf40e3585, 0x106aa070,
   0x19a4c116, 0x1e376c08, 0x2748774c, 0x34b0bcb5, 0x391c0cb3, 0x4ed8aa4a, 0x5b9cca4f, 0x682e6ff3,
   0x748f82ee, 0x78a5636f, 0x84c87814, 0x8cc70208, 0x90befffa, 0xa4506ceb, 0xbef9a3f7, 0xc67178f2]

/-- One round, with the eight variables renamed for the next one. -/
def round (v : Words) (k : UInt32) : Words :=
  let t1 := v.h + bigSigma1 v.e + ch v.e v.f v.g + k
  let t2 := bigSigma0 v.a + maj v.a v.b v.c
  ⟨t1 + t2, v.a, v.b, v.c, v.d + t1, v.e, v.f, v.g⟩

def readBE32 (b0 b1 b2 b3 : UInt8) : UInt32 :=
  (b0.toUInt32 <<< 24) ||| (b1.toUInt32 <<< 16) ||| (b2.toUInt32 <<< 8) ||| b3.toUInt32

/-- The chunk as big-endian words. -/
def readWords : Bytes → List UInt32
  | b0 :: b1 :: b2 :: b3 :: rest => readBE32 b0 b1 b2 b3 :: readWords rest
  | _ => []

/-- Slide the schedule window: drop the oldest word, append the next. -/
def slide : List UInt32 → List UInt32
  | w0 :: w1 :: rest =>
      (w1 :: rest) ++ [w0 + (sigma1 (rest.getD 12 0) + rest.getD 7 0 + sigma0 w1)]
  | w => w

/-- The remaining rounds, one for each remaining constant. The head of the
    window is the schedule word of the round. -/
def rounds : List UInt32 → List UInt32 → Words → Words
  | [], _, v => v
  | k :: ks, w, v => rounds ks (slide w) (round v (k + w.headD 0))

def transform (s : Words) (chunk : Bytes) : Words :=
  let v := rounds roundConstants (readWords chunk) s
  ⟨s.a + v.a, s.b + v.b, s.c + v.c, s.d + v.d, s.e + v.e, s.f + v.f, s.g + v.g, s.h + v.h⟩

/-- Compress every whole chunk of the data, giving back the unread rest. The
    first argument bounds the number of chunks. -/
def transformAll : Nat → Words → Bytes → Words × Bytes
  | 0, s, data => (s, data)
  | blocks + 1, s, data => transformAll blocks (transform s (data.take 64)) (data.drop 64)

def writeBE32 (x : UInt32) : Bytes :=
  [(x >>> 24).toUInt8, (x >>> 16).toUInt8, (x >>> 8).toUInt8, x.toUInt8]

def writeBE64 (x : UInt64) : Bytes :=
  [(x >>> 56).toUInt8, (x >>> 48).toUInt8, (x >>> 40).toUInt8, (x >>> 32).toUInt8,
   (x >>> 24).toUInt8, (x >>> 16).toUInt8, (x >>> 8).toUInt8, x.toUInt8]

end Sha256

open Sha256

/-- The incremental hasher. `buf` holds the meaningful bytes of the source's
    64-byte buffer, the first `bytes % 64` of them. -/
structure CSha256 where
  s : Words
  buf : Bytes
  bytes : UInt64

namespace CSha256

def new : CSha256 := ⟨initialState, [], 0⟩

/-- Feed data: the whole chunks of what is buffered and what is new are
    compressed, the rest is buffered. -/
def write (hasher : CSha256) (data : Bytes) : CSha256 :=
  let pending := hasher.buf ++ data
  let out := transformAll (pending.length / 64) hasher.s pending
  ⟨out.1, out.2, hasher.bytes + UInt64.ofNat data.length⟩

/-- Pad with a one bit, zeros and the bit count, and read the words out. -/
def finalize (hasher : CSha256) : Bytes :=
  let pad := 0x80 :: List.replicate ((119 - (hasher.bytes.toNat % 64)) % 64) 0
  let out := ((hasher.write pad).write (writeBE64 (hasher.bytes <<< 3))).s
  writeBE32 out.a ++ writeBE32 out.b ++ writeBE32 out.c ++ writeBE32 out.d ++
    writeBE32 out.e ++ writeBE32 out.f ++ writeBE32 out.g ++ writeBE32 out.h

theorem length_finalize (hasher : CSha256) : hasher.finalize.length = 32 := rfl

end CSha256

/-- Both hashes are of a span; an empty one writes nothing. -/
def sha256 (input : Bytes) : Bytes :=
  (CSha256.new.write input).finalize

def doubleSha256 (input : Bytes) : UInt256 :=
  ⟨(CSha256.new.write (sha256 input)).finalize, CSha256.length_finalize _⟩

end MercaMiner
