import MercaMiner.Basis.Chunks
import MercaMiner.Basis.Memory
import MercaMiner.Core.Sha256

/-!
# The SHA-256 Object

The class `CSHA256` and the portable `Transform` of `crypto/sha256.cpp` at the
level of their variables.

`Transform` unrolls its 64 rounds. A round does not move the eight working
variables; the next one is called with its arguments shifted by one, so the
variable that plays role `r` in round `i` is the one `i` places before it
around the circle. The message schedule lives in sixteen variables, and from
the seventeenth round on each round rewrites the one it is about to use. The
last two rounds use their word without storing it, which nothing reads again.

An object buffers up to 63 bytes in an array of 64, of which the first
`bytes % 64` are meaningful. `bytes` counts what was written and wraps.

## Main definitions

* `roundInPlace`, `scheduleInPlace`: One round and its word.
* `transformInPlace`: One chunk.
* `Object`: A hasher object, with `write`, `finalize` and `reset`.
-/

namespace MercaMiner

namespace Sha256

/-- The working variables `a` to `h`. -/
abbrev Registers := Vector UInt32 8

/-- The schedule variables `w0` to `w15`. -/
abbrev Schedule := Vector UInt32 16

/-- The variable a round is given for its argument number `r`. -/
def role (i r : Nat) : Nat :=
  (r + 8 - i % 8) % 8

theorem role_lt (i r : Nat) : role i r < 8 :=
  Nat.mod_lt _ (by omega)

def argument (v : Registers) (i r : Nat) : UInt32 :=
  v.get ⟨role i r, role_lt i r⟩

def assign (v : Registers) (i r : Nat) (x : UInt32) : Registers :=
  v.set (role i r) x (role_lt i r)

/-- `Round(a, b, c, d, e, f, g, h, k)` with the arguments of round `i`: `d`
    and `h` are references. -/
def roundInPlace (v : Registers) (i : Nat) (k : UInt32) : Registers :=
  let t1 := argument v i 7 + bigSigma1 (argument v i 4) +
    ch (argument v i 4) (argument v i 5) (argument v i 6) + k
  let t2 := bigSigma0 (argument v i 0) + maj (argument v i 0) (argument v i 1) (argument v i 2)
  let v := assign v i 3 (argument v i 3 + t1)
  assign v i 7 (t1 + t2)

/-- `ReadBE32(chunk + 4 * i)`. -/
def chunkWord (chunk : Bytes) (i : Nat) : UInt32 :=
  readBE32 (chunk.getD (4 * i) 0) (chunk.getD (4 * i + 1) 0) (chunk.getD (4 * i + 2) 0)
    (chunk.getD (4 * i + 3) 0)

/-- The schedule variable round `i` uses. -/
def scheduled (w : Schedule) (i : Nat) : UInt32 :=
  w.get ⟨i % 16, Nat.mod_lt i (by omega)⟩

/-- The word of round `i`, which replaces a schedule variable. -/
def scheduleInPlace (chunk : Bytes) (w : Schedule) (i : Nat) : Schedule :=
  let word := if i < 16 then chunkWord chunk i
    else scheduled w i + (sigma1 (scheduled w (i + 14)) + scheduled w (i + 9) +
      sigma0 (scheduled w (i + 1)))
  w.set (i % 16) word (Nat.mod_lt i (by omega))

def stepInPlace (chunk : Bytes) (p : Registers × Schedule) (ik : Nat × UInt32) :
    Registers × Schedule :=
  let w := scheduleInPlace chunk p.2 ik.1
  (roundInPlace p.1 ik.1 (ik.2 + scheduled w ik.1), w)

/-- One chunk. The schedule variables are not initialised. -/
def transformInPlace (w : Schedule) (s : Words) (chunk : Bytes) : Words :=
  let v : Registers := #v[s.a, s.b, s.c, s.d, s.e, s.f, s.g, s.h]
  let v := (((List.range 64).zip roundConstants).foldl (stepInPlace chunk) (v, w)).1
  ⟨s.a + v[0], s.b + v[1], s.c + v[2], s.d + v[3], s.e + v[4], s.f + v[5], s.g + v[6], s.h + v[7]⟩

/-- A hasher object. -/
structure Object where
  s : Words
  buf : Vector UInt8 64
  bytes : UInt64

namespace Object

/-- A new object, whose buffer holds anything. -/
def new (buf : Vector UInt8 64) : Object :=
  ⟨initialState, buf, 0⟩

section

variable (w : Schedule)

/-- `Transform(s, data, blocks)`: one chunk after the other. -/
def transformBlocks (s : Words) (data : Bytes) (blocks : Nat) : Words :=
  (Chunks.consume 64 (transformInPlace w) blocks s data).1

/-- The part of `Write` behind the first block: the whole chunks of the data,
    then what remains goes to the buffer behind `bufsize`. -/
def writeChunks (hasher : Object) (data : Bytes) (bufsize : Nat)
    (hroom : bufsize + data.length % 64 ≤ 64) : Object :=
  let blocks := data.length / 64
  let s := transformBlocks w hasher.s data blocks
  let bytes := hasher.bytes + 64 * UInt64.ofNat blocks
  let data' := data.drop (64 * blocks)
  have hrest : data'.length = data.length % 64 := by
    rw [List.length_drop]
    omega
  ⟨s, Memory.storeBytes hasher.buf bufsize data' (by omega), bytes + UInt64.ofNat data'.length⟩

def write (hasher : Object) (data : Bytes) : Object :=
  let bufsize := hasher.bytes.toNat % 64
  have hlt : bufsize < 64 := Nat.mod_lt _ (by omega)
  if hfill : bufsize ≠ 0 ∧ 64 ≤ bufsize + data.length then
    -- Fill the buffer, and process it.
    let buf := Memory.storeBytes hasher.buf bufsize (data.take (64 - bufsize)) (by
      rw [List.length_take]
      omega)
    writeChunks w ⟨transformInPlace w hasher.s buf.toList, buf,
      hasher.bytes + UInt64.ofNat (64 - bufsize)⟩ (data.drop (64 - bufsize)) 0 (by omega)
  else
    writeChunks w hasher data bufsize (by omega)

/-- Write the padding and the size, and read the words out. -/
def finalize (hasher : Object) : Object × Bytes :=
  let pad : Bytes := (0x80 : UInt8) :: List.replicate 63 0
  let sizedesc := writeBE64 (hasher.bytes <<< 3)
  let padded := write w hasher (pad.take (1 + (119 - hasher.bytes.toNat % 64) % 64))
  let out := write w padded sizedesc
  (out, writeBE32 out.s.a ++ writeBE32 out.s.b ++ writeBE32 out.s.c ++ writeBE32 out.s.d ++
    writeBE32 out.s.e ++ writeBE32 out.s.f ++ writeBE32 out.s.g ++ writeBE32 out.s.h)

end

def reset (hasher : Object) : Object :=
  ⟨initialState, hasher.buf, 0⟩

/-- `Sha256`: an empty span is not written at all. -/
def sha256 (w : Schedule) (buf : Vector UInt8 64) (input : Bytes) : Bytes :=
  let hasher := new buf
  (finalize w (if input.isEmpty then hasher else write w hasher input)).2

/-- `DoubleSha256`, with the buffers its two objects start with. -/
def doubleSha256 (w : Schedule) (buf buf' : Vector UInt8 64) (input : Bytes) : UInt256 :=
  let first := (finalize w (write w (new buf) input)).2
  ⟨(finalize w (write w (new buf') first)).2, rfl⟩

end Object

end Sha256

end MercaMiner
