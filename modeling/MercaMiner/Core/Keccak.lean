import Mathlib.Data.Fin.Basic

/-!
# The Keccak Permutation

`KeccakF` of `crypto/sha3.cpp`, which works in place on an array of 25 words.

A round names five words of parities, adds to each column what its two
neighbours say, moves 24 of the words around a cycle while rotating each, and
rewrites the rows. `theta`, `rhoPi` and `chiIota` are these three parts, with
the assignments of the source in their order. The cycle carries the word it
took out last in `t`; `rhoPiSteps` lists the position each assignment stores
at and the rotation it applies.

## Main definitions

* `Lanes`: The array of 25 words.
* `theta`, `rhoPi`, `chiIota`: The three parts of a round.
* `keccakF`: The 24 rounds.
-/

namespace MercaMiner

namespace Keccak

/-- The state, `st` in the source. -/
abbrev Lanes := Vector UInt64 25

/-- Rotate left, `std::rotl`. -/
def rotl (x : UInt64) (s : Nat) : UInt64 :=
  ⟨x.toBitVec.rotateLeft s⟩

def roundConstants : List UInt64 :=
  [0x0000000000000001, 0x0000000000008082, 0x800000000000808a, 0x8000000080008000,
   0x000000000000808b, 0x0000000080000001, 0x8000000080008081, 0x8000000000008009,
   0x000000000000008a, 0x0000000000000088, 0x0000000080008009, 0x000000008000000a,
   0x000000008000808b, 0x800000000000008b, 0x8000000000008089, 0x8000000000008003,
   0x8000000000008002, 0x8000000000000080, 0x000000000000800a, 0x800000008000000a,
   0x8000000080008081, 0x8000000000008080, 0x0000000080000001, 0x8000000080008008]

/-- The parity of one column, a `bc` of the source. -/
def parity (st : Lanes) (x : Nat) (h : x < 5) : UInt64 :=
  st[x] ^^^ st[x + 5] ^^^ st[x + 10] ^^^ st[x + 15] ^^^ st[x + 20]

def xorAt (st : Lanes) (i : Nat) (t : UInt64) (h : i < 25) : Lanes :=
  st.set i (st[i] ^^^ t)

/-- Add a word to the five words of a column. -/
def xorColumn (st : Lanes) (x : Nat) (t : UInt64) (h : x < 5) : Lanes :=
  let st := xorAt st x t (by omega)
  let st := xorAt st (x + 5) t (by omega)
  let st := xorAt st (x + 10) t (by omega)
  let st := xorAt st (x + 15) t (by omega)
  xorAt st (x + 20) t (by omega)

def theta (st : Lanes) : Lanes :=
  -- All parities are taken before any word changes.
  let bc0 := parity st 0 (by omega)
  let bc1 := parity st 1 (by omega)
  let bc2 := parity st 2 (by omega)
  let bc3 := parity st 3 (by omega)
  let bc4 := parity st 4 (by omega)
  let st := xorColumn st 0 (bc4 ^^^ rotl bc1 1) (by omega)
  let st := xorColumn st 1 (bc0 ^^^ rotl bc2 1) (by omega)
  let st := xorColumn st 2 (bc1 ^^^ rotl bc3 1) (by omega)
  let st := xorColumn st 3 (bc2 ^^^ rotl bc4 1) (by omega)
  xorColumn st 4 (bc3 ^^^ rotl bc0 1) (by omega)

/-- Where each assignment stores the word it carries, and by how much it
    rotates it. -/
def rhoPiSteps : List (Fin 25 × Nat) :=
  [(10, 1), (7, 3), (11, 6), (17, 10), (18, 15), (3, 21), (5, 28), (16, 36), (8, 45), (21, 55),
   (24, 2), (4, 14), (15, 27), (23, 41), (19, 56), (13, 8), (12, 25), (2, 43), (20, 62), (14, 18),
   (22, 39), (9, 61), (6, 20), (1, 44)]

/-- `bc0 = st[i]; st[i] = rotl(t, s); t = bc0`. -/
def rhoPiStep (p : Lanes × UInt64) (step : Fin 25 × Nat) : Lanes × UInt64 :=
  (p.1.set step.1.val (rotl p.2 step.2), p.1[step.1.val])

def rhoPi (st : Lanes) : Lanes :=
  (rhoPiSteps.foldl rhoPiStep (st, st[1])).1

/-- Rewrite the five words from `i` on from their old values. -/
def chiRow (st : Lanes) (i : Nat) (h : i + 5 ≤ 25) : Lanes :=
  let bc0 := st[i]
  let bc1 := st[i + 1]
  let bc2 := st[i + 2]
  let bc3 := st[i + 3]
  let bc4 := st[i + 4]
  let st := st.set i (bc0 ^^^ (~~~bc1 &&& bc2))
  let st := st.set (i + 1) (bc1 ^^^ (~~~bc2 &&& bc3))
  let st := st.set (i + 2) (bc2 ^^^ (~~~bc3 &&& bc4))
  let st := st.set (i + 3) (bc3 ^^^ (~~~bc4 &&& bc0))
  st.set (i + 4) (bc4 ^^^ (~~~bc0 &&& bc1))

/-- The rows in order. The first word takes the round constant as well. -/
def chiIota (st : Lanes) (constant : UInt64) : Lanes :=
  let st := chiRow st 0 (by omega)
  let st := xorAt st 0 constant (by omega)
  let st := chiRow st 5 (by omega)
  let st := chiRow st 10 (by omega)
  let st := chiRow st 15 (by omega)
  chiRow st 20 (by omega)

def round (st : Lanes) (constant : UInt64) : Lanes :=
  chiIota (rhoPi (theta st)) constant

def keccakF (st : Lanes) : Lanes :=
  roundConstants.foldl round st

end Keccak

end MercaMiner
