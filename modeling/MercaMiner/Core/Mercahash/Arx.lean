import Mathlib.Data.Fin.VecNotation
import MercaMiner.Core.UInt256

/-!
# The Mixing State

The sixteen words MercaHash mixes and the rounds it mixes them with, from
`crypto/mercahash.cpp`.

A word is 64 bits and its arithmetic wraps, which is the arithmetic of
`UInt64`. The source passes words of the state to `G` by reference; `applyG`
takes their positions instead and stores the four results back. The lower
eight words and the upper eight words play different roles in the phases, so
`lo` and `hi` name a position in either half. Indices the source masks with 7
are indices of type `Fin 8`, whose addition wraps in the same way.

## Main definitions

* `State`, `Line`: The mixing state and one line of the scratchpad.
* `g`, `applyG`: The quarter round.
* `mercaARXColumns`, `mercaARXDiagonals`: The two half rounds.
* `mercaARXRound`: A full round.
-/

namespace MercaMiner

namespace Mercahash

abbrev State := Vector UInt64 16

abbrev Line := Vector UInt64 8

-- Positions are literals of `Fin 16` and `Fin 8`.
instance sixteen_ne_zero : NeZero 16 := ⟨by decide⟩

instance eight_ne_zero : NeZero 8 := ⟨by decide⟩

/-- Replace the word at a position. -/
def State.store (state : State) (j : Fin 16) (word : UInt64) : State :=
  state.set j.val word

def State.xorAt (state : State) (j : Fin 16) (word : UInt64) : State :=
  state.store j (state.get j ^^^ word)

def State.addAt (state : State) (j : Fin 16) (word : UInt64) : State :=
  state.store j (state.get j + word)

/-- Position `j` in the lower half of the state. -/
def lo (j : Fin 8) : Fin 16 :=
  ⟨j.val, by omega⟩

/-- Position `j` in the upper half of the state. -/
def hi (j : Fin 8) : Fin 16 :=
  ⟨j.val + 8, by omega⟩

def constants : Fin 8 → UInt64 :=
  ![0x9E3779B97F4A7C15, 0xBF58476D1CE4E5B9, 0x94D049BB133111EB, 0xD6E8FEB86659FD93,
    0xA0761D6478BD642F, 0xE7037ED1A0B428DB, 0x8EBC6AF09C88C6E3, 0x589965CC75374CC3]

def rotation1 : Fin 8 → UInt64 :=
  ![13, 29, 43, 57, 17, 31, 47, 59]

def rotation2 : Fin 8 → UInt64 :=
  ![37, 53, 11, 23, 41, 7, 19, 61]

def checkpointRotation : Fin 8 → UInt64 :=
  ![7, 19, 31, 43, 11, 23, 37, 53]

/-- Rotate left by a number of bits between 1 and 63. -/
def rotl (x k : UInt64) : UInt64 :=
  (x <<< k) ||| (x >>> (64 - k))

/-- The four words a quarter round works on. -/
structure Quarter where
  a : UInt64
  b : UInt64
  c : UInt64
  d : UInt64
  deriving DecidableEq

def g (q : Quarter) : Quarter :=
  let a := q.a + q.b
  let d := rotl (q.d ^^^ a) 32
  let c := q.c + d
  let b := rotl (q.b ^^^ c) 24
  let a := a + b
  let d := rotl (d ^^^ a) 16
  let c := c + d
  let b := rotl (b ^^^ c) 63
  ⟨a, b, c, d⟩

/-- The quarter round on the words at four positions. -/
def applyG (state : State) (a b c d : Fin 16) : State :=
  let q := g ⟨state.get a, state.get b, state.get c, state.get d⟩
  (((state.store a q.a).store b q.b).store c q.c).store d q.d

def mercaARXColumns (state : State) : State :=
  let state := applyG state 0 4 8 12
  let state := applyG state 1 5 9 13
  let state := applyG state 2 6 10 14
  applyG state 3 7 11 15

def mercaARXDiagonals (state : State) : State :=
  let state := applyG state 0 5 10 15
  let state := applyG state 1 6 11 12
  let state := applyG state 2 7 8 13
  applyG state 3 4 9 14

def mercaARXRound (state : State) : State :=
  mercaARXDiagonals (mercaARXColumns state)

/-- A loop over the eight word positions that updates the state. -/
def forWords (body : Fin 8 → State → State) (state : State) : State :=
  (List.finRange 8).foldl (fun state j => body j state) state

end Mercahash

end MercaMiner
