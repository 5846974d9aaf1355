import MercaMiner.Basis.Loop
import MercaMiner.Core.Mercahash.Scratchpad

/-!
# Filling and Binding the Scratchpad

The first two phases of MercaHash, from `crypto/mercahash.cpp`.

Filling writes every line once, in order, from an evolving state that takes
its own output back in. Binding goes over the lines block by block, any
number of passes, and mixes each line with its predecessor and with a line of
an earlier block that the data selects.

A failed assertion stops the program, which is the result `none`. Binding
takes the source's nullable pointer to a record of statistics as an `Option`.

## Main definitions

* `Workspace`: The mixing state with the scratchpad.
* `fillScratchpad`: Filling.
* `Diagnostics`: The statistics a caller can ask for.
* `bindScratchpad`: Binding.
-/

namespace MercaMiner

namespace Mercahash

/-- What a phase changes. -/
structure Workspace where
  state : State
  scratchpad : Scratchpad

inductive ScratchpadFillMode where
  | alternatingHalfRound
  | twoFullRounds
  deriving DecidableEq

/-- The domain-separated transition into filling. -/
def enterFill (state : State) : State :=
  let state := state.xorAt 0 0x9E3779B97F4A7C15
  let state := state.xorAt 5 0xBF58476D1CE4E5B9
  let state := state.xorAt 10 0x94D049BB133111EB
  state.xorAt 15 0xD6E8FEB86659FD93

/-- What happens to the state before line `i` is generated. -/
def stirFill (mode : ScratchpadFillMode) (i : Nat) (state : State) : State :=
  let x := UInt64.ofNat i
  let state := state.addAt 0 x
  let state := state.xorAt 7 (rotl x 17)
  let state := state.addAt 8 (x ^^^ 0x9E3779B97F4A7C15)
  let state := state.xorAt 15 (rotl x 41)
  match mode with
  | .alternatingHalfRound =>
      if i % 2 = 0 then mercaARXColumns state else mercaARXDiagonals state
  | .twoFullRounds => mercaARXRound (mercaARXRound state)

def fillLine (state : State) : Line :=
  Vector.ofFn fun j => state.get (lo j) ^^^ state.get (hi j)

/-- Feed a generated line, by its words, back into the evolving state. -/
def feedFill (state : State) (words : Line) : State :=
  let state := state.addAt 0 (words.get 3)
  let state := state.xorAt 1 (rotl (words.get 4) 11)
  let state := state.addAt 2 (words.get 5)
  let state := state.xorAt 3 (rotl (words.get 6) 23)
  let state := state.addAt 4 (words.get 7)
  let state := state.xorAt 5 (rotl (words.get 0) 37)
  let state := state.addAt 6 (words.get 1)
  let state := state.xorAt 7 (rotl (words.get 2) 53)
  let state := state.xorAt 8 (words.get 5)
  let state := state.addAt 9 (rotl (words.get 6) 7)
  let state := state.xorAt 10 (words.get 7)
  let state := state.addAt 11 (rotl (words.get 0) 19)
  let state := state.xorAt 12 (words.get 1)
  let state := state.addAt 13 (rotl (words.get 2) 31)
  let state := state.xorAt 14 (words.get 3)
  state.addAt 15 (rotl (words.get 4) 47)

def fillStep (mode : ScratchpadFillMode) (i : Nat) (w : Workspace) : Option Workspace := do
  let state := stirFill mode i w.state
  let line := fillLine state
  let scratchpad ← writeLine w.scratchpad i line
  return ⟨feedFill state line, scratchpad⟩

def fillScratchpad (w : Workspace) (mode : ScratchpadFillMode) : Option Workspace :=
  Loop.loop (fillStep mode) lineCount 0 ⟨enterFill w.state, w.scratchpad⟩

def bindBlockBytes : Nat := 4096

def bindBlockLines : Nat := bindBlockBytes / lineBytes

def bindBlockCount : Nat := scratchpadBytes / bindBlockBytes

def bindArxInterval : Nat := 16

def diagnosticRegions : Nat := 64

def lineIndexBits : Nat := 21

theorem bindBlockLines_eq : bindBlockLines = 64 := by decide

theorem bindBlockCount_eq : bindBlockCount = 32768 := by decide

structure Diagnostics where
  primaryAccesses : UInt64
  primaryUnique : UInt64
  secondaryAccesses : UInt64
  secondaryUnique : UInt64
  combinedUnique : UInt64
  forcedSecondaryDistinct : UInt64
  bindingReferenceAccesses : UInt64
  bindingReferenceUnique : UInt64
  bindingReferenceDistanceSum : UInt64
  bindingReferenceDistanceMin : UInt64
  bindingReferenceDistanceMax : UInt64
  bindingReferenceRelativeRegions : Vector UInt64 diagnosticRegions
  bindingReferenceSeen : Vector UInt8 bindBlockCount
  primaryRegions : Vector UInt64 diagnosticRegions
  secondaryRegions : Vector UInt64 diagnosticRegions
  primaryBitOnes : Vector UInt64 lineIndexBits
  secondaryBitOnes : Vector UInt64 lineIndexBits

/-- Count one reference from a block to an earlier one. -/
def recordReference (d : Diagnostics) (block referenceBlock : Nat) : Option Diagnostics :=
  let blockU64 := UInt64.ofNat block
  let distance := blockU64 - UInt64.ofNat referenceBlock
  let d :=
    if d.bindingReferenceAccesses = 0 ∨ distance < d.bindingReferenceDistanceMin then
      { d with bindingReferenceDistanceMin := distance }
    else d
  let d :=
    if distance > d.bindingReferenceDistanceMax then
      { d with bindingReferenceDistanceMax := distance }
    else d
  let d := { d with
    bindingReferenceDistanceSum := d.bindingReferenceDistanceSum + distance }
  let relativeRegion :=
    (UInt64.ofNat referenceBlock * UInt64.ofNat diagnosticRegions / blockU64).toNat
  if hregion : relativeRegion < diagnosticRegions then
    let d := { d with
      bindingReferenceRelativeRegions := d.bindingReferenceRelativeRegions.set relativeRegion
        (d.bindingReferenceRelativeRegions[relativeRegion] + 1) }
    -- The source indexes the array without a check.
    if hseen : referenceBlock < bindBlockCount then
      let d :=
        if d.bindingReferenceSeen[referenceBlock] = 0 then
          { d with
            bindingReferenceSeen := d.bindingReferenceSeen.set referenceBlock 1
            bindingReferenceUnique := d.bindingReferenceUnique + 1 }
        else d
      some { d with bindingReferenceAccesses := d.bindingReferenceAccesses + 1 }
    else none
  else none

/-- The checks on a reference to another block, with the statistics when they
    are wanted. The first block has no earlier one and is not checked. -/
def checkReference (diagnostics : Option Diagnostics) (block referenceBlock : Nat) :
    Option (Option Diagnostics) :=
  if block = 0 then some diagnostics
  else if referenceBlock < block then
    match diagnostics with
    | none => some none
    | some d => (recordReference d block referenceBlock).map some
  else none

/-- The variables of a block that its lines read. -/
structure BlockContext where
  state : State
  pass : UInt64
  block : Nat
  previousBlock : Nat
  referenceBlock : Nat
  referenceRotation : Nat

/-- The new contents of a line of a block. -/
def boundLine (c : BlockContext) (line : Nat) (current previous reference : Line) : Line :=
  let lineTag := UInt64.ofNat c.block ^^^ (UInt64.ofNat line * constants 0) ^^^
    (c.pass * constants 3)
  Vector.ofFn fun j =>
    let x := current.get j + previous.get (j + 1)
    let y := reference.get (j + 3) + c.state.get (Fin.ofNat 16 (j.val + line))
    x ^^^ rotl y (rotation1 j) ^^^ rotl lineTag (rotation2 j)

def accumulate (accumulator bound : Line) : Line :=
  Vector.ofFn fun j => accumulator.get j ^^^ (bound.get j + rotl (bound.get (j + 1)) (rotation2 j))

def currentLine (c : BlockContext) (line : Nat) : Nat :=
  c.block * bindBlockLines + line

def previousLine (c : BlockContext) (line : Nat) : Nat :=
  c.previousBlock * bindBlockLines + ((line + bindBlockLines - 1) &&& (bindBlockLines - 1))

def referenceLine (c : BlockContext) (line : Nat) : Nat :=
  c.referenceBlock * bindBlockLines + ((line + c.referenceRotation) &&& (bindBlockLines - 1))

/-- One line of a block, with the block's accumulator. -/
def bindLine (c : BlockContext) (line : Nat) (s : Scratchpad × Line) :
    Option (Scratchpad × Line) := do
  let current ← readLine s.1 (currentLine c line)
  let previous ← readLine s.1 (previousLine c line)
  let reference ← readLine s.1 (referenceLine c line)
  let bound := boundLine c line current previous reference
  let scratchpad ← writeLine s.1 (currentLine c line) bound
  return (scratchpad, accumulate s.2 bound)

/-- Take a block's accumulator into the state. -/
def feedBind (referenceSeed blockU64 : UInt64) (accumulator : Line) : State → State :=
  forWords fun j state =>
    let state := state.xorAt (lo j) (accumulator.get j + referenceSeed)
    state.addAt (hi j) (rotl (accumulator.get (j + 3)) (rotation1 j) ^^^ blockU64)

/-- What binding changes. -/
structure Binding extends Workspace where
  diagnostics : Option Diagnostics

def referenceSeed (state : State) (pass blockU64 : UInt64) (head : Line) : UInt64 :=
  state.get 0 ^^^ rotl (state.get 7) 19 ^^^ state.get 13 ^^^ head.get 0 ^^^ rotl (head.get 7) 31 ^^^
    (blockU64 * constants 1) ^^^ ((pass + 1) * constants 6)

/-- The variables of a block once its reference seed is known. -/
def blockContext (state : State) (pass : UInt64) (block : Nat) (seed : UInt64) : BlockContext where
  state := state
  pass := pass
  block := block
  previousBlock := if block = 0 then bindBlockCount - 1 else block - 1
  referenceBlock :=
    if block = 0 then bindBlockCount - 1 else (seed % UInt64.ofNat block).toNat
  referenceRotation := ((seed >>> 17) &&& UInt64.ofNat (bindBlockLines - 1)).toNat

def bindBlock (pass : UInt64) (block : Nat) (b : Binding) : Option Binding := do
  let head ← readLine b.scratchpad (block * bindBlockLines)
  let blockU64 := UInt64.ofNat block
  let seed := referenceSeed b.state pass blockU64 head
  let c := blockContext b.state pass block seed
  -- The assertions about the reference, and the count of it.
  let diagnostics ← checkReference b.diagnostics block c.referenceBlock
  let (scratchpad, accumulator) ←
    Loop.loop (bindLine c) bindBlockLines 0 (b.scratchpad, Vector.replicate 8 0)
  let state := feedBind seed blockU64 accumulator b.state
  let state := if (block + 1) % bindArxInterval = 0 then mercaARXRound state else state
  return ⟨⟨state, scratchpad⟩, diagnostics⟩

/-- Stir the state at the start of a pass. -/
def enterPass (pass : UInt64) (state : State) : State :=
  let state := state.xorAt 0 (pass + constants 4)
  let state := state.addAt 8 ((pass + 1) * constants 5)
  mercaARXRound state

def bindPass (pass : Nat) (b : Binding) : Option Binding := do
  let pass := UInt64.ofNat pass
  let b' ← Loop.loop (bindBlock pass) bindBlockCount 0 { b with state := enterPass pass b.state }
  return { b' with state := mercaARXRound b'.state }

def bindScratchpad (b : Binding) (passes : UInt32) : Option Binding :=
  Loop.loop bindPass passes.toNat 0 b

end Mercahash

end MercaMiner
