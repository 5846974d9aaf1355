import MercaMiner.Core.Mercahash.Mix

/-!
# Hashing with Statistics

The second copy of MercaHash, from `crypto/mercahash.cpp`, which records which
lines the hash visits.

Binding is shared with the plain hash and takes the statistics as an optional
argument. Mixing is written out a second time: the same steps, with a record
after each line update. Beside the caller's statistics it keeps three tables
of the lines seen so far, which start empty with every call.

## Main definitions

* `emptyDiagnostics`: What the statistics are set to first.
* `recordDiagnosticIndex`: Counting one visit.
* `mixScratchpadDiagnostics`: Mixing with records.
* `hashWithDiagnostics`: The whole function.
-/

namespace MercaMiner

namespace Mercahash

/-- Statistics about nothing. -/
def emptyDiagnostics : Diagnostics where
  primaryAccesses := 0
  primaryUnique := 0
  secondaryAccesses := 0
  secondaryUnique := 0
  combinedUnique := 0
  forcedSecondaryDistinct := 0
  bindingReferenceAccesses := 0
  bindingReferenceUnique := 0
  bindingReferenceDistanceSum := 0
  bindingReferenceDistanceMin := 0
  bindingReferenceDistanceMax := 0
  bindingReferenceRelativeRegions := Vector.replicate diagnosticRegions 0
  bindingReferenceSeen := Vector.replicate bindBlockCount 0
  primaryRegions := Vector.replicate diagnosticRegions 0
  secondaryRegions := Vector.replicate diagnosticRegions 0
  primaryBitOnes := Vector.replicate lineIndexBits 0
  secondaryBitOnes := Vector.replicate lineIndexBits 0

/-- Which lines were seen. -/
abbrev SeenLines := Vector Bool lineCount

/-- The loop over the bits of a line number. -/
def countBits (lineIndex : Nat) (bitOnes : Vector UInt64 lineIndexBits) :
    Vector UInt64 lineIndexBits :=
  Vector.ofFn fun bit =>
    if (lineIndex >>> bit.val) &&& 1 ≠ 0 then bitOnes.get bit + 1 else bitOnes.get bit

/-- Count a visit of a line, with the tables of the lines seen by visits of its
    kind and by any. -/
def recordDiagnosticIndex (lineIndex : Nat) (primary : Bool) (d : Diagnostics)
    (seen seenCombined : SeenLines) : Option (Diagnostics × SeenLines × SeenLines) :=
  if hline : lineIndex < lineCount then
    let (seen, d) :=
      if seen[lineIndex] then (seen, d)
      else (seen.set lineIndex true,
        if primary then { d with primaryUnique := d.primaryUnique + 1 }
        else { d with secondaryUnique := d.secondaryUnique + 1 })
    let (seenCombined, d) :=
      if seenCombined[lineIndex] then (seenCombined, d)
      else (seenCombined.set lineIndex true, { d with combinedUnique := d.combinedUnique + 1 })
    let region := lineIndex / (lineCount / diagnosticRegions)
    -- The source indexes the array without a check.
    if hregion : region < diagnosticRegions then
      let d :=
        if primary then
          { d with
            primaryRegions := d.primaryRegions.set region (d.primaryRegions[region] + 1)
            primaryBitOnes := countBits lineIndex d.primaryBitOnes }
        else
          { d with
            secondaryRegions := d.secondaryRegions.set region (d.secondaryRegions[region] + 1)
            secondaryBitOnes := countBits lineIndex d.secondaryBitOnes }
      some (d, seen, seenCombined)
    else none
  else none

/-- What mixing with records changes. -/
structure Mixing extends Workspace where
  diagnostics : Diagnostics
  seenPrimary : SeenLines
  seenSecondary : SeenLines
  seenCombined : SeenLines

/-- The record after the first line update of a step. -/
def recordPrimary (m : Mixing) (w : Workspace) (primary : PrimaryResult) : Option Mixing := do
  let d := { m.diagnostics with primaryAccesses := m.diagnostics.primaryAccesses + 1 }
  let (d, seenPrimary, seenCombined) ←
    recordDiagnosticIndex primary.lineIndex true d m.seenPrimary m.seenCombined
  return ⟨w, d, seenPrimary, m.seenSecondary, seenCombined⟩

/-- The record after the second one. -/
def recordSecondary (m : Mixing) (w : Workspace) (secondary : SecondaryResult) :
    Option Mixing := do
  let d := { m.diagnostics with secondaryAccesses := m.diagnostics.secondaryAccesses + 1 }
  let d :=
    if secondary.forcedDistinct then
      { d with forcedSecondaryDistinct := d.forcedSecondaryDistinct + 1 }
    else d
  let (d, seenSecondary, seenCombined) ←
    recordDiagnosticIndex secondary.lineIndex false d m.seenSecondary m.seenCombined
  return ⟨w, d, m.seenPrimary, seenSecondary, seenCombined⟩

section

variable (sha3_512 : Bytes → Vector UInt8 64) (sha3_256 : Bytes → UInt256)

def mixStepDiagnostics (step : Nat) (m : Mixing) : Option Mixing := do
  let step := UInt64.ofNat step
  let (primary, w) ← primaryStep m.toWorkspace step
  let m ← recordPrimary m w primary
  if step % secondaryInterval = 0 then
    let (secondary, w) ← secondaryStep m.toWorkspace step primary
    let m ← recordSecondary m w secondary
    return { m with state := afterSecondary sha3_512 m.state step primary secondary }
  else
    return m

/-- Mixing with records, from empty tables. -/
def mixScratchpadDiagnostics (w : Workspace) (mixSteps : UInt32) (diagnostics : Diagnostics) :
    Option Mixing :=
  Loop.loop (mixStepDiagnostics sha3_512) mixSteps.toNat 1
    ⟨w, diagnostics, Vector.replicate lineCount false, Vector.replicate lineCount false,
      Vector.replicate lineCount false⟩

/-- What happens once the scratchpad is filled. Binding returns statistics
    because it was given some. -/
def hashFilledDiagnostics (header : Bytes) (params : WorkParams) (w : Workspace)
    (diagnostics : Diagnostics) : Option (UInt256 × Scratchpad × Diagnostics) := do
  let b ← bindScratchpad ⟨w, some diagnostics⟩ params.bindingPasses
  let diagnostics ← b.diagnostics
  let m ← mixScratchpadDiagnostics sha3_512 b.toWorkspace params.mixSteps diagnostics
  let state ← finalSample m.state m.scratchpad
  return (finalizeHash sha3_256 state header, m.scratchpad, m.diagnostics)

/-- The hash of a header with statistics about it, and the scratchpad it leaves
    behind. -/
def hashWithDiagnostics (header : Bytes) (scratchpad : Scratchpad) (params : WorkParams)
    (_diagnostics : Diagnostics) : Option (UInt256 × Scratchpad × Diagnostics) :=
  -- The caller's statistics are overwritten before anything reads them.
  let diagnostics := emptyDiagnostics
  if header.length = headerSize ∧ params.mixSteps > 0 then do
    let w ← fillScratchpad ⟨initialState sha3_512 header, scratchpad⟩ params.scratchpadFill
    hashFilledDiagnostics sha3_512 sha3_256 header params w diagnostics
  else none

end

end Mercahash

end MercaMiner
