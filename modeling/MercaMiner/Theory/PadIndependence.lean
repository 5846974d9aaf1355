import MercaMiner.Core.Header
import MercaMiner.Core.Mercahash.Mix
import MercaMiner.Core.Scanner

/-!
# MercaHash Ignores the Old Scratchpad

The hash of a header does not depend on what the scratchpad held before, so a
scanner that reuses its scratchpad computes what a fresh one would.

Filling never reads the scratchpad. Two runs of it over different scratchpads
therefore go through the same states, and after line `i` is written their
scratchpads agree on the first `i + 1` lines. At the end they agree
everywhere, and the phases that do read start from equal workspaces.

The other half is that no phase stops the program: every line number a phase
computes is in range and every assertion holds. Then "the same result" is a
hash and a scratchpad, and not two runs that both fail.

## Main definitions

* `AgreeBelow`: Two workspaces equal as far as filling has come.
* `ScanCall`, `scanAll`: A sequence of scans on one scanner.

## Theorems

* `fillScratchpad_agree`: Filling forgets the scratchpad.
* `bindScratchpad_total`, `mixScratchpad_total`, `finalSample_total`: The
  later phases do not stop.
* `hash_forgets`: The hash and the final scratchpad are functions of the
  header.
* `pad_independent`: So are the results of all scans on one scanner.
-/

namespace MercaMiner

namespace Mercahash

/-- The states are equal, and the lines below `i`. -/
def AgreeBelow (i : Nat) (w w' : Workspace) : Prop :=
  w.state = w'.state ∧
    ∀ k, (hk : k < lineCount) → k < i → lineAt w.scratchpad k hk = lineAt w'.scratchpad k hk

theorem agreeBelow_zero (state : State) (pad pad' : Scratchpad) :
    AgreeBelow 0 ⟨state, pad⟩ ⟨state, pad'⟩ :=
  ⟨rfl, fun _ _ hk => absurd hk (Nat.not_lt_zero _)⟩

theorem agreeBelow_lineCount (w w' : Workspace) (h : AgreeBelow lineCount w w') : w = w' := by
  rcases w with ⟨state, pad⟩
  rcases w' with ⟨state', pad'⟩
  rcases h with ⟨hstate, hlines⟩
  have hpad : pad = pad' := scratchpad_ext pad pad' fun i hi => hlines i hi hi
  rw [hpad, show state = state' from hstate]

theorem fillStep_eq (mode : ScratchpadFillMode) (i : Nat) (w : Workspace) (pad : Scratchpad)
    (h : writeLine w.scratchpad i (fillLine (stirFill mode i w.state)) = some pad) :
    fillStep mode i w =
      some ⟨feedFill (stirFill mode i w.state) (fillLine (stirFill mode i w.state)), pad⟩ := by
  simp only [fillStep, h, Option.bind_eq_bind, Option.bind_some, Option.pure_def]

/-- One line: the same states write the same line, and what was written
    before is left alone. -/
theorem fillStep_agree (mode : ScratchpadFillMode) (i : Nat) (hi : i < lineCount)
    (w w' : Workspace) (h : AgreeBelow i w w') :
    ∃ v v', fillStep mode i w = some v ∧ fillStep mode i w' = some v' ∧
      AgreeBelow (i + 1) v v' := by
  rcases h with ⟨hstate, hlines⟩
  rcases writeLine_isSome w.scratchpad i (fillLine (stirFill mode i w.state)) hi with ⟨pad, hpad⟩
  rcases writeLine_isSome w'.scratchpad i (fillLine (stirFill mode i w'.state)) hi with
    ⟨pad', hpad'⟩
  refine ⟨_, _, fillStep_eq mode i w pad hpad, fillStep_eq mode i w' pad' hpad', ?_, ?_⟩
  · simp only [hstate]
  intro k hk hlt
  -- The line just written is equal, and lines below it are untouched.
  by_cases hki : i = k
  · subst hki
    rw [lineAt_writeLine _ pad i _ hk hpad, lineAt_writeLine _ pad' i _ hk hpad', hstate]
  · rw [lineAt_writeLine_other _ pad i k _ hk hki hpad,
      lineAt_writeLine_other _ pad' i k _ hk hki hpad']
    exact hlines k hk (by omega)

/-- Filling succeeds and forgets what the scratchpad held. -/
theorem fillScratchpad_agree (mode : ScratchpadFillMode) (state : State)
    (pad pad' : Scratchpad) :
    ∃ w, fillScratchpad ⟨state, pad⟩ mode = some w ∧
      fillScratchpad ⟨state, pad'⟩ mode = some w := by
  rcases Loop.total_of_relation (fillStep mode) (fillStep mode) AgreeBelow lineCount 0 _ _
    (agreeBelow_zero (enterFill state) pad pad')
    (fun i w w' _ hlt h => fillStep_agree mode i (by omega) w w' h) with ⟨w, w', hw, hw', h⟩
  rw [Nat.zero_add] at h
  rw [← agreeBelow_lineCount w w' h] at hw'
  exact ⟨w, hw, hw'⟩

theorem toNat_and_lineMask (seed : UInt64) : (seed &&& lineMask).toNat < lineCount := by
  have hle := Nat.and_le_right (n := seed.toNat) (m := lineMask.toNat)
  rw [UInt64.toNat_and]
  rw [toNat_lineMask, lineCount_eq] at hle
  rw [toNat_lineMask, lineCount_eq]
  omega

theorem primaryIndex_lt (state : State) (step : UInt64) :
    primaryIndex state step < lineCount :=
  toNat_and_lineMask _

theorem secondaryIndex_lt (state : State) (step : UInt64) (primary : PrimaryResult) :
    secondaryIndex state step primary < lineCount :=
  toNat_and_lineMask _

/-- Flipping the low bit stays in range, since the range is a power of two. -/
theorem xor_one_lt_lineCount (i : Nat) (h : i < lineCount) : i ^^^ 1 < lineCount := by
  have hpow : lineCount = 2 ^ 21 := by decide
  rw [hpow] at h ⊢
  exact Nat.xor_lt_two_pow h (by omega)

theorem primaryStep_total (w : Workspace) (step : UInt64) :
    ∃ r, primaryStep w step = some r := by
  have hlt := primaryIndex_lt w.state step
  simp only [primaryStep, Option.bind_eq_bind]
  refine Loop.bind_total _ _ ⟨_, readLine_eq _ _ hlt⟩ fun memory _ => ?_
  exact Loop.bind_total _ _ (writeLine_isSome _ _ _ hlt) fun pad _ => ⟨_, rfl⟩

theorem secondaryStep_total (w : Workspace) (step : UInt64) (primary : PrimaryResult) :
    ∃ r, secondaryStep w step primary = some r := by
  have hlt : (if (secondaryIndex w.state step primary == primary.lineIndex) = true then
      secondaryIndex w.state step primary ^^^ 1 else secondaryIndex w.state step primary)
      < lineCount := by
    -- Moved or not, the line is in range.
    have hraw := secondaryIndex_lt w.state step primary
    by_cases h : (secondaryIndex w.state step primary == primary.lineIndex) = true
    · rw [if_pos h]
      exact xor_one_lt_lineCount _ hraw
    · rw [if_neg h]
      exact hraw
  simp only [secondaryStep, Option.bind_eq_bind]
  refine Loop.bind_total _ _ ⟨_, readLine_eq _ _ hlt⟩ fun memory _ => ?_
  exact Loop.bind_total _ _ (writeLine_isSome _ _ _ hlt) fun pad _ => ⟨_, rfl⟩

theorem bindBlock_lines (block line : Nat) (hblock : block < bindBlockCount) (hline : line < 64) :
    block * bindBlockLines + line < lineCount := by
  rw [bindBlockCount_eq] at hblock
  rw [bindBlockLines_eq, lineCount_eq]
  omega

theorem and_bindBlockLines (x : Nat) : x &&& (bindBlockLines - 1) < 64 := by
  have hle := Nat.and_le_right (n := x) (m := bindBlockLines - 1)
  rw [bindBlockLines_eq] at hle ⊢
  omega

/-- A line of a block is bound when the three lines it reads are in range. -/
theorem bindLine_isSome (c : BlockContext) (line : Nat) (s : Scratchpad × Line)
    (hcur : currentLine c line < lineCount) (hprev : previousLine c line < lineCount)
    (href : referenceLine c line < lineCount) : ∃ s', bindLine c line s = some s' := by
  simp only [bindLine, Option.bind_eq_bind]
  refine Loop.bind_total _ _ ⟨_, readLine_eq _ _ hcur⟩ fun current _ => ?_
  refine Loop.bind_total _ _ ⟨_, readLine_eq _ _ hprev⟩ fun previous _ => ?_
  refine Loop.bind_total _ _ ⟨_, readLine_eq _ _ href⟩ fun reference _ => ?_
  exact Loop.bind_total _ _ (writeLine_isSome _ _ _ hcur) fun pad _ => ⟨_, rfl⟩

/-- A block's lines, and those of the two blocks it refers to, are in range. -/
theorem bindLine_total (c : BlockContext) (line : Nat) (s : Scratchpad × Line)
    (hblock : c.block < bindBlockCount) (hprevious : c.previousBlock < bindBlockCount)
    (hreference : c.referenceBlock < bindBlockCount) (hline : line < bindBlockLines) :
    ∃ s', bindLine c line s = some s' := by
  rw [bindBlockLines_eq] at hline
  have hcur : currentLine c line < lineCount := bindBlock_lines _ _ hblock hline
  have hprev : previousLine c line < lineCount :=
    bindBlock_lines _ _ hprevious (and_bindBlockLines _)
  have href : referenceLine c line < lineCount :=
    bindBlock_lines _ _ hreference (and_bindBlockLines _)
  exact bindLine_isSome c line s hcur hprev href

theorem toNat_block (block : Nat) (h : block < bindBlockCount) :
    (UInt64.ofNat block).toNat = block := by
  rw [bindBlockCount_eq] at h
  rw [UInt64.toNat_ofNat']
  omega

theorem blockContext_previous (state : State) (pass seed : UInt64) (block : Nat)
    (h : block < bindBlockCount) :
    (blockContext state pass block seed).previousBlock < bindBlockCount := by
  simp only [blockContext]
  by_cases h0 : block = 0
  · rw [if_pos h0]
    decide
  · rw [if_neg h0]
    omega

theorem blockContext_reference (state : State) (pass seed : UInt64) (block : Nat)
    (h : block < bindBlockCount) (h0 : block ≠ 0) :
    (blockContext state pass block seed).referenceBlock < block := by
  simp only [blockContext, if_neg h0]
  rw [UInt64.toNat_mod, toNat_block block h]
  exact Nat.mod_lt _ (by omega)

theorem blockContext_reference_lt (state : State) (pass seed : UInt64) (block : Nat)
    (h : block < bindBlockCount) :
    (blockContext state pass block seed).referenceBlock < bindBlockCount := by
  by_cases h0 : block = 0
  · simp only [blockContext, if_pos h0]
    decide
  · have hlt := blockContext_reference state pass seed block h h0
    omega

/-- The region of a reference counts in sixty-fourths of the block number. It is
    computed without wrapping. -/
theorem referenceRegion_eq (block referenceBlock : Nat) (h : block < bindBlockCount)
    (hlt : referenceBlock < block) :
    (UInt64.ofNat referenceBlock * UInt64.ofNat diagnosticRegions / UInt64.ofNat block).toNat
      = referenceBlock * diagnosticRegions / block := by
  have h64 : (UInt64.ofNat diagnosticRegions).toNat = diagnosticRegions := rfl
  rw [UInt64.toNat_div, UInt64.toNat_mul, toNat_block block h,
    toNat_block referenceBlock (by omega), h64]
  rw [bindBlockCount_eq] at h
  rw [Nat.mod_eq_of_lt (by rw [diagnosticRegions]; omega)]

theorem referenceRegion_lt (block referenceBlock : Nat) (h : block < bindBlockCount)
    (hlt : referenceBlock < block) :
    (UInt64.ofNat referenceBlock * UInt64.ofNat diagnosticRegions / UInt64.ofNat block).toNat
      < diagnosticRegions := by
  rw [referenceRegion_eq block referenceBlock h hlt]
  exact Nat.div_lt_of_lt_mul (Nat.mul_lt_mul_of_pos_right hlt (by decide))

theorem recordReference_total (d : Diagnostics) (block referenceBlock : Nat)
    (h : block < bindBlockCount) (hlt : referenceBlock < block) :
    ∃ d', recordReference d block referenceBlock = some d' := by
  unfold recordReference
  simp only [dif_pos (referenceRegion_lt block referenceBlock h hlt),
    dif_pos (Nat.lt_trans hlt h), Option.some.injEq, exists_eq']

theorem checkReference_total (diagnostics : Option Diagnostics) (block referenceBlock : Nat)
    (h : block < bindBlockCount) (hlt : block ≠ 0 → referenceBlock < block) :
    ∃ d, checkReference diagnostics block referenceBlock = some d := by
  unfold checkReference
  by_cases h0 : block = 0
  · rw [if_pos h0]
    exact ⟨_, rfl⟩
  rw [if_neg h0, if_pos (hlt h0)]
  cases diagnostics with
  | none => exact ⟨_, rfl⟩
  | some d =>
      rcases recordReference_total d block referenceBlock h (hlt h0) with ⟨d', hd⟩
      simp only [hd, Option.map_some, Option.some.injEq, exists_eq']

theorem bindBlock_total (pass : UInt64) (block : Nat) (h : block < bindBlockCount)
    (b : Binding) : ∃ b', bindBlock pass block b = some b' := by
  have hhead : block * bindBlockLines < lineCount := bindBlock_lines block 0 h (by omega)
  simp only [bindBlock, Option.bind_eq_bind]
  refine Loop.bind_total _ _ ⟨_, readLine_eq _ _ hhead⟩ fun head _ => ?_
  refine Loop.bind_total _ _ (checkReference_total _ block _ h
    (blockContext_reference b.state pass _ block h)) fun d _ => ?_
  refine Loop.bind_total _ _ (Loop.loop_total _ _ _ _ fun line s _ hlt => ?_) fun s _ => ⟨_, rfl⟩
  exact bindLine_total _ line s h (blockContext_previous b.state pass _ block h)
    (blockContext_reference_lt b.state pass _ block h) (by omega)

theorem bindPass_total (pass : Nat) (b : Binding) : ∃ b', bindPass pass b = some b' := by
  simp only [bindPass, Option.bind_eq_bind]
  exact Loop.bind_total _ _ (Loop.loop_total _ _ _ _ fun block b' _ hlt =>
    bindBlock_total _ block (by omega) b') fun b' _ => ⟨_, rfl⟩

theorem bindScratchpad_total (b : Binding) (passes : UInt32) :
    ∃ b', bindScratchpad b passes = some b' :=
  Loop.loop_total bindPass passes.toNat 0 b fun pass b' _ _ => bindPass_total pass b'

section

variable (sha3_512 : Bytes → Vector UInt8 64) (sha3_256 : Bytes → UInt256)

theorem mixStep_total (step : Nat) (w : Workspace) :
    ∃ w', mixStep sha3_512 step w = some w' := by
  simp only [mixStep, Option.bind_eq_bind]
  refine Loop.bind_total _ _ (primaryStep_total w _) fun r _ => ?_
  by_cases h : UInt64.ofNat step % secondaryInterval = 0
  · simp only [if_pos h]
    exact Loop.bind_total _ _ (secondaryStep_total _ _ _) fun r' _ => ⟨_, rfl⟩
  · simp only [if_neg h]
    exact ⟨_, rfl⟩

theorem mixScratchpad_total (w : Workspace) (mixSteps : UInt32) :
    ∃ w', mixScratchpad sha3_512 w mixSteps = some w' :=
  Loop.loop_total (mixStep sha3_512) mixSteps.toNat 1 w fun step w' _ _ =>
    mixStep_total sha3_512 step w'

theorem sampleStep_total (pad : Scratchpad) (sample : Nat) (state : State) :
    ∃ state', sampleStep pad sample state = some state' := by
  simp only [sampleStep, Option.bind_eq_bind]
  exact Loop.bind_total _ _ ⟨_, readLine_eq _ _ (primaryIndex_lt state _)⟩ fun memory _ => ⟨_, rfl⟩

theorem finalSample_total (state : State) (pad : Scratchpad) :
    ∃ state', finalSample state pad = some state' :=
  Loop.loop_total (sampleStep pad) finalReads 0 state fun sample state' _ _ =>
    sampleStep_total pad sample state'

theorem hashFilled_total (header : Bytes) (params : WorkParams) (w : Workspace) :
    ∃ r, hashFilled sha3_512 sha3_256 header params w = some r := by
  simp only [hashFilled, Option.bind_eq_bind]
  refine Loop.bind_total _ _ (bindScratchpad_total _ _) fun b _ => ?_
  refine Loop.bind_total _ _ (mixScratchpad_total sha3_512 _ _) fun w' _ => ?_
  exact Loop.bind_total _ _ (finalSample_total _ _) fun state _ => ⟨_, rfl⟩

/-- The phases after filling see a workspace that depends only on the
    header. -/
theorem hash_forgets (header : Bytes) (params : WorkParams) (hlen : header.length = headerSize)
    (hsteps : params.mixSteps > 0) :
    ∃ out final, ∀ pad, hash sha3_512 sha3_256 header pad params = some (out, final) := by
  have hfill (pad pad' : Scratchpad) := fillScratchpad_agree params.scratchpadFill
    (initialState sha3_512 header) pad pad'
  rcases hfill (Vector.replicate scratchpadBytes 0) (Vector.replicate scratchpadBytes 0) with
    ⟨w, hw, _⟩
  rcases hashFilled_total sha3_512 sha3_256 header params w with ⟨⟨out, final⟩, hr⟩
  -- Whatever the scratchpad holds, filling ends in the same workspace.
  refine ⟨out, final, fun pad => ?_⟩
  rcases hfill (Vector.replicate scratchpadBytes 0) pad with ⟨w', hw', hpad⟩
  rw [hw, Option.some.injEq] at hw'
  rw [hash, if_pos ⟨hlen, hsteps⟩]
  simp only [hpad, ← hw', Option.bind_eq_bind, Option.bind_some, hr]

theorem hashV1_isSome (header : Bytes) (hlen : header.length = headerSize) (pad : Scratchpad) :
    (hashV1 sha3_512 sha3_256 header pad).isSome := by
  rcases hash_forgets sha3_512 sha3_256 header v1Params hlen (by decide) with ⟨out, final, h⟩
  rw [hashV1, h pad]
  rfl

/-- `HashV1` as the scanner calls it: on byte strings of a header's length,
    where it does not stop. -/
def scannerHash (header : Bytes) (pad : Scratchpad) : UInt256 × Scratchpad :=
  if hlen : header.length = headerSize then
    (hashV1 sha3_512 sha3_256 header pad).get (hashV1_isSome sha3_512 sha3_256 header hlen pad)
  else (UInt256.zero, pad)

theorem scannerHash_eq (header : Bytes) (hlen : header.length = headerSize) (pad : Scratchpad) :
    hashV1 sha3_512 sha3_256 header pad = some (scannerHash sha3_512 sha3_256 header pad) := by
  rw [scannerHash, dif_pos hlen, Option.some_get]

/-- The hash in a serialized header's scan is the same from any two
    scratchpads, and so is the scratchpad afterwards. -/
theorem scannerHash_forgets (header : BlockHeader) (nonce : UInt32) (pad pad' : Scratchpad) :
    scannerHash sha3_512 sha3_256 (headerBytes header nonce) pad =
      scannerHash sha3_512 sha3_256 (headerBytes header nonce) pad' := by
  have hlen : (headerBytes header nonce).length = headerSize := BlockHeader.length_serialize _
  rcases hash_forgets sha3_512 sha3_256 _ v1Params hlen (by decide) with ⟨out, final, h⟩
  have hpad := scannerHash_eq sha3_512 sha3_256 _ hlen pad
  have hpad' := scannerHash_eq sha3_512 sha3_256 _ hlen pad'
  rw [hashV1, h pad, Option.some.injEq] at hpad
  rw [hashV1, h pad', Option.some.injEq] at hpad'
  rw [← hpad, ← hpad']

/-- A scan cut off before its first hash returns the scratchpad it was given;
    the result never depends on it. -/
theorem scanLoop_forgets (header : BlockHeader) (target : UInt256) (fuel : Nat)
    (readings : Nat → FlagReadings) (f : ScanFrame) (pad pad' : Scratchpad) :
    (scanLoop (scannerHash sha3_512 sha3_256) header target fuel readings f pad).map Prod.fst =
      (scanLoop (scannerHash sha3_512 sha3_256) header target fuel readings f pad').map
        Prod.fst :=
  scanLoop_congr _ header target _
    (fun nonce pad pad' => by rw [scannerHash_forgets sha3_512 sha3_256 header nonce pad pad'])
    fuel readings readings (fun _ => rfl) f pad pad'

end

/-- The arguments of a scan, with what its iterations read from the flags. -/
structure ScanCall where
  header : BlockHeader
  target : UInt256
  readings : Nat → FlagReadings
  nonceBegin : UInt32
  nonceEnd : UInt32

section

variable (sha3_512 : Bytes → Vector UInt8 64) (sha3_256 : Bytes → UInt256)

/-- One call of `Scan` on a scanner that holds the given scratchpad. -/
def ScanCall.scan (c : ScanCall) (pad : Scratchpad) :
    Except ScanError (Option (ScanResult × Scratchpad)) :=
  MercaMiner.scan (scannerHash sha3_512 sha3_256) c.header c.target c.readings c.nonceBegin
    c.nonceEnd pad

/-- What a call returns, without the scratchpad it leaves. -/
def ScanCall.result (c : ScanCall) (pad : Scratchpad) : Except ScanError (Option ScanResult) :=
  (c.scan sha3_512 sha3_256 pad).map (Option.map Prod.fst)

/-- The scratchpad a call leaves. A call that throws leaves the old one. -/
def ScanCall.leaves (c : ScanCall) (pad : Scratchpad) : Scratchpad :=
  match c.scan sha3_512 sha3_256 pad with
  | .ok (some r) => r.2
  | _ => pad

/-- The results of a sequence of calls on one scanner. -/
def scanAll : List ScanCall → Scratchpad → List (Except ScanError (Option ScanResult))
  | [], _ => []
  | c :: calls, pad =>
      c.result sha3_512 sha3_256 pad :: scanAll calls (c.leaves sha3_512 sha3_256 pad)

/-- The scratchpad of a scanner just constructed. -/
def freshScratchpad : Scratchpad :=
  Vector.replicate scratchpadBytes 0

theorem result_forgets (c : ScanCall) (pad pad' : Scratchpad) :
    c.result sha3_512 sha3_256 pad = c.result sha3_512 sha3_256 pad' := by
  simp only [ScanCall.result, ScanCall.scan, scan]
  by_cases h : c.nonceBegin > c.nonceEnd
  · rw [if_pos h, if_pos h]
  · rw [if_neg h, if_neg h]
    simp only [Except.map]
    rw [scanLoop_forgets sha3_512 sha3_256 _ _ _ _ _ pad pad']

theorem scanAll_eq (calls : List ScanCall) (pad pad' : Scratchpad) :
    scanAll sha3_512 sha3_256 calls pad =
      calls.map fun c => c.result sha3_512 sha3_256 pad' := by
  induction calls generalizing pad with
  | nil => rfl
  | cons c calls ih => rw [scanAll, List.map_cons, ih, result_forgets sha3_512 sha3_256 c pad pad']

/-- A call returns a result unless its range is reversed. -/
theorem result_returns (c : ScanCall) (pad : Scratchpad) (h : c.nonceBegin ≤ c.nonceEnd) :
    ∃ r, c.result sha3_512 sha3_256 pad = .ok (some r) := by
  have hle : c.nonceBegin.toNat ≤ c.nonceEnd.toNat := UInt32.le_iff_toNat_le.mp h
  have hsome := scanLoop_isSome (scannerHash sha3_512 sha3_256) c.header c.target
    ((c.nonceEnd - c.nonceBegin).toNat + 1) c.readings
    (ScanFrame.start c.nonceBegin c.nonceEnd) pad hle (by
      rw [UInt32.toNat_sub_of_le _ _ h]
      exact Nat.lt_succ_self _)
  rcases Option.isSome_iff_exists.mp hsome with ⟨r, hr⟩
  refine ⟨r.1, ?_⟩
  simp only [ScanCall.result, ScanCall.scan, scan]
  rw [if_neg (by rw [gt_iff_lt, UInt32.lt_iff_toNat_lt]; omega), hr]
  rfl

end

/-- The hash of a header and the scratchpad it leaves do not depend on what
    the scratchpad held, and so any calls on one scanner return what each
    would return on a scanner of its own. -/
theorem pad_independent (sha3_512 : Bytes → Vector UInt8 64) (sha3_256 : Bytes → UInt256)
    (header : Bytes) (params : WorkParams) (hlen : header.length = headerSize)
    (hsteps : params.mixSteps > 0) :
    (∃ out final, ∀ pad, hash sha3_512 sha3_256 header pad params = some (out, final)) ∧
      ∀ calls : List ScanCall,
        scanAll sha3_512 sha3_256 calls freshScratchpad =
          (calls.map fun c => c.result sha3_512 sha3_256 freshScratchpad) ∧
        ∀ c ∈ calls, c.nonceBegin ≤ c.nonceEnd →
          ∃ r, c.result sha3_512 sha3_256 freshScratchpad = .ok (some r) :=
  ⟨hash_forgets sha3_512 sha3_256 header params hlen hsteps, fun calls =>
    ⟨scanAll_eq sha3_512 sha3_256 calls _ _, fun c _ => result_returns sha3_512 sha3_256 c _⟩⟩

/-- A scan of four nonces of the zero header that nobody cancels. -/
def fourNonces : ScanCall where
  header := ⟨0, UInt256.zero, UInt256.zero, 0, 0, 0⟩
  target := UInt256.zero
  readings := fun _ => ⟨some false, none, some false⟩
  nonceBegin := 0
  nonceEnd := 3

theorem pad_independent_four_nonces :
    (∃ out final, ∀ pad, hash (fun _ => Vector.replicate 64 0) (fun _ => UInt256.zero)
      (headerBytes fourNonces.header 0) pad v1Params = some (out, final)) ∧
      ∃ r, fourNonces.result (fun _ => Vector.replicate 64 0) (fun _ => UInt256.zero)
        freshScratchpad = .ok (some r) :=
  have h := pad_independent (fun _ => Vector.replicate 64 0) (fun _ => UInt256.zero)
    (headerBytes fourNonces.header 0) v1Params (BlockHeader.length_serialize _) (by decide)
  ⟨h.1, (h.2 [fourNonces]).2 fourNonces (List.mem_singleton_self _) (by decide)⟩

end Mercahash

end MercaMiner
