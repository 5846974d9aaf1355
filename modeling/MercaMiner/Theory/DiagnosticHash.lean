import MercaMiner.Core.Mercahash.Diagnostics
import MercaMiner.Theory.PadIndependence

/-!
# Statistics Leave the Hash Alone

The hash with statistics and the plain hash go through the same states and
write the same lines.

The two are run side by side, related by having equal workspaces. Binding is
one loop called in two ways; the related run also still holds its statistics.
Mixing is two loops, and one step of the second is one step of the first with
a record after each line update. A record never stops the program, because
the line it counts is one the step just wrote.

## Main definitions

* `Recorded`: A binding with statistics beside one without.

## Theorems

* `bindScratchpad_recorded`: Binding with statistics binds the same lines.
* `mixStepDiagnostics_eq`: A mixing step with records does a mixing step.
* `hash_with_diagnostics`: The two functions return the same hash and the same
  scratchpad.
-/

namespace MercaMiner

namespace Mercahash

/-- The same workspace, with statistics on the second side. -/
def Recorded (b b' : Binding) : Prop :=
  b.toWorkspace = b'.toWorkspace ∧ b'.diagnostics.isSome = true

/-- The checks give back statistics to a caller that passed some. -/
theorem checkReference_isSome (diagnostics diagnostics' : Option Diagnostics)
    (block referenceBlock : Nat) (hsome : diagnostics.isSome = true)
    (h : checkReference diagnostics block referenceBlock = some diagnostics') :
    diagnostics'.isSome = true := by
  unfold checkReference at h
  by_cases h0 : block = 0
  · rw [if_pos h0, Option.some.injEq] at h
    rwa [← h]
  rw [if_neg h0] at h
  by_cases hlt : referenceBlock < block
  · rw [if_pos hlt] at h
    rcases Option.isSome_iff_exists.mp hsome with ⟨d, rfl⟩
    simp only [Option.map_eq_some_iff] at h
    rcases h with ⟨d', _, rfl⟩
    rfl
  · rw [if_neg hlt] at h
    exact absurd h (by simp only [reduceCtorEq, not_false_eq_true])

/-- What a block does to the workspace is decided by the workspace. -/
theorem bindBlock_workspace (pass : UInt64) (block : Nat) (b b' v v' : Binding)
    (hw : b.toWorkspace = b'.toWorkspace) (hv : bindBlock pass block b = some v)
    (hv' : bindBlock pass block b' = some v') : v.toWorkspace = v'.toWorkspace := by
  rcases b with ⟨w, diagnostics⟩
  rcases b' with ⟨w', diagnostics'⟩
  have hw : w = w' := hw
  subst hw
  simp only [bindBlock, Option.bind_eq_bind, Option.bind_eq_some_iff, Option.pure_def,
    Option.some.injEq] at hv hv'
  -- The statistics only decide whether the block is bound, not how.
  rcases hv with ⟨head, hhead, d, _, s, hs, rfl⟩
  rcases hv' with ⟨head', hhead', d', _, s', hs', rfl⟩
  rw [hhead, Option.some.injEq] at hhead'
  subst hhead'
  rw [hs, Option.some.injEq] at hs'
  subst hs'
  rfl

theorem bindBlock_isSome (pass : UInt64) (block : Nat) (b v : Binding)
    (hsome : b.diagnostics.isSome = true) (hv : bindBlock pass block b = some v) :
    v.diagnostics.isSome = true := by
  simp only [bindBlock, Option.bind_eq_bind, Option.bind_eq_some_iff, Option.pure_def,
    Option.some.injEq] at hv
  rcases hv with ⟨head, _, d, hd, s, _, rfl⟩
  exact checkReference_isSome _ _ _ _ hsome hd

theorem bindBlock_recorded (pass : UInt64) (block : Nat) (hblock : block < bindBlockCount)
    (b b' : Binding) (h : Recorded b b') :
    ∃ v v', bindBlock pass block b = some v ∧ bindBlock pass block b' = some v' ∧
      Recorded v v' := by
  rcases bindBlock_total pass block hblock b with ⟨v, hv⟩
  rcases bindBlock_total pass block hblock b' with ⟨v', hv'⟩
  exact ⟨v, v', hv, hv', bindBlock_workspace pass block b b' v v' h.1 hv hv',
    bindBlock_isSome pass block b' v' h.2 hv'⟩

theorem bindPass_recorded (pass : Nat) (b b' : Binding) (h : Recorded b b') :
    ∃ v v', bindPass pass b = some v ∧ bindPass pass b' = some v' ∧ Recorded v v' := by
  -- The blocks of the two sides start from one workspace.
  have hstate : b.state = b'.state := congrArg Workspace.state h.1
  have hpad : b.scratchpad = b'.scratchpad := congrArg Workspace.scratchpad h.1
  have henter : Recorded { b with state := enterPass (UInt64.ofNat pass) b.state }
      { b' with state := enterPass (UInt64.ofNat pass) b'.state } := by
    refine ⟨?_, h.2⟩
    simp only [hstate, hpad]
  rcases Loop.total_of_relation (bindBlock (UInt64.ofNat pass)) (bindBlock (UInt64.ofNat pass))
    (fun _ => Recorded) bindBlockCount 0 _ _ henter
    (fun block b b' _ hlt h => bindBlock_recorded _ block (by omega) b b' h) with
    ⟨v, v', hv, hv', hrec⟩
  refine ⟨{ v with state := mercaARXRound v.state }, { v' with state := mercaARXRound v'.state },
    ?_, ?_, ?_, hrec.2⟩
  · simp only [bindPass, hv, Option.bind_eq_bind, Option.bind_some, Option.pure_def]
  · simp only [bindPass, hv', Option.bind_eq_bind, Option.bind_some, Option.pure_def]
  · have hworkspace := hrec.1
    rcases v with ⟨w, _⟩
    rcases v' with ⟨w', _⟩
    have hw : w = w' := hworkspace
    rw [hw]

/-- Any number of passes. -/
theorem bindScratchpad_recorded (passes : UInt32) (w : Workspace) (d : Diagnostics) :
    ∃ b b' d', bindScratchpad ⟨w, none⟩ passes = some b ∧
      bindScratchpad ⟨w, some d⟩ passes = some b' ∧
      b.toWorkspace = b'.toWorkspace ∧ b'.diagnostics = some d' := by
  rcases Loop.total_of_relation bindPass bindPass (fun _ => Recorded) passes.toNat 0 ⟨w, none⟩
    ⟨w, some d⟩ ⟨rfl, rfl⟩ (fun pass b b' _ _ h => bindPass_recorded pass b b' h) with
    ⟨b, b', hb, hb', hworkspace, hsome⟩
  rcases Option.isSome_iff_exists.mp hsome with ⟨d', hd⟩
  exact ⟨b, b', d', hb, hb', hworkspace, hd⟩

/-- The sixty-four regions cover the lines. -/
theorem recordDiagnosticIndex_total (lineIndex : Nat) (primary : Bool) (d : Diagnostics)
    (seen seenCombined : SeenLines) (h : lineIndex < lineCount) :
    ∃ r, recordDiagnosticIndex lineIndex primary d seen seenCombined = some r := by
  have hregion : lineIndex / (lineCount / diagnosticRegions) < diagnosticRegions := by
    rw [lineCount_eq] at h ⊢
    simp only [diagnosticRegions]
    omega
  unfold recordDiagnosticIndex
  rw [dif_pos h]
  simp only [dif_pos hregion, Option.some.injEq, exists_eq']

/-- The line of a record is one that was read. -/
theorem primaryStep_lineIndex (w : Workspace) (step : UInt64) (r : PrimaryResult × Workspace)
    (h : primaryStep w step = some r) : r.1.lineIndex < lineCount := by
  simp only [primaryStep, Option.bind_eq_bind, Option.bind_eq_some_iff, Option.pure_def,
    Option.some.injEq] at h
  rcases h with ⟨_, _, _, _, rfl⟩
  exact primaryIndex_lt w.state step

theorem secondaryStep_lineIndex (w : Workspace) (step : UInt64) (primary : PrimaryResult)
    (r : SecondaryResult × Workspace) (h : secondaryStep w step primary = some r) :
    r.1.lineIndex < lineCount := by
  have hraw := secondaryIndex_lt w.state step primary
  simp only [secondaryStep, Option.bind_eq_bind, Option.bind_eq_some_iff, Option.pure_def,
    Option.some.injEq] at h
  rcases h with ⟨_, _, _, _, rfl⟩
  -- The counted line is the one after it was made distinct.
  by_cases hforced : (secondaryIndex w.state step primary == primary.lineIndex) = true
  · simp only [if_pos hforced]
    exact xor_one_lt_lineCount _ hraw
  · simp only [if_neg hforced]
    exact hraw

theorem recordPrimary_total (m : Mixing) (w : Workspace) (primary : PrimaryResult)
    (h : primary.lineIndex < lineCount) :
    ∃ m', recordPrimary m w primary = some m' ∧ m'.toWorkspace = w := by
  rcases recordDiagnosticIndex_total primary.lineIndex true
    { m.diagnostics with primaryAccesses := m.diagnostics.primaryAccesses + 1 }
    m.seenPrimary m.seenCombined h with ⟨⟨d, seenPrimary, seenCombined⟩, hr⟩
  refine ⟨⟨w, d, seenPrimary, m.seenSecondary, seenCombined⟩, ?_, rfl⟩
  simp only [recordPrimary, hr, Option.bind_eq_bind, Option.bind_some, Option.pure_def]

theorem recordSecondary_total (m : Mixing) (w : Workspace) (secondary : SecondaryResult)
    (h : secondary.lineIndex < lineCount) :
    ∃ m', recordSecondary m w secondary = some m' ∧ m'.toWorkspace = w := by
  have htotal (d : Diagnostics) := recordDiagnosticIndex_total secondary.lineIndex false d
    m.seenSecondary m.seenCombined h
  simp only [recordSecondary, Option.bind_eq_bind]
  refine Exists.imp (fun m' h => ⟨h, ?_⟩) (Loop.bind_total _ _ (htotal _) fun r _ => ⟨_, rfl⟩)
  simp only [Option.bind_eq_some_iff, Option.pure_def, Option.some.injEq] at h
  rcases h with ⟨r, _, rfl⟩
  rfl

section

variable (sha3_512 : Bytes → Vector UInt8 64) (sha3_256 : Bytes → UInt256)

/-- One step in lock-step. -/
theorem mixStepDiagnostics_eq (step : Nat) (m : Mixing) :
    ∃ m', mixStepDiagnostics sha3_512 step m = some m' ∧
      mixStep sha3_512 step m.toWorkspace = some m'.toWorkspace := by
  rcases primaryStep_total m.toWorkspace (UInt64.ofNat step) with ⟨⟨primary, w⟩, hprimary⟩
  rcases recordPrimary_total m w primary (primaryStep_lineIndex _ _ _ hprimary) with
    ⟨m₁, hm₁, hw₁⟩
  -- The first record leaves the workspace to the second line update.
  by_cases h : UInt64.ofNat step % secondaryInterval = 0
  · rcases secondaryStep_total w (UInt64.ofNat step) primary with ⟨⟨secondary, w'⟩, hsecondary⟩
    rcases recordSecondary_total m₁ w' secondary (secondaryStep_lineIndex _ _ _ _ hsecondary) with
      ⟨m₂, hm₂, hw₂⟩
    refine ⟨{ m₂ with
      state := afterSecondary sha3_512 m₂.state (UInt64.ofNat step) primary secondary }, ?_, ?_⟩
    · simp only [mixStepDiagnostics, hprimary, hm₁, hw₁, hsecondary, hm₂, if_pos h,
        Option.bind_eq_bind, Option.bind_some, Option.pure_def]
    · simp only [mixStep, hprimary, hsecondary, if_pos h, Option.bind_eq_bind, Option.bind_some,
        Option.pure_def, hw₂]
  · refine ⟨m₁, ?_, ?_⟩
    · simp only [mixStepDiagnostics, hprimary, hm₁, if_neg h, Option.bind_eq_bind,
        Option.bind_some, Option.pure_def]
    · simp only [mixStep, hprimary, if_neg h, Option.bind_eq_bind, Option.bind_some,
        Option.pure_def, hw₁]

/-- Any number of steps. -/
theorem mixScratchpadDiagnostics_eq (w : Workspace) (mixSteps : UInt32) (d : Diagnostics) :
    ∃ m, mixScratchpadDiagnostics sha3_512 w mixSteps d = some m ∧
      mixScratchpad sha3_512 w mixSteps = some m.toWorkspace := by
  rcases Loop.total_of_relation (mixStepDiagnostics sha3_512) (mixStep sha3_512)
    (fun _ m w => m.toWorkspace = w) mixSteps.toNat 1
    ⟨w, d, Vector.replicate lineCount false, Vector.replicate lineCount false,
      Vector.replicate lineCount false⟩ w rfl
    (by
      rintro step m _ _ _ rfl
      rcases mixStepDiagnostics_eq sha3_512 step m with ⟨m', hm, hw⟩
      exact ⟨m', m'.toWorkspace, hm, hw, rfl⟩) with ⟨m, _, hm, hw, rfl⟩
  exact ⟨m, hm, hw⟩

/-- Filling, binding and mixing with statistics come to their ends. -/
theorem diagnosticPhases_total (header : Bytes) (pad : Scratchpad) (params : WorkParams) :
    ∃ w b d m, fillScratchpad ⟨initialState sha3_512 header, pad⟩ params.scratchpadFill = some w ∧
      bindScratchpad ⟨w, some emptyDiagnostics⟩ params.bindingPasses = some b ∧
      b.diagnostics = some d ∧
      mixScratchpadDiagnostics sha3_512 b.toWorkspace params.mixSteps d = some m := by
  rcases fillScratchpad_agree params.scratchpadFill (initialState sha3_512 header) pad pad with
    ⟨w, hw, _⟩
  rcases bindScratchpad_recorded params.bindingPasses w emptyDiagnostics with
    ⟨_, b, d, _, hb, _, hd⟩
  rcases mixScratchpadDiagnostics_eq sha3_512 b.toWorkspace params.mixSteps d with ⟨m, hm, _⟩
  exact ⟨w, b, d, m, hw, hb, hd, hm⟩

theorem hashFilledDiagnostics_eq (header : Bytes) (params : WorkParams) (w : Workspace)
    (d : Diagnostics) :
    ∃ out final d', hashFilled sha3_512 sha3_256 header params w = some (out, final) ∧
      hashFilledDiagnostics sha3_512 sha3_256 header params w d = some (out, final, d') := by
  rcases bindScratchpad_recorded params.bindingPasses w d with ⟨b, b', d', hb, hb', hw, hd⟩
  rcases mixScratchpadDiagnostics_eq sha3_512 b'.toWorkspace params.mixSteps d' with
    ⟨m, hm, hmix⟩
  rcases finalSample_total m.state m.scratchpad with ⟨state, hstate⟩
  refine ⟨finalizeHash sha3_256 state header, m.scratchpad, m.diagnostics, ?_, ?_⟩
  · simp only [hashFilled, hb, hw, hmix, hstate, Option.bind_eq_bind, Option.bind_some,
      Option.pure_def]
  · simp only [hashFilledDiagnostics, hb', hd, hm, hstate, Option.bind_eq_bind, Option.bind_some,
      Option.pure_def]

end

/-- The hash with statistics is the hash, from any two scratchpads and any
    statistics. The statistics it leaves depend on the header alone. -/
theorem hash_with_diagnostics (sha3_512 : Bytes → Vector UInt8 64) (sha3_256 : Bytes → UInt256)
    (header : Bytes) (params : WorkParams) (hlen : header.length = headerSize)
    (hsteps : params.mixSteps > 0) :
    ∃ out final recorded, ∀ pad pad' diagnostics,
      hash sha3_512 sha3_256 header pad params = some (out, final) ∧
      hashWithDiagnostics sha3_512 sha3_256 header pad' params diagnostics
        = some (out, final, recorded) := by
  rcases hash_forgets sha3_512 sha3_256 header params hlen hsteps with ⟨out, final, hhash⟩
  have hfill (pad : Scratchpad) := fillScratchpad_agree params.scratchpadFill
    (initialState sha3_512 header) freshScratchpad pad
  rcases hfill freshScratchpad with ⟨w, hw, _⟩
  rcases hashFilledDiagnostics_eq sha3_512 sha3_256 header params w emptyDiagnostics with
    ⟨out', final', recorded, hplain, hrecorded⟩
  -- The plain hash of a fresh scratchpad is the one computed beside.
  have hsame : (out, final) = (out', final') := by
    have hfresh := hhash freshScratchpad
    rw [hash, if_pos ⟨hlen, hsteps⟩, hw, Option.bind_eq_bind, Option.bind_some, hplain,
      Option.some.injEq] at hfresh
    exact hfresh.symm
  rw [Prod.mk.injEq] at hsame
  refine ⟨out, final, recorded, fun pad pad' diagnostics => ⟨hhash pad, ?_⟩⟩
  -- Filling forgets the other scratchpad as well.
  rcases hfill pad' with ⟨w', hw', hpad'⟩
  rw [hw, Option.some.injEq] at hw'
  rw [hashWithDiagnostics, if_pos ⟨hlen, hsteps⟩, hpad', ← hw', Option.bind_eq_bind,
    Option.bind_some, hrecorded, hsame.1, hsame.2]

theorem hash_with_diagnostics_v1 :
    ∃ out final recorded, hash (fun _ => Vector.replicate 64 0) (fun _ => UInt256.zero)
        (headerBytes fourNonces.header 0) freshScratchpad v1Params = some (out, final) ∧
      hashWithDiagnostics (fun _ => Vector.replicate 64 0) (fun _ => UInt256.zero)
        (headerBytes fourNonces.header 0) freshScratchpad v1Params emptyDiagnostics
        = some (out, final, recorded) := by
  rcases hash_with_diagnostics (fun _ => Vector.replicate 64 0) (fun _ => UInt256.zero)
    (headerBytes fourNonces.header 0) v1Params (BlockHeader.length_serialize _) (by decide) with
    ⟨out, final, recorded, h⟩
  exact ⟨out, final, recorded, h freshScratchpad freshScratchpad emptyDiagnostics⟩

end Mercahash

end MercaMiner
