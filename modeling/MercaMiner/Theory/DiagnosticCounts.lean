import Mathlib.Algebra.Order.BigOperators.Group.List
import MercaMiner.Basis.Counters
import MercaMiner.Theory.AccessTrace

/-!
# Statistics Are Those of the Trace

The counters of `HashWithDiagnostics` are the statistics of the trace of its
run, whatever the caller's record held before.

Binding and mixing keep their counters up to date visit by visit, with tables
of what they have seen. Each record of a visit is one step of the relations
between counters and lists in `Counters`, and the loops carry the relations
along with the visits made so far. The counters wrap at 64 bits, which the
relations allow; only at the end the number of visits is bounded.

## Main definitions

* `BlockVisit.distance`: How far back a block refers.
* `ReferenceCounts`: The counters of binding and the references they count.
* `LineCounts`, `MixCounts`: The counters of mixing and the lines they count.
* `ExactLines`, `ExactReferences`, `ExactCounts`: The counters as numbers.

## Theorems

* `recordReference_counts`, `recordPrimary_counts`, `recordSecondary_counts`:
  One record.
* `bindScratchpad_counts`, `mixScratchpad_counts`: The phases.
* `diagnostic_counts`: The statistics of a hash are those of its trace.
-/

namespace MercaMiner

namespace Mercahash

open Counters

/-- How many blocks back a block refers. -/
def BlockVisit.distance (v : BlockVisit) : Nat :=
  v.block - v.reference

/-- The counters that mixing keeps. -/
def Diagnostics.mixing (d : Diagnostics) :=
  (d.primaryAccesses, d.primaryUnique, d.secondaryAccesses, d.secondaryUnique, d.combinedUnique,
    d.forcedSecondaryDistinct, d.primaryRegions, d.secondaryRegions, d.primaryBitOnes,
    d.secondaryBitOnes)

/-- The counters that binding keeps. -/
def Diagnostics.binding (d : Diagnostics) :=
  (d.bindingReferenceAccesses, d.bindingReferenceUnique, d.bindingReferenceDistanceSum,
    d.bindingReferenceDistanceMin, d.bindingReferenceDistanceMax,
    d.bindingReferenceRelativeRegions, d.bindingReferenceSeen)

/-- The counters of binding count these references. -/
structure ReferenceCounts (references : List BlockVisit) (d : Diagnostics) : Prop where
  accesses : d.bindingReferenceAccesses = UInt64.ofNat references.length
  distinct : Marked (fun seen : UInt8 => seen ≠ 0)
    (references.map BlockVisit.reference).toFinset d.bindingReferenceUnique d.bindingReferenceSeen
  regions : Tally BlockVisit.relativeRegion references d.bindingReferenceRelativeRegions
  sum : d.bindingReferenceDistanceSum = UInt64.ofNat (references.map BlockVisit.distance).sum
  extremes : Extremes (references.map BlockVisit.distance) d.bindingReferenceDistanceMin.toNat
    d.bindingReferenceDistanceMax.toNat

theorem referenceCounts_empty : ReferenceCounts [] emptyDiagnostics where
  accesses := rfl
  distinct := marked_empty _ 0 (not_not.mpr rfl)
  regions := tally_nil _
  sum := rfl
  extremes := extremes_nil

/-- A record of a reference, field by field. -/
theorem recordReference_eq (d : Diagnostics) (v : BlockVisit)
    (hregion : v.relativeRegion < diagnosticRegions) (hseen : v.reference < bindBlockCount) :
    recordReference d v.block v.reference = some { d with
      bindingReferenceAccesses := d.bindingReferenceAccesses + 1
      bindingReferenceUnique :=
        if d.bindingReferenceSeen[v.reference] = 0 then d.bindingReferenceUnique + 1
        else d.bindingReferenceUnique
      bindingReferenceSeen :=
        if d.bindingReferenceSeen[v.reference] = 0 then d.bindingReferenceSeen.set v.reference 1
        else d.bindingReferenceSeen
      bindingReferenceDistanceSum :=
        d.bindingReferenceDistanceSum + (UInt64.ofNat v.block - UInt64.ofNat v.reference)
      bindingReferenceDistanceMin :=
        if d.bindingReferenceAccesses = 0 ∨
            UInt64.ofNat v.block - UInt64.ofNat v.reference < d.bindingReferenceDistanceMin then
          UInt64.ofNat v.block - UInt64.ofNat v.reference
        else d.bindingReferenceDistanceMin
      bindingReferenceDistanceMax :=
        if UInt64.ofNat v.block - UInt64.ofNat v.reference > d.bindingReferenceDistanceMax then
          UInt64.ofNat v.block - UInt64.ofNat v.reference
        else d.bindingReferenceDistanceMax
      bindingReferenceRelativeRegions := d.bindingReferenceRelativeRegions.set v.relativeRegion
        (d.bindingReferenceRelativeRegions[v.relativeRegion] + 1) } := by
  unfold recordReference
  unfold BlockVisit.relativeRegion at hregion ⊢
  -- Three tests decide independently which of the fields are written.
  by_cases hmin : d.bindingReferenceAccesses = 0 ∨
      UInt64.ofNat v.block - UInt64.ofNat v.reference < d.bindingReferenceDistanceMin
  · by_cases hmax : UInt64.ofNat v.block - UInt64.ofNat v.reference > d.bindingReferenceDistanceMax
    · by_cases hold : d.bindingReferenceSeen[v.reference] = 0
      · simp only [if_pos hmin, if_pos hmax, if_pos hold, dif_pos hregion, dif_pos hseen]
      · simp only [if_pos hmin, if_pos hmax, if_neg hold, dif_pos hregion, dif_pos hseen]
    · by_cases hold : d.bindingReferenceSeen[v.reference] = 0
      · simp only [if_pos hmin, if_neg hmax, if_pos hold, dif_pos hregion, dif_pos hseen]
      · simp only [if_pos hmin, if_neg hmax, if_neg hold, dif_pos hregion, dif_pos hseen]
  · by_cases hmax : UInt64.ofNat v.block - UInt64.ofNat v.reference > d.bindingReferenceDistanceMax
    · by_cases hold : d.bindingReferenceSeen[v.reference] = 0
      · simp only [if_neg hmin, if_pos hmax, if_pos hold, dif_pos hregion, dif_pos hseen]
      · simp only [if_neg hmin, if_pos hmax, if_neg hold, dif_pos hregion, dif_pos hseen]
    · by_cases hold : d.bindingReferenceSeen[v.reference] = 0
      · simp only [if_neg hmin, if_neg hmax, if_pos hold, dif_pos hregion, dif_pos hseen]
      · simp only [if_neg hmin, if_neg hmax, if_neg hold, dif_pos hregion, dif_pos hseen]

theorem distance_eq (v : BlockVisit) (h : VisitInRange v) (h0 : v.block ≠ 0) :
    UInt64.ofNat v.block - UInt64.ofNat v.reference = UInt64.ofNat v.distance := by
  rw [BlockVisit.distance, UInt64.ofNat_sub (Nat.le_of_lt (h.later h0).2)]

theorem distance_le (v : BlockVisit) (h : VisitInRange v) : v.distance ≤ bindBlockCount - 1 := by
  have hblock := h.block
  rw [BlockVisit.distance]
  omega

/-- A record of a reference counts one more. -/
theorem recordReference_counts (references : List BlockVisit) (d d' : Diagnostics) (v : BlockVisit)
    (hv : VisitInRange v) (h0 : v.block ≠ 0) (hfew : references.length < 2 ^ 64)
    (h : ReferenceCounts references d)
    (hrecord : recordReference d v.block v.reference = some d') :
    ReferenceCounts (references ++ [v]) d' ∧ d'.mixing = d.mixing := by
  have hregion := (hv.relativeRegion h0).1
  have hreference : v.reference < bindBlockCount := Nat.lt_trans (hv.later h0).2 hv.block
  rw [recordReference_eq d v hregion hreference, Option.some.injEq, distance_eq v hv h0] at hrecord
  -- The counter wraps at 64 bits, so it is zero before the first reference only.
  have hfirst : d.bindingReferenceAccesses = 0 ↔ references.map BlockVisit.distance = [] := by
    rw [← UInt64.toNat_inj, h.accesses, toNat_counter _ hfew, List.map_eq_nil_iff,
      ← List.length_eq_zero_iff]
    rfl
  have hvalue : (UInt64.ofNat v.distance).toNat = v.distance := by
    have hle := distance_le v hv
    rw [bindBlockCount_eq] at hle
    exact toNat_counter _ (by omega)
  subst hrecord
  refine ⟨⟨?_, ?_, tally_snoc _ _ _ v hregion h.regions, ?_, ?_⟩, rfl⟩
  · rw [List.length_append, List.length_singleton, ← ofNat_succ, ← h.accesses]
  · rw [List.map_append, List.map_singleton, toFinset_snoc]
    by_cases hold : d.bindingReferenceSeen[v.reference] = 0
    · simp only [if_pos hold]
      exact marked_new _ _ _ _ _ hreference 1 (by decide) (not_not.mpr hold) h.distinct
    · simp only [if_neg hold]
      exact marked_old _ _ _ _ _ hreference hold h.distinct
  · simp only [h.sum, List.map_append, List.map_singleton, List.sum_append, List.sum_singleton,
      UInt64.ofNat_add]
  · have hsnoc := extremes_snoc _ _ _ v.distance h.extremes
    rw [List.map_append, List.map_singleton]
    simp only [apply_ite UInt64.toNat, hfirst, UInt64.lt_iff_toNat_lt, gt_iff_lt, hvalue]
    exact hsnoc

/-- Statistics that have counted the references of these visits, and nothing
    else. -/
def BindingCounted (visits : List BlockVisit) (diagnostics : Option Diagnostics) : Prop :=
  ∃ d, diagnostics = some d ∧ ReferenceCounts (laterVisits visits) d ∧
    d.mixing = emptyDiagnostics.mixing

theorem laterVisits_snoc (visits : List BlockVisit) (v : BlockVisit) :
    laterVisits (visits ++ [v]) = laterVisits visits ++ if v.block = 0 then [] else [v] := by
  rw [laterVisits, List.filter_append, laterVisits, List.filter_cons, List.filter_nil]
  by_cases h0 : v.block = 0
  · rw [if_pos h0, if_neg (by simp only [h0, ne_eq, not_true_eq_false, decide_false,
      Bool.false_eq_true, not_false_eq_true])]
  · rw [if_neg h0, if_pos (decide_eq_true h0)]

theorem length_laterVisits_le (visits : List BlockVisit) :
    (laterVisits visits).length ≤ visits.length :=
  List.length_filter_le _ visits

/-- A block passes the checks with the reference of its visit. -/
theorem bindBlock_checks (pass block : Nat) (hblock : block < bindBlockCount) (b b' : Binding)
    (h : bindBlock (UInt64.ofNat pass) block b = some b') :
    ∃ v, visitBlock pass block b = some v ∧ VisitInRange v ∧
      checkReference b.diagnostics v.block v.reference = some b'.diagnostics := by
  simp only [bindBlock, Option.bind_eq_bind, Option.bind_eq_some_iff, Option.pure_def,
    Option.some.injEq] at h
  rcases h with ⟨head, hhead, diagnostics, hchecks, _, _, rfl⟩
  refine ⟨⟨pass, blockContext b.state (UInt64.ofNat pass) block
    (referenceSeed b.state (UInt64.ofNat pass) (UInt64.ofNat block) head)⟩, ?_,
    visit_inRange pass block b.state _ hblock, hchecks⟩
  simp only [visitBlock, hhead, Option.bind_eq_bind, Option.bind_some, Option.pure_def]

/-- One block more. -/
theorem bindBlock_counts (pass block : Nat) (hblock : block < bindBlockCount) (b b' : Binding)
    (visits : List BlockVisit) (hfew : visits.length < 2 ^ 64)
    (hcounted : BindingCounted visits b.diagnostics)
    (h : bindBlock (UInt64.ofNat pass) block b = some b') :
    ∃ v, visitBlock pass block b = some v ∧ BindingCounted (visits ++ [v]) b'.diagnostics := by
  rcases bindBlock_checks pass block hblock b b' h with ⟨v, hvisit, hv, hchecks⟩
  rcases hcounted with ⟨d, hd, hcounts, hmixing⟩
  refine ⟨v, hvisit, ?_⟩
  rw [hd] at hchecks
  unfold checkReference at hchecks
  -- The first block of a pass is not checked and not counted.
  by_cases h0 : v.block = 0
  · rw [if_pos h0, Option.some.injEq] at hchecks
    refine ⟨d, hchecks.symm, ?_, hmixing⟩
    rwa [laterVisits_snoc, if_pos h0, List.append_nil]
  · simp only [if_neg h0, if_pos (hv.later h0).2, Option.map_eq_some_iff] at hchecks
    rcases hchecks with ⟨d', hrecord, hd'⟩
    have hlater := length_laterVisits_le visits
    rcases recordReference_counts _ d d' v hv h0 (by omega) hcounts hrecord with
      ⟨hcounts', hmixing'⟩
    refine ⟨d', hd'.symm, ?_, hmixing'.trans hmixing⟩
    rwa [laterVisits_snoc, if_neg h0]

/-- One pass more, after any visits. -/
theorem bindPass_counts (pass : Nat) (b b' : Binding) (visits : List BlockVisit)
    (hfew : visits.length + bindBlockCount ≤ 2 ^ 64)
    (hcounted : BindingCounted visits b.diagnostics) (h : bindPass pass b = some b') :
    BindingCounted (visits ++ passVisits pass b) b'.diagnostics := by
  simp only [bindPass, Option.bind_eq_bind, Option.bind_eq_some_iff, Option.pure_def,
    Option.some.injEq] at h
  rcases h with ⟨last, hloop, rfl⟩
  -- The visits so far are those before this pass and those of its blocks.
  have hlast := Loop.invariant_of_entries (bindBlock (UInt64.ofNat pass))
    (fun seen t => BindingCounted (visits ++ seen.filterMap fun e => visitBlock pass e.1 e.2)
      t.diagnostics)
    bindBlockCount 0 _ last hloop ?_ fun seen i t t' hi hlt ht hstep => ?_
  · exact hlast
  · rw [List.filterMap_nil, List.append_nil]
    exact hcounted
  · have hlen := List.length_filterMap_le (fun e : Nat × Binding => visitBlock pass e.1 e.2) seen
    rcases bindBlock_counts pass i (by omega) t t' _ (by rw [List.length_append]; omega) ht hstep
      with ⟨v, hvisit, hnext⟩
    rwa [filterMap_snoc (fun e : Nat × Binding => visitBlock pass e.1 e.2) seen (i, t) v hvisit,
      ← List.append_assoc]

theorem length_passVisits (pass : Nat) (b : Binding) :
    (passVisits pass b).length = bindBlockCount := by
  have h := congrArg List.length (passVisits_keys pass b)
  rwa [List.length_map, List.length_map, List.length_range] at h

/-- All passes, from statistics about nothing. -/
theorem bindScratchpad_counts (w : Workspace) (passes : UInt32) (b : Binding)
    (h : bindScratchpad ⟨w, some emptyDiagnostics⟩ passes = some b) :
    BindingCounted (bindVisits ⟨w, some emptyDiagnostics⟩ passes) b.diagnostics := by
  refine Loop.invariant_of_entries bindPass
    (fun seen t => BindingCounted (seen.flatMap fun e => passVisits e.1 e.2) t.diagnostics)
    passes.toNat 0 _ b h ⟨emptyDiagnostics, rfl, referenceCounts_empty, rfl⟩
    fun seen i t t' hi hlt ht hstep => ?_
  have hlen := length_flatMap_const (fun e : Nat × Binding => passVisits e.1 e.2) bindBlockCount
    seen fun e _ => length_passVisits e.1 e.2
  have hpasses := passes.toNat_lt
  rw [bindBlockCount_eq] at hlen
  have hnext := bindPass_counts i t t' _ (by rw [bindBlockCount_eq]; omega) ht hstep
  rwa [List.flatMap_append, List.flatMap_cons, List.flatMap_nil, List.append_nil]

/-- Every block of a pass but the first refers to an earlier one. -/
theorem length_laterVisits (pass : Nat) (b : Binding) :
    (laterVisits (passVisits pass b)).length = bindBlockCount - 1 := by
  have hkeys : (passVisits pass b).countP (fun v => v.block ≠ 0)
      = ((passVisits pass b).map BlockVisit.key).countP fun key => key.2 ≠ 0 := by
    rw [List.countP_map]
    rfl
  rw [laterVisits, ← List.countP_eq_length_filter, hkeys, passVisits_keys, List.countP_map]
  exact countP_range_ne_zero (bindBlockCount - 1)

theorem length_references (b : Binding) (passes : UInt32) :
    (laterVisits (bindVisits b passes)).length = passes.toNat * (bindBlockCount - 1) := by
  rcases bindScratchpad_total b passes with ⟨b', hb⟩
  have hentries := Loop.length_entries bindPass passes.toNat 0 b b' hb
  have hlater := length_flatMap_const (fun e : Nat × Binding => laterVisits (passVisits e.1 e.2))
    (bindBlockCount - 1) (Loop.entries bindPass passes.toNat 0 b) fun e _ =>
      length_laterVisits e.1 e.2
  rw [hentries] at hlater
  rw [laterVisits, bindVisits, List.filter_flatMap]
  exact hlater

/-- The counters that mixing keeps for one kind of line update. -/
structure LineCounts (lines : List Nat) (accesses unique : UInt64)
    (regions : Vector UInt64 diagnosticRegions) (bitOnes : Vector UInt64 lineIndexBits)
    (seen : SeenLines) : Prop where
  accesses : accesses = UInt64.ofNat lines.length
  distinct : Marked (fun seen : Bool => seen = true) lines.toFinset unique seen
  regions : Tally lineRegion lines regions
  bitOnes : ∀ bit, (h : bit < lineIndexBits) →
    bitOnes[bit] = UInt64.ofNat (lines.countP fun line => line.testBit bit)

theorem lineCounts_empty : LineCounts [] 0 0 (Vector.replicate diagnosticRegions 0)
    (Vector.replicate lineIndexBits 0) (Vector.replicate lineCount false) where
  accesses := rfl
  distinct := marked_empty _ false Bool.false_ne_true
  regions := tally_nil _
  bitOnes := fun bit h => by
    rw [Vector.getElem_replicate]
    rfl

theorem countBits_snoc (lines : List Nat) (line : Nat) (bitOnes : Vector UInt64 lineIndexBits)
    (h : ∀ bit, (h : bit < lineIndexBits) →
      bitOnes[bit] = UInt64.ofNat (lines.countP fun line => line.testBit bit))
    (bit : Nat) (hbit : bit < lineIndexBits) :
    (countBits line bitOnes)[bit]
      = UInt64.ofNat ((lines ++ [line]).countP fun line => line.testBit bit) := by
  have hone : (line >>> bit) &&& 1 ≠ 0 ↔ line.testBit bit = true := by
    rw [Nat.testBit, Nat.and_comm, bne_iff_ne]
  rw [countP_snoc, countBits, Vector.getElem_ofFn]
  by_cases hset : line.testBit bit = true
  · rw [if_pos (hone.mpr hset), if_pos hset, ← ofNat_succ, ← h bit hbit]
    rfl
  · rw [if_neg fun hne => hset (hone.mp hne), if_neg hset, Nat.add_zero, ← h bit hbit]
    rfl

/-- One line more. -/
theorem lineCounts_snoc (lines : List Nat) (accesses unique : UInt64)
    (regions : Vector UInt64 diagnosticRegions) (bitOnes : Vector UInt64 lineIndexBits)
    (seen : SeenLines) (line : Nat) (hline : line < lineCount)
    (hregion : lineRegion line < diagnosticRegions)
    (h : LineCounts lines accesses unique regions bitOnes seen) :
    LineCounts (lines ++ [line]) (accesses + 1) (if seen[line] = true then unique else unique + 1)
      (regions.set (lineRegion line) (regions[lineRegion line] + 1)) (countBits line bitOnes)
      (if seen[line] = true then seen else seen.set line true) where
  accesses := by
    rw [List.length_append, List.length_singleton, ← ofNat_succ, ← h.accesses]
  distinct := by
    rw [toFinset_snoc]
    exact marked_bool _ _ _ _ hline h.distinct
  regions := tally_snoc lineRegion lines regions line hregion h.regions
  bitOnes := countBits_snoc lines line bitOnes h.bitOnes

/-- A record of a line of a first update, field by field. -/
theorem recordDiagnosticIndex_primary (line : Nat) (d : Diagnostics)
    (seen seenCombined : SeenLines) (hline : line < lineCount)
    (hregion : lineRegion line < diagnosticRegions) :
    recordDiagnosticIndex line true d seen seenCombined = some ({ d with
      primaryUnique := if seen[line] = true then d.primaryUnique else d.primaryUnique + 1
      combinedUnique :=
        if seenCombined[line] = true then d.combinedUnique else d.combinedUnique + 1
      primaryRegions :=
        d.primaryRegions.set (lineRegion line) (d.primaryRegions[lineRegion line] + 1)
      primaryBitOnes := countBits line d.primaryBitOnes },
      if seen[line] = true then seen else seen.set line true,
      if seenCombined[line] = true then seenCombined else seenCombined.set line true) := by
  unfold recordDiagnosticIndex
  unfold lineRegion at hregion ⊢
  by_cases hold : seen[line] = true
  · by_cases hany : seenCombined[line] = true
    · simp only [dif_pos hline, dif_pos hregion, if_pos hold, if_pos hany, if_true]
    · simp only [dif_pos hline, dif_pos hregion, if_pos hold, if_neg hany, if_true]
  · by_cases hany : seenCombined[line] = true
    · simp only [dif_pos hline, dif_pos hregion, if_neg hold, if_pos hany, if_true]
    · simp only [dif_pos hline, dif_pos hregion, if_neg hold, if_neg hany, if_true]

/-- The same for a second update. -/
theorem recordDiagnosticIndex_secondary (line : Nat) (d : Diagnostics)
    (seen seenCombined : SeenLines) (hline : line < lineCount)
    (hregion : lineRegion line < diagnosticRegions) :
    recordDiagnosticIndex line false d seen seenCombined = some ({ d with
      secondaryUnique := if seen[line] = true then d.secondaryUnique else d.secondaryUnique + 1
      combinedUnique :=
        if seenCombined[line] = true then d.combinedUnique else d.combinedUnique + 1
      secondaryRegions :=
        d.secondaryRegions.set (lineRegion line) (d.secondaryRegions[lineRegion line] + 1)
      secondaryBitOnes := countBits line d.secondaryBitOnes },
      if seen[line] = true then seen else seen.set line true,
      if seenCombined[line] = true then seenCombined else seenCombined.set line true) := by
  unfold recordDiagnosticIndex
  unfold lineRegion at hregion ⊢
  by_cases hold : seen[line] = true
  · by_cases hany : seenCombined[line] = true
    · simp only [dif_pos hline, dif_pos hregion, if_pos hold, if_pos hany, Bool.false_eq_true,
        if_false]
    · simp only [dif_pos hline, dif_pos hregion, if_pos hold, if_neg hany, Bool.false_eq_true,
        if_false]
  · by_cases hany : seenCombined[line] = true
    · simp only [dif_pos hline, dif_pos hregion, if_neg hold, if_pos hany, Bool.false_eq_true,
        if_false]
    · simp only [dif_pos hline, dif_pos hregion, if_neg hold, if_neg hany, Bool.false_eq_true,
        if_false]

/-- What mixing has counted: the lines of either kind of update, and how often
    the second line had to be made distinct. -/
structure MixCounts (primaries secondaries : List Nat) (forced : Nat) (m : Mixing) : Prop where
  primary : LineCounts primaries m.diagnostics.primaryAccesses m.diagnostics.primaryUnique
    m.diagnostics.primaryRegions m.diagnostics.primaryBitOnes m.seenPrimary
  secondary : LineCounts secondaries m.diagnostics.secondaryAccesses m.diagnostics.secondaryUnique
    m.diagnostics.secondaryRegions m.diagnostics.secondaryBitOnes m.seenSecondary
  combined : Marked (fun seen : Bool => seen = true) (primaries.toFinset ∪ secondaries.toFinset)
    m.diagnostics.combinedUnique m.seenCombined
  forced : m.diagnostics.forcedSecondaryDistinct = UInt64.ofNat forced

theorem mixCounts_start (w : Workspace) (d : Diagnostics)
    (h : d.mixing = emptyDiagnostics.mixing) : MixCounts [] [] 0 (mixingStart w d) := by
  simp only [Diagnostics.mixing, Prod.mk.injEq] at h
  rcases h with ⟨haccesses, hunique, haccesses', hunique', hcombined, hforced, hregions, hregions',
    hbits, hbits'⟩
  refine ⟨?_, ?_, ?_, hforced⟩
  · simp only [mixingStart, haccesses, hunique, hregions, hbits]
    exact lineCounts_empty
  · simp only [mixingStart, haccesses', hunique', hregions', hbits']
    exact lineCounts_empty
  · simp only [mixingStart, hcombined]
    exact marked_empty _ false Bool.false_ne_true

/-- The first record of a step. -/
theorem recordPrimary_counts (primaries secondaries : List Nat) (forced : Nat) (m m' : Mixing)
    (w : Workspace) (primary : PrimaryResult) (hline : primary.lineIndex < lineCount)
    (h : MixCounts primaries secondaries forced m)
    (hrecord : recordPrimary m w primary = some m') :
    m'.toWorkspace = w ∧ m'.diagnostics.binding = m.diagnostics.binding ∧
      MixCounts (primaries ++ [primary.lineIndex]) secondaries forced m' := by
  have hregion := lineRegion_lt _ hline
  simp only [recordPrimary, recordDiagnosticIndex_primary _ _ _ _ hline hregion,
    Option.bind_eq_bind, Option.bind_some, Option.pure_def, Option.some.injEq] at hrecord
  subst hrecord
  refine ⟨rfl, rfl, lineCounts_snoc _ _ _ _ _ _ _ hline hregion h.primary, h.secondary, ?_,
    h.forced⟩
  rw [toFinset_snoc, Finset.insert_union]
  exact marked_bool _ _ _ _ hline h.combined

/-- The second record of a step. -/
theorem recordSecondary_counts (primaries secondaries : List Nat) (forced : Nat) (m m' : Mixing)
    (w : Workspace) (secondary : SecondaryResult) (hline : secondary.lineIndex < lineCount)
    (h : MixCounts primaries secondaries forced m)
    (hrecord : recordSecondary m w secondary = some m') :
    m'.diagnostics.binding = m.diagnostics.binding ∧
      MixCounts primaries (secondaries ++ [secondary.lineIndex])
        (forced + if secondary.forcedDistinct = true then 1 else 0) m' := by
  have hregion := lineRegion_lt _ hline
  simp only [recordSecondary, recordDiagnosticIndex_secondary _ _ _ _ hline hregion,
    Option.bind_eq_bind, Option.bind_some, Option.pure_def, Option.some.injEq] at hrecord
  subst hrecord
  have hcombined := marked_bool _ _ _ _ hline h.combined
  have hsecondary := lineCounts_snoc _ _ _ _ _ _ _ hline hregion h.secondary
  rw [← Finset.union_insert, ← toFinset_snoc] at hcombined
  by_cases hforced : secondary.forcedDistinct = true
  · simp only [if_pos hforced]
    refine ⟨rfl, h.primary, hsecondary, hcombined, ?_⟩
    rw [← ofNat_succ, ← h.forced]
  · simp only [if_neg hforced]
    exact ⟨rfl, h.primary, hsecondary, hcombined, h.forced⟩

/-- Whether the second line as first selected was the first line. -/
def MixVisit.forced (v : MixVisit) : Bool :=
  match v.secondary with
  | none => false
  | some s => s.unadjusted == v.primary

/-- What mixing has counted after some visits. -/
def MixingCounted (visits : List MixVisit) (m : Mixing) : Prop :=
  MixCounts (visits.map MixVisit.primary) (secondaryLines visits) (visits.countP MixVisit.forced) m

theorem secondaryLines_snoc (visits : List MixVisit) (v : MixVisit) :
    secondaryLines (visits ++ [v])
      = secondaryLines visits ++ (v.secondary.map SecondaryVisit.line).toList := by
  rw [secondaryLines, List.filterMap_append, List.filterMap_cons, List.filterMap_nil]
  cases v.secondary with
  | none => rfl
  | some s => rfl

/-- The second update reports that it was forced when its line was the first
    line. -/
theorem secondaryStep_forced (w : Workspace) (step : UInt64) (primary : PrimaryResult)
    (r : SecondaryResult × Workspace) (h : secondaryStep w step primary = some r) :
    r.1.forcedDistinct = (secondaryIndex w.state step primary == primary.lineIndex) := by
  simp only [secondaryStep, Option.bind_eq_bind, Option.bind_eq_some_iff, Option.pure_def,
    Option.some.injEq] at h
  rcases h with ⟨_, _, _, _, rfl⟩
  rfl

section

variable (sha3_512 : Bytes → Vector UInt8 64) (sha3_256 : Bytes → UInt256)

/-- One step more. -/
theorem mixStepDiagnostics_counts (step : Nat) (m m' : Mixing) (visits : List MixVisit)
    (h : MixingCounted visits m) (hstep : mixStepDiagnostics sha3_512 step m = some m') :
    ∃ v, visitStep step m.toWorkspace = some v ∧
      m'.diagnostics.binding = m.diagnostics.binding ∧ MixingCounted (visits ++ [v]) m' := by
  simp only [mixStepDiagnostics, Option.bind_eq_bind, Option.bind_eq_some_iff] at hstep
  rcases hstep with ⟨⟨primary, w⟩, hprimary, m₁, hm₁, hrest⟩
  have hline := primaryStep_lineIndex _ _ _ hprimary
  -- The first record leaves the workspace to the second line update.
  rcases recordPrimary_counts _ _ _ m m₁ w primary hline h hm₁ with ⟨rfl, hbinding, hcounts⟩
  by_cases hinterval : UInt64.ofNat step % secondaryInterval = 0
  · simp only [if_pos hinterval, Option.bind_eq_some_iff, Option.pure_def, Option.some.injEq]
      at hrest
    rcases hrest with ⟨⟨secondary, w'⟩, hsecondary, m₂, hm₂, rfl⟩
    have hline' := secondaryStep_lineIndex _ _ _ _ hsecondary
    have hforced : MixVisit.forced ⟨primary.lineIndex, some ⟨secondaryIndex m₁.state
        (UInt64.ofNat step) primary, secondary.lineIndex⟩⟩ = secondary.forcedDistinct :=
      (secondaryStep_forced _ _ _ _ hsecondary).symm
    rcases recordSecondary_counts _ _ _ m₁ m₂ w' secondary hline' hcounts hm₂ with
      ⟨hbinding', hcounts'⟩
    refine ⟨⟨primary.lineIndex, some ⟨secondaryIndex m₁.state (UInt64.ofNat step) primary,
      secondary.lineIndex⟩⟩, ?_, hbinding'.trans hbinding, ?_⟩
    · simp only [visitStep, hprimary, hsecondary, if_pos hinterval, Option.bind_eq_bind,
        Option.bind_some, Option.pure_def]
    · rw [MixingCounted, List.map_append, countP_snoc, hforced, secondaryLines_snoc]
      exact ⟨hcounts'.primary, hcounts'.secondary, hcounts'.combined, hcounts'.forced⟩
  · rw [if_neg hinterval, Option.pure_def, Option.some.injEq] at hrest
    subst hrest
    refine ⟨⟨primary.lineIndex, none⟩, ?_, hbinding, ?_⟩
    · simp only [visitStep, hprimary, if_neg hinterval, Option.bind_eq_bind, Option.bind_some,
        Option.pure_def]
    · have hforced : ¬MixVisit.forced ⟨primary.lineIndex, none⟩ = true := Bool.false_ne_true
      rw [MixingCounted, List.map_append, countP_snoc, if_neg hforced, secondaryLines_snoc,
        Option.map_none, Option.toList_none, List.append_nil]
      exact hcounts

/-- The second updates of the first `k` steps. -/
theorem length_secondaryLines_snoc (k : Nat) (hk : k + 1 < 2 ^ 64) (visits : List MixVisit)
    (w : Workspace) (v : MixVisit) (hvisit : visitStep (1 + k) w = some v)
    (h : (secondaryLines visits).length = k / 16) :
    (secondaryLines (visits ++ [v])).length = (k + 1) / 16 := by
  rcases visitStep_eq (1 + k) w with ⟨v', hv', _, hsecondary, _⟩
  rw [hvisit, Option.some.injEq] at hv'
  subst hv'
  have hstep : (UInt64.ofNat (1 + k) % secondaryInterval).toNat = (1 + k) % 16 := by
    rw [UInt64.toNat_mod, toNat_counter _ (by omega)]
    rfl
  have hinterval : v.secondary.isSome ↔ (1 + k) % 16 = 0 := by
    rw [hsecondary, ← UInt64.toNat_inj, hstep]
    rfl
  rw [secondaryLines_snoc, List.length_append, h, Option.length_toList, Option.isSome_map]
  by_cases hmod : (1 + k) % 16 = 0
  · rw [if_pos (hinterval.mpr hmod)]
    omega
  · rw [if_neg fun hsome => hmod (hinterval.mp hsome)]
    omega

/-- All steps, after binding. -/
theorem mixScratchpad_counts (w : Workspace) (mixSteps : UInt32) (d : Diagnostics) (m : Mixing)
    (hd : d.mixing = emptyDiagnostics.mixing)
    (h : mixScratchpadDiagnostics sha3_512 w mixSteps d = some m) :
    m.diagnostics.binding = d.binding ∧
      MixingCounted (mixVisits (mixingEntries sha3_512 w mixSteps d)) m ∧
      (secondaryLines (mixVisits (mixingEntries sha3_512 w mixSteps d))).length
        = mixSteps.toNat / 16 := by
  have hloop : Loop.loop (mixStepDiagnostics sha3_512) mixSteps.toNat 1 (mixingStart w d)
      = some m := h
  have hentries := Loop.length_entries _ _ _ _ m hloop
  have hall := Loop.invariant_of_entries (mixStepDiagnostics sha3_512)
    (fun seen t => t.diagnostics.binding = d.binding ∧
      MixingCounted (mixVisits (seen.map fun e => (e.1, e.2.toWorkspace))) t ∧
      (secondaryLines (mixVisits (seen.map fun e => (e.1, e.2.toWorkspace)))).length
        = seen.length / 16) mixSteps.toNat 1 (mixingStart w d) m hloop
    ⟨rfl, mixCounts_start w d hd, rfl⟩ fun seen i t t' hi hlt ht hstep => ?_
  · rw [hentries] at hall
    exact hall
  · -- The step number is one more than the number of steps before it.
    rcases ht with ⟨hbinding, hcounts, hlen⟩
    rcases mixStepDiagnostics_counts sha3_512 i t t' _ hcounts hstep with
      ⟨v, hvisit, hbinding', hcounts'⟩
    have hvisits : mixVisits ((seen ++ [(i, t)]).map fun e => (e.1, e.2.toWorkspace))
        = mixVisits (seen.map fun e => (e.1, e.2.toWorkspace)) ++ [v] := by
      rw [List.map_append]
      exact filterMap_snoc _ _ _ v hvisit
    have hsteps := mixSteps.toNat_lt
    rw [hi] at hvisit
    rw [hvisits, List.length_append, List.length_singleton]
    exact ⟨hbinding'.trans hbinding, hcounts',
      length_secondaryLines_snoc _ (by omega) _ _ v hvisit hlen⟩

end

/-- The statistics of the lines of one kind of update. -/
structure ExactLines (lines : List Nat) (accesses unique : UInt64)
    (regions : Vector UInt64 diagnosticRegions) (bitOnes : Vector UInt64 lineIndexBits) :
    Prop where
  accessCount : accesses.toNat = lines.length
  uniqueCount : unique.toNat = lines.toFinset.card
  regionCount : ∀ r : Fin diagnosticRegions,
    (regions.get r).toNat = lines.countP fun line => lineRegion line = r.val
  regionSum : ∑ r : Fin diagnosticRegions, (regions.get r).toNat = accesses.toNat
  bitCount : ∀ bit : Fin lineIndexBits,
    (bitOnes.get bit).toNat = lines.countP fun line => line.testBit bit.val

/-- The statistics of the references. -/
structure ExactReferences (references : List BlockVisit) (d : Diagnostics) : Prop where
  accessCount : d.bindingReferenceAccesses.toNat = references.length
  uniqueCount :
    d.bindingReferenceUnique.toNat = (references.map BlockVisit.reference).toFinset.card
  regionCount : ∀ r : Fin diagnosticRegions, (d.bindingReferenceRelativeRegions.get r).toNat
    = references.countP fun v => v.relativeRegion = r.val
  regionSum : ∑ r : Fin diagnosticRegions, (d.bindingReferenceRelativeRegions.get r).toNat
    = d.bindingReferenceAccesses.toNat
  distanceSum : d.bindingReferenceDistanceSum.toNat = (references.map BlockVisit.distance).sum
  distances : Extremes (references.map BlockVisit.distance)
    d.bindingReferenceDistanceMin.toNat d.bindingReferenceDistanceMax.toNat

/-- The statistics of a run. -/
structure ExactCounts (params : WorkParams) (t : HashTrace) (d : Diagnostics) : Prop where
  primary : ExactLines t.primary d.primaryAccesses d.primaryUnique d.primaryRegions
    d.primaryBitOnes
  secondary : ExactLines t.secondary d.secondaryAccesses d.secondaryUnique d.secondaryRegions
    d.secondaryBitOnes
  references : ExactReferences t.references d
  primaryAccesses : d.primaryAccesses.toNat = params.mixSteps.toNat
  secondaryAccesses : d.secondaryAccesses.toNat = params.mixSteps.toNat / 16
  combined : d.combinedUnique.toNat = (t.primary.toFinset ∪ t.secondary.toFinset).card
  forced : d.forcedSecondaryDistinct.toNat = t.mixing.countP MixVisit.forced
  bindingAccesses :
    d.bindingReferenceAccesses.toNat = params.bindingPasses.toNat * (bindBlockCount - 1)
  distanceRange : params.bindingPasses > 0 →
    1 ≤ d.bindingReferenceDistanceMin.toNat ∧
    d.bindingReferenceDistanceMin.toNat ≤ d.bindingReferenceDistanceMax.toNat ∧
    d.bindingReferenceDistanceMax.toNat ≤ bindBlockCount - 1

/-- The counters of one kind of update as numbers. -/
theorem exactLines_of_counts (lines : List Nat) (accesses unique : UInt64)
    (regions : Vector UInt64 diagnosticRegions) (bitOnes : Vector UInt64 lineIndexBits)
    (seen : SeenLines) (hfew : lines.length < 2 ^ 64)
    (hregions : ∀ line ∈ lines, lineRegion line < diagnosticRegions)
    (h : LineCounts lines accesses unique regions bitOnes seen) :
    ExactLines lines accesses unique regions bitOnes := by
  have haccesses : accesses.toNat = lines.length := by
    rw [h.accesses]
    exact toNat_counter _ hfew
  refine ⟨haccesses, marked_value _ lines unique seen hfew h.distinct,
    tally_value lineRegion lines regions hfew h.regions, ?_, fun bit => ?_⟩
  · rw [haccesses]
    exact tally_sum lineRegion lines regions hfew hregions h.regions
  · have hcount := List.countP_le_length (p := fun line => line.testBit bit) (l := lines)
    have hget : bitOnes.get bit = UInt64.ofNat (lines.countP fun line => line.testBit bit) :=
      h.bitOnes bit bit.isLt
    rw [hget]
    exact toNat_counter _ (Nat.lt_of_le_of_lt hcount hfew)

/-- A reference goes back at least one block and not past the first. -/
theorem distance_range (v : BlockVisit) (hv : VisitInRange v) (h0 : v.block ≠ 0) :
    1 ≤ v.distance ∧ v.distance ≤ bindBlockCount - 1 := by
  have hlater := (hv.later h0).2
  refine ⟨?_, distance_le v hv⟩
  rw [BlockVisit.distance]
  omega

/-- The counters of binding as numbers. The sum of the distances fits because
    the passes are counted in 32 bits. -/
theorem exactReferences_of_counts (references : List BlockVisit) (d : Diagnostics)
    (hfew : references.length < 2 ^ 47)
    (hin : ∀ v ∈ references, VisitInRange v ∧ v.block ≠ 0) (h : ReferenceCounts references d) :
    ExactReferences references d := by
  have hlt : references.length < 2 ^ 64 := by omega
  have haccesses : d.bindingReferenceAccesses.toNat = references.length := by
    rw [h.accesses]
    exact toNat_counter _ hlt
  have hsum : (references.map BlockVisit.distance).sum
      ≤ (references.map BlockVisit.distance).length * (bindBlockCount - 1) := by
    refine List.sum_le_card_nsmul _ _ fun x hx => ?_
    rcases List.mem_map.mp hx with ⟨v, hv, rfl⟩
    exact distance_le v (hin v hv).1
  refine ⟨haccesses, ?_, tally_value _ references _ hlt h.regions, ?_, ?_, h.extremes⟩
  · exact marked_value _ _ _ _ (by rwa [List.length_map]) h.distinct
  · rw [haccesses]
    exact tally_sum _ references _ hlt (fun v hv => ((hin v hv).1.relativeRegion (hin v hv).2).1)
      h.regions
  · rw [List.length_map, bindBlockCount_eq] at hsum
    rw [h.sum]
    exact toNat_counter _ (by omega)

theorem referenceCounts_of_binding (references : List BlockVisit) (d d' : Diagnostics)
    (hbinding : d'.binding = d.binding) (h : ReferenceCounts references d) :
    ReferenceCounts references d' := by
  simp only [Diagnostics.binding, Prod.mk.injEq] at hbinding
  rcases hbinding with ⟨haccesses, hunique, hsum, hmin, hmax, hregions, hseen⟩
  refine ⟨haccesses ▸ h.accesses, ?_, hregions ▸ h.regions, hsum ▸ h.sum, ?_⟩
  · rw [hunique, hseen]
    exact h.distinct
  · rw [hmin, hmax]
    exact h.extremes

/-- The counters of a run as numbers, from what its phases have counted. -/
theorem exactCounts_of_phases (params : WorkParams) (t : HashTrace) (m : Mixing)
    (ht : TraceInRange params t) (hreferences : ReferenceCounts t.references m.diagnostics)
    (hmixing : MixingCounted t.mixing m)
    (hlater : t.references.length = params.bindingPasses.toNat * (bindBlockCount - 1))
    (hsecondary : t.secondary.length = params.mixSteps.toNat / 16) :
    ExactCounts params t m.diagnostics := by
  have hsteps := params.mixSteps.toNat_lt
  have hpasses := params.bindingPasses.toNat_lt
  have hprimary : t.primary.length = params.mixSteps.toNat := by
    rw [HashTrace.primary, List.length_map, ht.steps]
  have hfew : t.references.length < 2 ^ 47 := by
    rw [hlater, bindBlockCount_eq]
    omega
  have hin : ∀ v ∈ t.references, VisitInRange v ∧ v.block ≠ 0 := by
    intro v hv
    rcases List.mem_filter.mp hv with ⟨hvisit, hblock⟩
    exact ⟨ht.binding v hvisit, of_decide_eq_true hblock⟩
  have hlines : ExactLines t.primary m.diagnostics.primaryAccesses m.diagnostics.primaryUnique
      m.diagnostics.primaryRegions m.diagnostics.primaryBitOnes := by
    refine exactLines_of_counts _ _ _ _ _ _ (by omega) (fun line hline => ?_) hmixing.primary
    rcases List.mem_map.mp hline with ⟨v, hv, rfl⟩
    exact (ht.mixing v hv).primary
  have hlines' : ExactLines t.secondary m.diagnostics.secondaryAccesses
      m.diagnostics.secondaryUnique m.diagnostics.secondaryRegions
      m.diagnostics.secondaryBitOnes := by
    refine exactLines_of_counts _ _ _ _ _ _ (by omega) (fun line hline => ?_) hmixing.secondary
    rcases List.mem_filterMap.mp hline with ⟨v, hv, hsome⟩
    rcases Option.map_eq_some_iff.mp hsome with ⟨s, hs, rfl⟩
    exact (ht.mixing v hv).secondary s hs
  have hexact := exactReferences_of_counts _ _ hfew hin hreferences
  refine ⟨hlines, hlines', hexact, ?_, ?_, ?_, ?_, ?_, fun hsome => ?_⟩
  · rw [hlines.accessCount, hprimary]
  · rw [hlines'.accessCount, hsecondary]
  · -- Both kinds of lines are looked up in one table.
    have hunion := hmixing.combined
    rw [← List.toFinset_append] at hunion
    rw [← List.toFinset_append]
    refine marked_value _ _ _ _ ?_ hunion
    rw [List.length_append]
    exact show t.primary.length + t.secondary.length < 2 ^ 64 by omega
  · have hcount := List.countP_le_length (p := MixVisit.forced) (l := t.mixing)
    rw [hmixing.forced]
    exact toNat_counter _ (by rw [ht.steps] at hcount; omega)
  · rw [hexact.accessCount, hlater]
  · -- There is a reference, and the least and the greatest distance are those
    -- of references.
    have hpositive : 0 < params.bindingPasses.toNat := UInt32.lt_iff_toNat_lt.mp hsome
    have hne : t.references.map BlockVisit.distance ≠ [] := by
      intro hnil
      rw [List.map_eq_nil_iff] at hnil
      rw [hnil, List.length_nil, bindBlockCount_eq] at hlater
      omega
    have hleast := hexact.distances.least_mem hne
    have hgreatest := hexact.distances.greatest_mem hne
    refine ⟨?_, hexact.distances.least_le _ hgreatest, ?_⟩
    · rcases List.mem_map.mp hleast with ⟨v, hv, hmin⟩
      rw [← hmin]
      exact (distance_range v (hin v hv).1 (hin v hv).2).1
    · rcases List.mem_map.mp hgreatest with ⟨v, hv, hmax⟩
      rw [← hmax]
      exact (distance_range v (hin v hv).1 (hin v hv).2).2

/-- The statistics of the hash of a header are those of its trace, whatever
    the scratchpad and the statistics held before.

    There is an access of the first kind in every step and one of the second in
    every sixteenth. The lines of either kind are counted by region and by the
    bits of their numbers, and so are the different lines, of either kind and of
    both. The second line counts as forced when it was selected as the first.
    Binding counts a reference for every block of every pass but the first, with
    its distance and its place among the earlier blocks. -/
theorem diagnostic_counts (sha3_512 : Bytes → Vector UInt8 64) (sha3_256 : Bytes → UInt256)
    (header : Bytes) (params : WorkParams) (hlen : header.length = headerSize)
    (hsteps : params.mixSteps > 0) (pad : Scratchpad) (prior : Diagnostics) :
    ∃ out final d t,
      hashWithDiagnostics sha3_512 sha3_256 header pad params prior = some (out, final, d) ∧
      hashTraceDiagnostics sha3_512 header pad params = some t ∧ ExactCounts params t d := by
  rcases diagnosticPhases_total sha3_512 header pad params with ⟨w, b, d, m, hw, hb, hd, hm⟩
  rcases finalSample_total m.state m.scratchpad with ⟨state, hstate⟩
  -- Mixing goes on from the counters of binding and leaves them alone.
  rcases bindScratchpad_counts w params.bindingPasses b hb with ⟨d', hd', hreferences, hmixing⟩
  rw [hd, Option.some.injEq] at hd'
  subst hd'
  rcases mixScratchpad_counts sha3_512 b.toWorkspace params.mixSteps d m hmixing hm with
    ⟨hbinding, hcounted, hsecondary⟩
  rcases hashTraceDiagnostics_inRange sha3_512 header pad params with ⟨t, htrace, ht⟩
  refine ⟨finalizeHash sha3_256 state header, m.scratchpad, m.diagnostics, t, ?_, htrace, ?_⟩
  · simp only [hashWithDiagnostics, if_pos (And.intro hlen hsteps), hashFilledDiagnostics, hw, hb,
      hd, hm, hstate, Option.bind_eq_bind, Option.bind_some, Option.pure_def]
  · simp only [hashTraceDiagnostics, hw, hb, hd, hm, Option.bind_eq_bind, Option.bind_some,
      Option.pure_def, Option.some.injEq] at htrace
    subst htrace
    exact exactCounts_of_phases params _ m ht
      (referenceCounts_of_binding _ d m.diagnostics hbinding hreferences) hcounted
      (length_references _ params.bindingPasses) hsecondary

theorem diagnostic_counts_v1 :
    ∃ out final d t,
      hashWithDiagnostics (fun _ => Vector.replicate 64 0) (fun _ => UInt256.zero)
        (headerBytes fourNonces.header 0) freshScratchpad v1Params emptyDiagnostics
        = some (out, final, d) ∧
      hashTraceDiagnostics (fun _ => Vector.replicate 64 0) (headerBytes fourNonces.header 0)
        freshScratchpad v1Params = some t ∧ ExactCounts v1Params t d :=
  diagnostic_counts (fun _ => Vector.replicate 64 0) (fun _ => UInt256.zero)
    (headerBytes fourNonces.header 0) v1Params (BlockHeader.length_serialize _) (by decide)
    freshScratchpad emptyDiagnostics

end Mercahash

end MercaMiner
