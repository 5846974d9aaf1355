import MercaMiner.Theory.DiagnosticHash

/-!
# What a Hash Touches

The trace of a run of MercaHash: every line it reads or writes, every block a
block of a pass refers to, and every region a statistic is counted in.

The trace is read off the loops. `Loop.entries` gives the variables each
iteration of a loop starts from, and from these the functions of the program
say which lines the iteration selects. That nothing was forgotten is what the
`returns` theorems are for: a step goes on exactly when the lines listed for it
are in range, and stops the program otherwise.

## Main definitions

* `BlockVisit`, `MixVisit`: One block of binding and one step of mixing.
* `bindVisits`, `mixVisits`: The visits of the two phases.
* `HashTrace`: What a whole run touches.
* `hashTrace`, `hashTraceDiagnostics`: The traces of the two functions.
* `TraceInRange`: What holds of a trace.

## Theorems

* `bindLine_returns`, `primaryStep_returns`, `secondaryStep_returns`: When a
  step goes on.
* `bindVisits_keys`: Which blocks are visited, in which order.
* `access_range`: Everything a hash touches is in range.
-/

namespace MercaMiner

namespace Mercahash

/-- The lines one line of a block reads and then the one it writes. -/
def lineAccesses (c : BlockContext) (line : Nat) : List Nat :=
  [currentLine c line, previousLine c line, referenceLine c line, currentLine c line]

/-- One block of a pass, with what it refers to. -/
structure BlockVisit where
  pass : Nat
  context : BlockContext

namespace BlockVisit

def block (v : BlockVisit) : Nat := v.context.block

/-- The pass and the block. -/
def key (v : BlockVisit) : Nat × Nat := (v.pass, v.block)

def reference (v : BlockVisit) : Nat := v.context.referenceBlock

/-- The head line, and the lines of the line loop. -/
def accesses (v : BlockVisit) : List Nat :=
  v.block * bindBlockLines :: (List.range bindBlockLines).flatMap (lineAccesses v.context)

/-- What the reference seed is divided by, if it is divided. -/
def divisor (v : BlockVisit) : Option UInt64 :=
  if v.block = 0 then none else some (UInt64.ofNat v.block)

/-- Where the reference lies among the earlier blocks, in sixty-fourths. -/
def relativeRegion (v : BlockVisit) : Nat :=
  (UInt64.ofNat v.reference * UInt64.ofNat diagnosticRegions / UInt64.ofNat v.block).toNat

end BlockVisit

/-- What a block of a pass refers to, from the variables it starts with. -/
def visitBlock (pass : Nat) (block : Nat) (b : Binding) : Option BlockVisit := do
  let head ← readLine b.scratchpad (block * bindBlockLines)
  let seed := referenceSeed b.state (UInt64.ofNat pass) (UInt64.ofNat block) head
  return ⟨pass, blockContext b.state (UInt64.ofNat pass) block seed⟩

/-- The blocks of one pass. -/
def passVisits (pass : Nat) (b : Binding) : List BlockVisit :=
  (Loop.entries (bindBlock (UInt64.ofNat pass)) bindBlockCount 0
    { b with state := enterPass (UInt64.ofNat pass) b.state }).filterMap fun e =>
      visitBlock pass e.1 e.2

/-- The blocks of all passes. -/
def bindVisits (b : Binding) (passes : UInt32) : List BlockVisit :=
  (Loop.entries bindPass passes.toNat 0 b).flatMap fun e => passVisits e.1 e.2

/-- The visits of blocks that refer to an earlier one. -/
def laterVisits (visits : List BlockVisit) : List BlockVisit :=
  visits.filter fun v => v.block ≠ 0

/-- A second line update: the line as first selected, and the one used. -/
structure SecondaryVisit where
  unadjusted : Nat
  line : Nat

/-- One step of mixing, with the line of each update. -/
structure MixVisit where
  primary : Nat
  secondary : Option SecondaryVisit

/-- Each update reads its line and writes it. -/
def MixVisit.accesses (v : MixVisit) : List Nat :=
  v.primary :: v.primary :: match v.secondary with
    | none => []
    | some s => [s.line, s.line]

/-- What a step of mixing updates, from the variables it starts with. -/
def visitStep (step : Nat) (w : Workspace) : Option MixVisit := do
  let step := UInt64.ofNat step
  let (primary, w) ← primaryStep w step
  if step % secondaryInterval = 0 then
    let (secondary, _) ← secondaryStep w step primary
    return ⟨primary.lineIndex,
      some ⟨secondaryIndex w.state step primary, secondary.lineIndex⟩⟩
  else
    return ⟨primary.lineIndex, none⟩

def mixVisits (entries : List (Nat × Workspace)) : List MixVisit :=
  entries.filterMap fun e => visitStep e.1 e.2

/-- The lines of the second updates, in order. -/
def secondaryLines (visits : List MixVisit) : List Nat :=
  visits.filterMap fun v => v.secondary.map SecondaryVisit.line

/-- The lines the final samples read. -/
def sampleVisits (w : Workspace) : List Nat :=
  (Loop.entries (sampleStep w.scratchpad) finalReads 0 w.state).map fun e =>
    sampleIndex e.2 (UInt64.ofNat e.1)

/-- The region of the line space a line is counted in. -/
def lineRegion (line : Nat) : Nat :=
  line / (lineCount / diagnosticRegions)

/-- What a run touches, phase by phase. -/
structure HashTrace where
  filling : List Nat
  binding : List BlockVisit
  mixing : List MixVisit
  samples : List Nat

namespace HashTrace

/-- Every line passed to a read or a write. -/
def accesses (t : HashTrace) : List Nat :=
  t.filling ++ t.binding.flatMap BlockVisit.accesses ++ t.mixing.flatMap MixVisit.accesses
    ++ t.samples

def primary (t : HashTrace) : List Nat :=
  t.mixing.map MixVisit.primary

def secondary (t : HashTrace) : List Nat :=
  secondaryLines t.mixing

def references (t : HashTrace) : List BlockVisit :=
  laterVisits t.binding

end HashTrace

section

variable (sha3_512 : Bytes → Vector UInt8 64)

/-- The variables filling starts from. -/
def fillStart (header : Bytes) (scratchpad : Scratchpad) : Workspace :=
  ⟨enterFill (initialState sha3_512 header), scratchpad⟩

def fillVisits (header : Bytes) (scratchpad : Scratchpad) (params : WorkParams) : List Nat :=
  (Loop.entries (fillStep params.scratchpadFill) lineCount 0
    (fillStart sha3_512 header scratchpad)).map Prod.fst

/-- The trace of `hash`. -/
def hashTrace (header : Bytes) (scratchpad : Scratchpad) (params : WorkParams) :
    Option HashTrace := do
  let w ← fillScratchpad ⟨initialState sha3_512 header, scratchpad⟩ params.scratchpadFill
  let b ← bindScratchpad ⟨w, none⟩ params.bindingPasses
  let mixed ← mixScratchpad sha3_512 b.toWorkspace params.mixSteps
  return {
    filling := fillVisits sha3_512 header scratchpad params
    binding := bindVisits ⟨w, none⟩ params.bindingPasses
    mixing := mixVisits
      (Loop.entries (mixStep sha3_512) params.mixSteps.toNat 1 b.toWorkspace)
    samples := sampleVisits mixed }

/-- Mixing with records starts with empty tables. -/
def mixingStart (w : Workspace) (diagnostics : Diagnostics) : Mixing :=
  ⟨w, diagnostics, Vector.replicate lineCount false, Vector.replicate lineCount false,
    Vector.replicate lineCount false⟩

/-- The steps of mixing with records, with the workspaces they start from. -/
def mixingEntries (w : Workspace) (mixSteps : UInt32) (diagnostics : Diagnostics) :
    List (Nat × Workspace) :=
  (Loop.entries (mixStepDiagnostics sha3_512) mixSteps.toNat 1 (mixingStart w diagnostics)).map
    fun e => (e.1, e.2.toWorkspace)

/-- The trace of `hashWithDiagnostics`. -/
def hashTraceDiagnostics (header : Bytes) (scratchpad : Scratchpad) (params : WorkParams) :
    Option HashTrace := do
  let w ← fillScratchpad ⟨initialState sha3_512 header, scratchpad⟩ params.scratchpadFill
  let b ← bindScratchpad ⟨w, some emptyDiagnostics⟩ params.bindingPasses
  let diagnostics ← b.diagnostics
  let mixed ← mixScratchpadDiagnostics sha3_512 b.toWorkspace params.mixSteps diagnostics
  return {
    filling := fillVisits sha3_512 header scratchpad params
    binding := bindVisits ⟨w, some emptyDiagnostics⟩ params.bindingPasses
    mixing := mixVisits (mixingEntries sha3_512 b.toWorkspace params.mixSteps diagnostics)
    samples := sampleVisits mixed.toWorkspace }

end

theorem readLine_lt (pad : Scratchpad) (i : Nat) (line : Line) (h : readLine pad i = some line) :
    i < lineCount := by
  unfold readLine at h
  by_cases hi : i < lineCount
  · exact hi
  · exact absurd h (by simp only [dif_neg hi, reduceCtorEq, not_false_eq_true])

/-- A fill step goes on exactly when its line is in range. -/
theorem fillStep_returns (mode : ScratchpadFillMode) (i : Nat) (w : Workspace) :
    (∃ w', fillStep mode i w = some w') ↔ i < lineCount := by
  constructor
  · intro hparts
    rcases hparts with ⟨w', h⟩
    simp only [fillStep, Option.bind_eq_bind, Option.bind_eq_some_iff] at h
    rcases h with ⟨pad, hpad, _⟩
    unfold writeLine at hpad
    by_cases hi : i < lineCount
    · exact hi
    · exact absurd hpad (by simp only [dif_neg hi, reduceCtorEq, not_false_eq_true])
  · intro h
    rcases writeLine_isSome w.scratchpad i (fillLine (stirFill mode i w.state)) h with ⟨pad, hpad⟩
    exact ⟨_, fillStep_eq mode i w pad hpad⟩

/-- A line of a block goes on exactly when its accesses are in range. -/
theorem bindLine_returns (c : BlockContext) (line : Nat) (s : Scratchpad × Line) :
    (∃ s', bindLine c line s = some s') ↔ ∀ access ∈ lineAccesses c line, access < lineCount := by
  simp only [lineAccesses, List.forall_mem_cons]
  constructor
  · intro hparts
    rcases hparts with ⟨s', h⟩
    simp only [bindLine, Option.bind_eq_bind, Option.bind_eq_some_iff] at h
    rcases h with ⟨current, hcurrent, previous, hprevious, reference, hreference, _⟩
    have hcur := readLine_lt _ _ _ hcurrent
    exact ⟨hcur, readLine_lt _ _ _ hprevious, readLine_lt _ _ _ hreference, hcur,
      fun _ h => absurd h List.not_mem_nil⟩
  · intro hparts
    rcases hparts with ⟨hcur, hprev, href, _⟩
    exact bindLine_isSome c line s hcur hprev href

/-- The first update of a step goes on exactly when its line is in range, and
    reports that line. -/
theorem primaryStep_returns (w : Workspace) (step : UInt64) :
    (∃ r, primaryStep w step = some r) ↔ primaryIndex w.state step < lineCount := by
  constructor
  · intro hparts
    rcases hparts with ⟨r, h⟩
    simp only [primaryStep, Option.bind_eq_bind, Option.bind_eq_some_iff] at h
    rcases h with ⟨memory, hmemory, _⟩
    exact readLine_lt _ _ _ hmemory
  · exact fun _ => primaryStep_total w step

/-- So does the second. -/
theorem secondaryStep_returns (w : Workspace) (step : UInt64) (primary : PrimaryResult) :
    (∃ r, secondaryStep w step primary = some r) ↔
      (if secondaryIndex w.state step primary = primary.lineIndex then
        secondaryIndex w.state step primary ^^^ 1 else secondaryIndex w.state step primary)
      < lineCount := by
  constructor
  · intro hparts
    rcases hparts with ⟨r, h⟩
    simp only [secondaryStep, Option.bind_eq_bind, Option.bind_eq_some_iff, beq_iff_eq] at h
    rcases h with ⟨memory, hmemory, _⟩
    exact readLine_lt _ _ _ hmemory
  · exact fun _ => secondaryStep_total w step primary

/-- A record of a reference is made exactly when its region and its block have
    an entry in their tables. -/
theorem recordReference_returns (d : Diagnostics) (v : BlockVisit) :
    (∃ d', recordReference d v.block v.reference = some d') ↔
      v.relativeRegion < diagnosticRegions ∧ v.reference < bindBlockCount := by
  unfold recordReference BlockVisit.relativeRegion
  by_cases hregion : (UInt64.ofNat v.reference * UInt64.ofNat diagnosticRegions
      / UInt64.ofNat v.block).toNat < diagnosticRegions
  · by_cases hseen : v.reference < bindBlockCount
    · exact iff_of_true (by simp only [dif_pos hregion, dif_pos hseen, Option.some.injEq,
        exists_eq']) ⟨hregion, hseen⟩
    · exact iff_of_false (by simp only [dif_pos hregion, dif_neg hseen, reduceCtorEq, exists_false,
        not_false_eq_true]) fun h => hseen h.2
  · exact iff_of_false (by simp only [dif_neg hregion, reduceCtorEq, exists_false,
      not_false_eq_true]) fun h => hregion h.1

/-- A record of a line is made exactly when the line and its region are in
    range. -/
theorem recordDiagnosticIndex_returns (line : Nat) (primary : Bool) (d : Diagnostics)
    (seen seenCombined : SeenLines) :
    (∃ r, recordDiagnosticIndex line primary d seen seenCombined = some r) ↔
      line < lineCount ∧ lineRegion line < diagnosticRegions := by
  unfold recordDiagnosticIndex lineRegion
  by_cases hline : line < lineCount
  · by_cases hregion : line / (lineCount / diagnosticRegions) < diagnosticRegions
    · exact iff_of_true (by simp only [dif_pos hline, dif_pos hregion, Option.some.injEq,
        exists_eq']) ⟨hline, hregion⟩
    · exact iff_of_false (by simp only [dif_pos hline, dif_neg hregion, reduceCtorEq, exists_false,
        not_false_eq_true]) fun h => hregion h.2
  · exact iff_of_false (by simp only [dif_neg hline, reduceCtorEq, exists_false,
      not_false_eq_true]) fun h => hline h.1

/-- A visit of a block, from its variables. -/
theorem visitBlock_eq (pass block : Nat) (h : block < bindBlockCount) (b : Binding) :
    ∃ seed, visitBlock pass block b
      = some ⟨pass, blockContext b.state (UInt64.ofNat pass) block seed⟩ := by
  have hhead : block * bindBlockLines < lineCount := bindBlock_lines block 0 h (by omega)
  refine ⟨referenceSeed b.state (UInt64.ofNat pass) (UInt64.ofNat block)
    (lineAt b.scratchpad _ hhead), ?_⟩
  simp only [visitBlock, readLine_eq _ _ hhead, Option.bind_eq_bind, Option.bind_some,
    Option.pure_def]

/-- What holds of a visit by itself. -/
structure VisitInRange (v : BlockVisit) : Prop where
  block : v.block < bindBlockCount
  first : v.block = 0 →
    v.context.previousBlock = bindBlockCount - 1 ∧ v.reference = bindBlockCount - 1
  later : v.block ≠ 0 → v.context.previousBlock + 1 = v.block ∧ v.reference < v.block
  accesses : ∀ line ∈ v.accesses, line < lineCount
  divisor : ∀ d, v.divisor = some d → d.toNat = v.block ∧ d ≠ 0
  relativeRegion : v.block ≠ 0 → v.relativeRegion < diagnosticRegions ∧
    v.relativeRegion = v.reference * diagnosticRegions / v.block

theorem blockContext_accesses (state : State) (pass seed : UInt64) (block line : Nat)
    (h : block < bindBlockCount) (hline : line < bindBlockLines) :
    ∀ access ∈ lineAccesses (blockContext state pass block seed) line, access < lineCount := by
  rw [← bindLine_returns _ line (freshScratchpad, Vector.replicate 8 0)]
  exact bindLine_total _ line _ h (blockContext_previous state pass seed block h)
    (blockContext_reference_lt state pass seed block h) hline

theorem visit_inRange (pass block : Nat) (state : State) (seed : UInt64)
    (h : block < bindBlockCount) :
    VisitInRange ⟨pass, blockContext state (UInt64.ofNat pass) block seed⟩ where
  block := h
  first := fun h0 => by
    have h0 : block = 0 := h0
    simp only [BlockVisit.reference, blockContext, if_pos h0, and_self]
  later := fun h0 => by
    have h0 : block ≠ 0 := h0
    refine ⟨?_, blockContext_reference state (UInt64.ofNat pass) seed block h h0⟩
    simp only [BlockVisit.block, blockContext, if_neg h0]
    omega
  accesses := by
    refine List.forall_mem_cons.mpr ⟨bindBlock_lines block 0 h (by omega), ?_⟩
    intro access haccess
    rcases List.mem_flatMap.mp haccess with ⟨line, hline, hmem⟩
    exact blockContext_accesses state _ seed block line h (List.mem_range.mp hline) access hmem
  divisor := fun d hd => by
    have hd : (if block = 0 then none else some (UInt64.ofNat block)) = some d := hd
    by_cases h0 : block = 0
    · exact absurd hd (by simp only [if_pos h0, reduceCtorEq, not_false_eq_true])
    · rw [if_neg h0, Option.some.injEq] at hd
      have hvalue : d.toNat = block := by
        rw [← hd]
        exact toNat_block block h
      refine ⟨hvalue, fun hzero => h0 ?_⟩
      rw [← hvalue, hzero]
      rfl
  relativeRegion := fun h0 => by
    -- The later blocks refer back, so their region is below sixty-four.
    have h0 : block ≠ 0 := h0
    have hlt := blockContext_reference state (UInt64.ofNat pass) seed block h h0
    exact ⟨referenceRegion_lt block _ h hlt, referenceRegion_eq block _ h hlt⟩

theorem passVisits_inRange (pass : Nat) (b : Binding) :
    ∀ v ∈ passVisits pass b, VisitInRange v := by
  intro v hv
  rcases List.mem_filterMap.mp hv with ⟨e, he, hvisit⟩
  rcases Loop.mem_entries _ _ _ _ e he with ⟨_, hlt⟩
  rcases visitBlock_eq pass e.1 (by omega) e.2 with ⟨seed, hseed⟩
  rw [hseed, Option.some.injEq] at hvisit
  rw [← hvisit]
  exact visit_inRange pass e.1 e.2.state seed (by omega)

theorem bindVisits_inRange (b : Binding) (passes : UInt32) :
    ∀ v ∈ bindVisits b passes, VisitInRange v := by
  intro v hv
  rcases List.mem_flatMap.mp hv with ⟨e, _, he⟩
  exact passVisits_inRange e.1 e.2 v he

/-- The entries of a list that are all kept, by a property of what they
    become. -/
theorem filterMap_map_eq {α β γ : Type} (f : α → Option β) (key : β → γ) (g : α → γ)
    (l : List α) (h : ∀ x ∈ l, ∃ y, f x = some y ∧ key y = g x) :
    (l.filterMap f).map key = l.map g := by
  induction l with
  | nil => rfl
  | cons x l ih =>
      rcases h x List.mem_cons_self with ⟨y, hy, hkey⟩
      rw [List.filterMap_cons_some hy, List.map_cons, List.map_cons, hkey,
        ih fun z hz => h z (List.mem_cons_of_mem x hz)]

/-- A pass visits every block once, in order. -/
theorem passVisits_keys (pass : Nat) (b : Binding) :
    (passVisits pass b).map BlockVisit.key
      = (List.range bindBlockCount).map fun block => (pass, block) := by
  rcases Loop.loop_total (bindBlock (UInt64.ofNat pass)) bindBlockCount 0
    { b with state := enterPass (UInt64.ofNat pass) b.state }
    (fun block t _ hlt => bindBlock_total _ block (by omega) t) with ⟨b', hb⟩
  have hindex := Loop.entries_index _ _ _ _ b' hb
  rw [passVisits, filterMap_map_eq _ _ (fun e : Nat × Binding => (pass, e.1)) _ fun e he => ?_,
    List.range_eq_range', ← hindex, List.map_map]
  · rfl
  · rcases Loop.mem_entries _ _ _ _ e he with ⟨_, hlt⟩
    rcases visitBlock_eq pass e.1 (by omega) e.2 with ⟨seed, hseed⟩
    exact ⟨_, hseed, rfl⟩

/-- Binding visits every block of every pass, pass by pass. -/
theorem bindVisits_keys (b : Binding) (passes : UInt32) :
    (bindVisits b passes).map BlockVisit.key
      = (List.range passes.toNat).flatMap fun pass =>
          (List.range bindBlockCount).map fun block => (pass, block) := by
  rcases bindScratchpad_total b passes with ⟨b', hb⟩
  have hindex := Loop.entries_index bindPass passes.toNat 0 b b' hb
  rw [bindVisits, List.map_flatMap, List.range_eq_range' (n := passes.toNat), ← hindex,
    List.flatMap_map]
  exact List.flatMap_congr fun e _ => passVisits_keys e.1 e.2

/-- The order in which binding comes to the blocks of its passes. -/
def Before (x y : Nat × Nat) : Prop :=
  x.1 < y.1 ∨ x.1 = y.1 ∧ x.2 < y.2

theorem keys_pairwise (passes : Nat) :
    ((List.range passes).flatMap fun pass =>
      (List.range bindBlockCount).map fun block => (pass, block)).Pairwise Before := by
  refine List.pairwise_flatMap.mpr ⟨fun pass _ => ?_, ?_⟩
  · rw [List.pairwise_map]
    exact List.pairwise_lt_range.imp fun hlt => Or.inr ⟨rfl, hlt⟩
  · refine List.pairwise_lt_range.imp fun {first second} hlt x hx y hy => ?_
    rcases List.mem_map.mp hx with ⟨_, _, rfl⟩
    rcases List.mem_map.mp hy with ⟨_, _, rfl⟩
    exact Or.inl hlt

/-- In a list in order, what comes before an entry stands in front of it. -/
theorem mem_front_of_pairwise {α : Type} (R : α → α → Prop) (hasymm : ∀ x y, R x y → ¬R y x)
    (front back : List α) (x y : α) (h : (front ++ y :: back).Pairwise R)
    (hx : x ∈ front ++ y :: back) (hxy : R x y) : x ∈ front := by
  rcases List.mem_append.mp hx with hfront | hrest
  · exact hfront
  · rcases List.pairwise_append.mp h with ⟨_, hpair, _⟩
    rcases List.mem_cons.mp hrest with rfl | hback
    · exact absurd hxy (hasymm x x hxy)
    · exact absurd hxy (hasymm y x ((List.pairwise_cons.mp hpair).1 x hback))

/-- When a block is visited, the earlier blocks of its pass have been. -/
theorem visited_before (b : Binding) (passes : UInt32) (front back : List BlockVisit)
    (v : BlockVisit) (h : bindVisits b passes = front ++ v :: back) (block : Nat)
    (hlt : block < v.block) : ∃ u ∈ front, u.pass = v.pass ∧ u.block = block := by
  have hkeys := bindVisits_keys b passes
  rw [h, List.map_append, List.map_cons] at hkeys
  have hpair := keys_pairwise passes.toNat
  have hv : v.key ∈ front.map BlockVisit.key ++ v.key :: back.map BlockVisit.key :=
    List.mem_append_right _ List.mem_cons_self
  have hu : (v.pass, block) ∈ front.map BlockVisit.key ++ v.key :: back.map BlockVisit.key := by
    -- The pass and the block are in range, since those of the visit are.
    rw [hkeys] at hv ⊢
    rcases List.mem_flatMap.mp hv with ⟨pass, hpass, hmem⟩
    rcases List.mem_map.mp hmem with ⟨last, hlast, hkey⟩
    rw [BlockVisit.key, Prod.mk.injEq] at hkey
    refine List.mem_flatMap.mpr ⟨pass, hpass, List.mem_map.mpr ⟨block, ?_, ?_⟩⟩
    · have hbound := List.mem_range.mp hlast
      exact List.mem_range.mpr (by omega)
    · rw [hkey.1]
  rw [← hkeys] at hpair
  have hfront := mem_front_of_pairwise Before (fun x y hxy hyx => by
    rw [Before] at hxy hyx
    omega) _ _ _ _ hpair hu (Or.inr ⟨rfl, hlt⟩)
  rcases List.mem_map.mp hfront with ⟨u, hmem, hkey⟩
  rw [BlockVisit.key, Prod.mk.injEq] at hkey
  exact ⟨u, hmem, hkey⟩

theorem lineRegion_lt (line : Nat) (h : line < lineCount) :
    lineRegion line < diagnosticRegions := by
  have hwidth : lineCount / diagnosticRegions = 32768 := by decide
  rw [lineCount_eq] at h
  rw [lineRegion, hwidth, diagnosticRegions]
  omega

/-- A visit of a mixing step: both lines are in range and different, and the
    second is there in every sixteenth step. -/
theorem visitStep_eq (step : Nat) (w : Workspace) :
    ∃ v, visitStep step w = some v ∧ v.primary = primaryIndex w.state (UInt64.ofNat step) ∧
      (v.secondary.isSome ↔ UInt64.ofNat step % secondaryInterval = 0) ∧
      ∀ s, v.secondary = some s → s.unadjusted < lineCount ∧
        s.line = if s.unadjusted = v.primary then s.unadjusted ^^^ 1 else s.unadjusted := by
  rcases primaryStep_total w (UInt64.ofNat step) with ⟨⟨primary, w'⟩, hprimary⟩
  have hindex : primary.lineIndex = primaryIndex w.state (UInt64.ofNat step) := by
    simp only [primaryStep, Option.bind_eq_bind, Option.bind_eq_some_iff, Option.pure_def,
      Option.some.injEq, Prod.mk.injEq] at hprimary
    rcases hprimary with ⟨_, _, _, _, rfl, _⟩
    rfl
  -- The second update happens in every sixteenth step only.
  by_cases hinterval : UInt64.ofNat step % secondaryInterval = 0
  · rcases secondaryStep_total w' (UInt64.ofNat step) primary with ⟨⟨secondary, w''⟩, hsecondary⟩
    refine ⟨⟨primary.lineIndex, some ⟨secondaryIndex w'.state (UInt64.ofNat step) primary,
      secondary.lineIndex⟩⟩, ?_, hindex, iff_of_true rfl hinterval, fun s hs => ?_⟩
    · simp only [visitStep, hprimary, hsecondary, if_pos hinterval, Option.bind_eq_bind,
        Option.bind_some, Option.pure_def]
    · rw [Option.some.injEq] at hs
      simp only [secondaryStep, Option.bind_eq_bind, Option.bind_eq_some_iff, Option.pure_def,
        Option.some.injEq, Prod.mk.injEq, beq_iff_eq] at hsecondary
      rcases hsecondary with ⟨_, _, _, _, rfl, _⟩
      rw [← hs]
      exact ⟨secondaryIndex_lt _ _ _, rfl⟩
  · refine ⟨⟨primary.lineIndex, none⟩, ?_, hindex, iff_of_false (by simp only [Option.isSome_none,
      Bool.false_eq_true, not_false_eq_true]) hinterval, fun s hs => ?_⟩
    · simp only [visitStep, hprimary, if_neg hinterval, Option.bind_eq_bind, Option.bind_some,
        Option.pure_def]
    · exact absurd hs (by simp only [reduceCtorEq, not_false_eq_true])

/-- What holds of a visit of a mixing step. -/
structure StepInRange (v : MixVisit) : Prop where
  accesses : ∀ line ∈ v.accesses, line < lineCount
  primary : lineRegion v.primary < diagnosticRegions
  secondary : ∀ s, v.secondary = some s → lineRegion s.line < diagnosticRegions

theorem visitStep_inRange (step : Nat) (w : Workspace) (v : MixVisit)
    (h : visitStep step w = some v) : StepInRange v := by
  rcases visitStep_eq step w with ⟨v', hv', hprimary, _, hsecondary⟩
  rw [h, Option.some.injEq] at hv'
  subst hv'
  have hlt : v.primary < lineCount := by
    rw [hprimary]
    exact primaryIndex_lt _ _
  have hline : ∀ s, v.secondary = some s → s.line < lineCount := by
    intro s hs
    rcases hsecondary s hs with ⟨hraw, hadjusted⟩
    rw [hadjusted]
    -- Changing the lowest bit stays within an even number of lines.
    by_cases hsame : s.unadjusted = v.primary
    · rw [if_pos hsame]
      exact xor_one_lt_lineCount _ hraw
    · rwa [if_neg hsame]
  refine ⟨?_, lineRegion_lt _ hlt, fun s hs => lineRegion_lt _ (hline s hs)⟩
  refine List.forall_mem_cons.mpr ⟨hlt, List.forall_mem_cons.mpr ⟨hlt, ?_⟩⟩
  cases hs : v.secondary with
  | none => exact fun line hmem => absurd hmem List.not_mem_nil
  | some s =>
      refine List.forall_mem_cons.mpr ⟨hline s hs, List.forall_mem_cons.mpr ⟨hline s hs, ?_⟩⟩
      exact fun line hmem => absurd hmem List.not_mem_nil

/-- What holds of the trace of a run with the given parameters. -/
structure TraceInRange (params : WorkParams) (t : HashTrace) : Prop where
  accesses : ∀ line ∈ t.accesses, line < lineCount
  filling : t.filling = List.range lineCount
  blocks : t.binding.map BlockVisit.key
    = (List.range params.bindingPasses.toNat).flatMap fun pass =>
        (List.range bindBlockCount).map fun block => (pass, block)
  binding : ∀ v ∈ t.binding, VisitInRange v
  rebound : ∀ front v back, t.binding = front ++ v :: back → v.block ≠ 0 →
    (∃ u ∈ front, u.pass = v.pass ∧ u.block = v.context.previousBlock) ∧
    ∃ u ∈ front, u.pass = v.pass ∧ u.block = v.reference
  steps : t.mixing.length = params.mixSteps.toNat
  mixing : ∀ v ∈ t.mixing, StepInRange v
  samples : t.samples.length = finalReads

theorem length_mixVisits (entries : List (Nat × Workspace)) :
    (mixVisits entries).length = entries.length := by
  have h := filterMap_map_eq (fun e : Nat × Workspace => visitStep e.1 e.2) (fun _ => ())
    (fun _ => ()) entries fun e _ => by
      rcases visitStep_eq e.1 e.2 with ⟨v, hv, _⟩
      exact ⟨v, hv, rfl⟩
  have hlen := congrArg List.length h
  rw [List.length_map, List.length_map] at hlen
  exact hlen

section

variable (sha3_512 : Bytes → Vector UInt8 64) (sha3_256 : Bytes → UInt256)

theorem fillVisits_eq (header : Bytes) (pad : Scratchpad) (params : WorkParams) :
    fillVisits sha3_512 header pad params = List.range lineCount := by
  rcases fillScratchpad_agree params.scratchpadFill (initialState sha3_512 header) pad pad with
    ⟨w, hw, _⟩
  rw [List.range_eq_range', fillVisits]
  exact Loop.entries_index _ _ _ _ w hw

/-- A trace is in range whatever workspaces its phases started from. -/
theorem traceInRange_of_phases (header : Bytes) (pad : Scratchpad) (params : WorkParams)
    (b : Binding) (entries : List (Nat × Workspace)) (mixed : Workspace)
    (hcount : entries.length = params.mixSteps.toNat) :
    TraceInRange params ⟨fillVisits sha3_512 header pad params,
      bindVisits b params.bindingPasses, mixVisits entries, sampleVisits mixed⟩ := by
  have hbinding := bindVisits_inRange b params.bindingPasses
  have hmixing : ∀ v ∈ mixVisits entries, StepInRange v := fun v hv => by
    rcases List.mem_filterMap.mp hv with ⟨e, _, hvisit⟩
    exact visitStep_inRange e.1 e.2 v hvisit
  refine ⟨fun line hline => ?_, fillVisits_eq sha3_512 header pad params,
    bindVisits_keys b params.bindingPasses, hbinding, fun front v back hsplit h0 => ?_, ?_,
    hmixing, ?_⟩
  · simp only [HashTrace.accesses, List.mem_append, List.mem_flatMap,
      fillVisits_eq sha3_512 header pad params, List.mem_range] at hline
    -- The line was touched in one of the four phases.
    rcases hline with ((hfill | ⟨v, hv, hmem⟩) | ⟨v, hv, hmem⟩) | hsample
    · exact hfill
    · exact (hbinding v hv).accesses line hmem
    · exact (hmixing v hv).accesses line hmem
    · rcases List.mem_map.mp hsample with ⟨e, _, rfl⟩
      exact primaryIndex_lt e.2 _
  · have hsplit : bindVisits b params.bindingPasses = front ++ v :: back := hsplit
    have hv : v ∈ bindVisits b params.bindingPasses := by
      rw [hsplit]
      exact List.mem_append_right _ List.mem_cons_self
    rcases (hbinding v hv).later h0 with ⟨hprevious, hreference⟩
    exact ⟨visited_before b params.bindingPasses front back v hsplit _ (by omega),
      visited_before b params.bindingPasses front back v hsplit _ hreference⟩
  · rw [length_mixVisits, hcount]
  · rcases finalSample_total mixed.state mixed.scratchpad with ⟨state, hstate⟩
    rw [sampleVisits, List.length_map, Loop.length_entries _ _ _ _ state hstate]

theorem hashTrace_inRange (header : Bytes) (pad : Scratchpad) (params : WorkParams) :
    ∃ t, hashTrace sha3_512 header pad params = some t ∧ TraceInRange params t := by
  rcases fillScratchpad_agree params.scratchpadFill (initialState sha3_512 header) pad pad with
    ⟨w, hw, _⟩
  rcases bindScratchpad_total ⟨w, none⟩ params.bindingPasses with ⟨b, hb⟩
  rcases mixScratchpad_total sha3_512 b.toWorkspace params.mixSteps with ⟨mixed, hmixed⟩
  refine ⟨_, ?_, traceInRange_of_phases sha3_512 header pad params ⟨w, none⟩ _ mixed
    (Loop.length_entries (mixStep sha3_512) params.mixSteps.toNat 1 b.toWorkspace mixed hmixed)⟩
  simp only [hashTrace, hw, hb, hmixed, Option.bind_eq_bind, Option.bind_some, Option.pure_def]

theorem hashTraceDiagnostics_inRange (header : Bytes) (pad : Scratchpad) (params : WorkParams) :
    ∃ t, hashTraceDiagnostics sha3_512 header pad params = some t ∧ TraceInRange params t := by
  rcases diagnosticPhases_total sha3_512 header pad params with
    ⟨w, b, d, mixed, hw, hb, hd, hmixed⟩
  have hcount : (mixingEntries sha3_512 b.toWorkspace params.mixSteps d).length
      = params.mixSteps.toNat := by
    rw [mixingEntries, List.length_map]
    exact Loop.length_entries _ _ _ _ mixed hmixed
  refine ⟨_, ?_, traceInRange_of_phases sha3_512 header pad params ⟨w, some emptyDiagnostics⟩ _
    mixed.toWorkspace hcount⟩
  simp only [hashTraceDiagnostics, hw, hb, hd, hmixed, Option.bind_eq_bind, Option.bind_some,
    Option.pure_def]

end

/-- Everything the hash of a header touches is in range, with and without
    statistics, from any scratchpad and any statistics before.

    Neither function stops the program, which it would do at a line out of
    range or at an assertion that fails. In the trace of either, every line
    passed to a read or a write is below the number of lines. The first block
    of every pass refers to the last block and divides by nothing; every later
    one divides by its own number and refers to blocks before it, which were
    visited earlier in the same pass. Every region has an entry in its table. -/
theorem access_range (sha3_512 : Bytes → Vector UInt8 64) (sha3_256 : Bytes → UInt256)
    (header : Bytes) (params : WorkParams) (hlen : header.length = headerSize)
    (hsteps : params.mixSteps > 0) (pad : Scratchpad) (diagnostics : Diagnostics) :
    (∃ r, hash sha3_512 sha3_256 header pad params = some r) ∧
    (∃ r, hashWithDiagnostics sha3_512 sha3_256 header pad params diagnostics = some r) ∧
    (∃ t, hashTrace sha3_512 header pad params = some t ∧ TraceInRange params t) ∧
    ∃ t, hashTraceDiagnostics sha3_512 header pad params = some t ∧ TraceInRange params t := by
  rcases hash_with_diagnostics sha3_512 sha3_256 header params hlen hsteps with
    ⟨out, final, recorded, h⟩
  rcases h pad pad diagnostics with ⟨hhash, hrecorded⟩
  exact ⟨⟨_, hhash⟩, ⟨_, hrecorded⟩, hashTrace_inRange sha3_512 header pad params,
    hashTraceDiagnostics_inRange sha3_512 header pad params⟩

theorem access_range_v1 :
    ∃ t, hashTrace (fun _ => Vector.replicate 64 0) (headerBytes fourNonces.header 0)
      freshScratchpad v1Params = some t ∧ TraceInRange v1Params t :=
  (access_range (fun _ => Vector.replicate 64 0) (fun _ => UInt256.zero)
    (headerBytes fourNonces.header 0) v1Params (BlockHeader.length_serialize _) (by decide)
    freshScratchpad emptyDiagnostics).2.2.1

end Mercahash

end MercaMiner
