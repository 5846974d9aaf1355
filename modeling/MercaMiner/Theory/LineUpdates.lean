import MercaMiner.Basis.View
import MercaMiner.Theory.AccessTrace
import MercaMiner.Theory.LineOrder

/-!
# The Two Line Updates of a Step

The primary and the secondary step never overwrite each other's line.

A line of the scratchpad is a view of it, and the views of two different lines
are apart: the lines do not overlap, and a line read back is the line stored.
Each step stores one line. The secondary step selects its line from the state
without knowing the first one, and where the two collide it flips the lowest
bit, which gives another line and stays in range. So at the end of the step
both lines are in memory as they were reported, which is what a checkpoint
absorbs.

## Main definitions

* `lineView`: One line as a view of the scratchpad.
* `StoresLine`: One line was stored and nothing else changed.
* `checkpointFromMemory`: A checkpoint that reads the two lines back.

## Theorems

* `lineView_apart`: Different lines are apart.
* `storesLine_of_writeLine`: What storing a line does.
* `primaryStep_stores`, `secondaryStep_stores`: What the two steps do.
* `secondaryStep_distinct`: The secondary step selects another line.
* `updates_kept`: Both lines are in memory after the two steps.
* `mixScratchpad_other`: Mixing changes no line that no step selected.
-/

namespace MercaMiner

namespace Mercahash

/-- One line as a view of the scratchpad. -/
def lineView (i : Fin lineCount) : View Scratchpad Line where
  get pad := lineAt pad i.val i.isLt
  put pad line := Memory.writeWords pad (i.val * lineBytes) line.toList
    (by rw [Vector.length_toList]; exact line_in_range i.val i.isLt)
  get_put pad line := lineAt_writeLine pad _ i.val line i.isLt (dif_pos i.isLt)
  put_get pad := by
    refine scratchpad_ext _ _ (fun k hk => ?_)
    by_cases hik : i.val = k
    · subst hik
      exact lineAt_writeLine pad _ i.val _ hk (dif_pos hk)
    · exact lineAt_writeLine_other pad _ i.val k _ hk hik (dif_pos i.isLt)
  put_put pad first second := by
    refine scratchpad_ext _ _ (fun k hk => ?_)
    by_cases hik : i.val = k
    · subst hik
      rw [lineAt_writeLine _ _ i.val second hk (dif_pos hk),
        lineAt_writeLine _ _ i.val second hk (dif_pos hk)]
    · rw [lineAt_writeLine_other _ _ i.val k second hk hik (dif_pos i.isLt),
        lineAt_writeLine_other _ _ i.val k first hk hik (dif_pos i.isLt),
        lineAt_writeLine_other _ _ i.val k second hk hik (dif_pos i.isLt)]

theorem readLine_view (pad : Scratchpad) (i : Fin lineCount) :
    readLine pad i.val = some ((lineView i).get pad) :=
  readLine_eq pad i.val i.isLt

theorem writeLine_view (pad : Scratchpad) (i : Fin lineCount) (line : Line) :
    writeLine pad i.val line = some ((lineView i).put pad line) :=
  dif_pos i.isLt

/-- Different lines do not overlap. -/
theorem lineView_apart (i k : Fin lineCount) (h : i ≠ k) :
    (lineView i).Apart (lineView k) := by
  intro pad line
  have hne : i.val ≠ k.val := fun heq => h (Fin.ext heq)
  exact lineAt_writeLine_other pad _ i.val k.val line k.isLt hne (dif_pos i.isLt)

/-- One line was stored and nothing else changed, line by line or byte by
    byte. -/
structure StoresLine (pad pad' : Scratchpad) (i : Nat) (line : Line) : Prop where
  inRange : i < lineCount
  reads : readLine pad' i = some line
  others : ∀ k, k ≠ i → readLine pad' k = readLine pad k
  bytes : ∀ k (_ : k < scratchpadBytes), k / lineBytes ≠ i → pad'[k] = pad[k]

theorem writeLine_lt (pad pad' : Scratchpad) (i : Nat) (line : Line)
    (h : writeLine pad i line = some pad') : i < lineCount := by
  by_contra hi
  rw [writeLine, dif_neg hi] at h
  exact absurd h (by simp only [reduceCtorEq, not_false_eq_true])

theorem storesLine_of_writeLine (pad pad' : Scratchpad) (i : Nat) (line : Line)
    (h : writeLine pad i line = some pad') : StoresLine pad pad' i line := by
  have hi := writeLine_lt pad pad' i line h
  have hput : (lineView ⟨i, hi⟩).put pad line = pad' := by
    rw [← Option.some.injEq, ← writeLine_view]
    exact h
  have hothers : ∀ k : Fin lineCount, k.val ≠ i → (lineView k).get pad' = (lineView k).get pad := by
    intro k hk
    rw [← hput]
    exact lineView_apart ⟨i, hi⟩ k (fun heq => hk (congrArg Fin.val heq).symm) pad line
  refine ⟨hi, ?_, fun k hk => readLine_writeLine_other pad pad' i k line (Ne.symm hk) h, ?_⟩
  · have hread := readLine_view pad' ⟨i, hi⟩
    rw [← hput, (lineView ⟨i, hi⟩).get_put] at hread
    rw [← hput]
    exact hread
  · -- A byte of another line is as it was, since that line is.
    intro k hk hne
    have hline := byte_in_line k hk
    exact getElem_eq_of_lineAt pad' pad k hk hline (hothers ⟨k / lineBytes, hline⟩ hne)

theorem primaryStep_stores (w : Workspace) (step : UInt64) (r : PrimaryResult × Workspace)
    (h : primaryStep w step = some r) :
    StoresLine w.scratchpad r.2.scratchpad r.1.lineIndex r.1.written := by
  simp only [primaryStep, Option.bind_eq_bind, Option.bind_eq_some_iff, Option.pure_def,
    Option.some.injEq] at h
  rcases h with ⟨memory, _, pad, hwrite, rfl⟩
  exact storesLine_of_writeLine w.scratchpad pad _ _ hwrite

theorem secondaryStep_stores (w : Workspace) (step : UInt64) (primary : PrimaryResult)
    (r : SecondaryResult × Workspace) (h : secondaryStep w step primary = some r) :
    StoresLine w.scratchpad r.2.scratchpad r.1.lineIndex r.1.written := by
  simp only [secondaryStep, Option.bind_eq_bind, Option.bind_eq_some_iff, Option.pure_def,
    Option.some.injEq] at h
  rcases h with ⟨memory, _, pad, hwrite, rfl⟩
  exact storesLine_of_writeLine w.scratchpad pad _ _ hwrite

/-- The line of the second update, flipped where it collides. -/
theorem secondaryStep_line (w : Workspace) (step : UInt64) (primary : PrimaryResult)
    (r : SecondaryResult × Workspace) (h : secondaryStep w step primary = some r) :
    r.1.lineIndex = if secondaryIndex w.state step primary = primary.lineIndex
      then secondaryIndex w.state step primary ^^^ 1 else secondaryIndex w.state step primary := by
  simp only [secondaryStep, Option.bind_eq_bind, Option.bind_eq_some_iff, Option.pure_def,
    Option.some.injEq, beq_iff_eq] at h
  rcases h with ⟨_, _, _, _, rfl⟩
  rfl

theorem xor_one_ne (i : Nat) : i ^^^ 1 ≠ i := by
  intro h
  have hself := congrArg (fun k => i ^^^ k) h
  simp only [Nat.xor_self, ← Nat.xor_assoc, Nat.zero_xor] at hself
  exact absurd hself Nat.one_ne_zero

/-- The second update never selects the line of the first. -/
theorem secondaryStep_distinct (w : Workspace) (step : UInt64) (primary : PrimaryResult)
    (r : SecondaryResult × Workspace) (h : secondaryStep w step primary = some r) :
    r.1.lineIndex ≠ primary.lineIndex := by
  rw [secondaryStep_line w step primary r h]
  by_cases hsame : secondaryIndex w.state step primary = primary.lineIndex
  · rw [if_pos hsame, hsame]
    exact xor_one_ne primary.lineIndex
  · rw [if_neg hsame]
    exact hsame

/-- Two lines stored one after the other, the second a different one. -/
theorem StoresLine.both (pad pad' pad'' : Scratchpad) (i k : Nat) (first second : Line)
    (h : StoresLine pad pad' i first) (h' : StoresLine pad' pad'' k second) (hne : k ≠ i) :
    readLine pad'' i = some first ∧ readLine pad'' k = some second ∧
    (∀ j, j ≠ i → j ≠ k → readLine pad'' j = readLine pad j) ∧
    ∀ j (_ : j < scratchpadBytes), j / lineBytes ≠ i → j / lineBytes ≠ k → pad''[j] = pad[j] := by
  refine ⟨?_, h'.reads, fun j hi hk => ?_, fun j hj hi hk => ?_⟩
  · rw [h'.others i (Ne.symm hne), h.reads]
  · rw [h'.others j hk, h.others j hi]
  · rw [h'.bytes j hj hk, h.bytes j hj hi]

section

variable (sha3_512 : Bytes → Vector UInt8 64)

/-- A checkpoint that reads the two lines back from memory. -/
def checkpointFromMemory (pad : Scratchpad) (state : State) (step : UInt64)
    (primary : PrimaryResult) (secondary : SecondaryResult) : Option State := do
  let first ← readLine pad primary.lineIndex
  let second ← readLine pad secondary.lineIndex
  return checkpoint sha3_512 state step { primary with written := first }
    { secondary with written := second }

theorem checkpointFromMemory_eq (pad : Scratchpad) (state : State) (step : UInt64)
    (primary : PrimaryResult) (secondary : SecondaryResult)
    (hfirst : readLine pad primary.lineIndex = some primary.written)
    (hsecond : readLine pad secondary.lineIndex = some secondary.written) :
    checkpointFromMemory sha3_512 pad state step primary secondary =
      some (checkpoint sha3_512 state step primary secondary) := by
  simp only [checkpointFromMemory, hfirst, hsecond, Option.bind_eq_bind, Option.bind_some,
    Option.pure_def]

end

/-- In every state, with every scratchpad and step number, the primary step
    stores the line it reports, the secondary step stores a different one, and
    afterwards memory holds both lines as reported, everything else as it was
    and what a checkpoint absorbs. -/
theorem updates_kept (w : Workspace) (step : UInt64) :
    ∃ primary w₁, primaryStep w step = some (primary, w₁) ∧
      StoresLine w.scratchpad w₁.scratchpad primary.lineIndex primary.written ∧
      ∃ secondary w₂, secondaryStep w₁ step primary = some (secondary, w₂) ∧
        secondary.lineIndex < lineCount ∧ secondary.lineIndex ≠ primary.lineIndex ∧
        (secondary.lineIndex = if secondaryIndex w₁.state step primary = primary.lineIndex
          then secondaryIndex w₁.state step primary ^^^ 1
          else secondaryIndex w₁.state step primary) ∧
        StoresLine w₁.scratchpad w₂.scratchpad secondary.lineIndex secondary.written ∧
        readLine w₂.scratchpad primary.lineIndex = some primary.written ∧
        readLine w₂.scratchpad secondary.lineIndex = some secondary.written ∧
        (∀ k, k ≠ primary.lineIndex → k ≠ secondary.lineIndex →
          readLine w₂.scratchpad k = readLine w.scratchpad k) ∧
        (∀ k (_ : k < scratchpadBytes), k / lineBytes ≠ primary.lineIndex →
          k / lineBytes ≠ secondary.lineIndex → w₂.scratchpad[k] = w.scratchpad[k]) ∧
        ∀ sha3_512 state,
          checkpointFromMemory sha3_512 w₂.scratchpad state step primary secondary =
            some (checkpoint sha3_512 state step primary secondary) := by
  rcases primaryStep_total w step with ⟨⟨primary, w₁⟩, hprimary⟩
  rcases secondaryStep_total w₁ step primary with ⟨⟨secondary, w₂⟩, hsecondary⟩
  have hfirst := primaryStep_stores w step _ hprimary
  have hsecond := secondaryStep_stores w₁ step primary _ hsecondary
  have hne := secondaryStep_distinct w₁ step primary _ hsecondary
  have hline := secondaryStep_line w₁ step primary _ hsecondary
  -- The second store leaves the line of the first one alone.
  rcases hfirst.both _ _ _ _ _ _ _ hsecond hne with ⟨hread, hread', hothers, hbytes⟩
  refine ⟨primary, w₁, hprimary, hfirst, secondary, w₂, hsecondary, hsecond.inRange, hne, hline,
    hsecond, hread, hread', hothers, hbytes, ?_⟩
  intro sha3_512 state
  exact checkpointFromMemory_eq sha3_512 w₂.scratchpad state step primary secondary hread hread'

section

variable (sha3_512 : Bytes → Vector UInt8 64)

/-- A step of mixing leaves the lines it did not select as they were. -/
theorem mixStep_other (step : Nat) (w w' : Workspace) (v : MixVisit)
    (h : mixStep sha3_512 step w = some w') (hv : visitStep step w = some v) (k : Nat)
    (hk : k ∉ v.accesses) : readLine w'.scratchpad k = readLine w.scratchpad k := by
  rcases primaryStep_total w (UInt64.ofNat step) with ⟨⟨primary, w₁⟩, hprimary⟩
  have hfirst := primaryStep_stores w _ _ hprimary
  by_cases hinterval : UInt64.ofNat step % secondaryInterval = 0
  · rcases secondaryStep_total w₁ (UInt64.ofNat step) primary with ⟨⟨secondary, w₂⟩, hsecondary⟩
    have hsecond := secondaryStep_stores w₁ _ primary _ hsecondary
    have hne := secondaryStep_distinct w₁ _ primary _ hsecondary
    simp only [visitStep, hprimary, hsecondary, if_pos hinterval, Option.bind_eq_bind,
      Option.bind_some, Option.pure_def, Option.some.injEq] at hv
    simp only [mixStep, hprimary, hsecondary, if_pos hinterval, Option.bind_eq_bind,
      Option.bind_some, Option.pure_def, Option.some.injEq] at h
    subst hv
    simp only [MixVisit.accesses, List.mem_cons, List.not_mem_nil, or_false, not_or] at hk
    rw [← h]
    exact (hfirst.both _ _ _ _ _ _ _ hsecond hne).2.2.1 k hk.1 hk.2.2.1
  · simp only [visitStep, hprimary, if_neg hinterval, Option.bind_eq_bind,
      Option.bind_some, Option.pure_def, Option.some.injEq] at hv
    simp only [mixStep, hprimary, if_neg hinterval, Option.bind_eq_bind,
      Option.bind_some, Option.pure_def, Option.some.injEq] at h
    subst hv
    simp only [MixVisit.accesses, List.mem_cons, List.not_mem_nil, or_false, not_or] at hk
    rw [← h]
    exact hfirst.others k hk.1

/-- The lines no step of a run selected are at its end as they were. -/
theorem mixScratchpad_other (w w' : Workspace) (mixSteps : UInt32)
    (h : mixScratchpad sha3_512 w mixSteps = some w') (k : Nat)
    (hk : ∀ v ∈ mixVisits (Loop.entries (mixStep sha3_512) mixSteps.toNat 1 w), k ∉ v.accesses) :
    readLine w'.scratchpad k = readLine w.scratchpad k := by
  refine Loop.invariant_of_entries (mixStep sha3_512)
    (fun seen t => (∀ v ∈ mixVisits seen, k ∉ v.accesses) →
      readLine t.scratchpad k = readLine w.scratchpad k) mixSteps.toNat 1 w w' h
    (fun _ => rfl) ?_ hk
  intro seen i t t' _ _ ih hstep hseen
  rcases visitStep_eq i t with ⟨v, hv, _⟩
  have hvisits : mixVisits (seen ++ [(i, t)]) = mixVisits seen ++ [v] := by
    simp only [mixVisits, List.filterMap_append, List.filterMap_cons, hv, List.filterMap_nil]
  rw [hvisits] at hseen
  have hlast := hseen v (List.mem_append_right _ (List.mem_singleton_self v))
  rw [mixStep_other sha3_512 i t t' v hstep hv k hlast]
  exact ih (fun u hu => hseen u (List.mem_append_left [v] hu))

end

end Mercahash

end MercaMiner
