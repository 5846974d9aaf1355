import MercaMiner.Theory.PadIndependence

/-!
# The Lines of a Block in Any Order

Binding overwrites a block line by line while it reads lines of two other
blocks. The order of the lines does not matter.

A line's new contents are made of its own old contents and of one line of the
previous and one of the reference block. Neither of these is the block itself,
which for the first block needs the wrap to the last one. So no line reads
what another line of the block has written, and the accumulator, which the
lines are added to with exclusive or, forgets their order.

## Main definitions

* `boundFrom`: A line's new contents, read from a scratchpad.
* `bindBlockBy`: Binding a block with a given way to process its lines.
* `inOrder`, `fromSnapshot`: The lines in a given order, in place or from a
  copy of the scratchpad.

## Theorems

* `bindLine_comm`: Two lines of a block can change places.
* `storeLines_eq`: A snapshot gives what the scratchpad itself gives.
* `line_order`: Every order and the snapshot give the same block.
-/

namespace MercaMiner

namespace Mercahash

theorem readLine_writeLine_other (pad pad' : Scratchpad) (i k : Nat) (line : Line) (hne : i ≠ k)
    (hw : writeLine pad i line = some pad') : readLine pad' k = readLine pad k := by
  by_cases hk : k < lineCount
  · rw [readLine_eq pad' k hk, readLine_eq pad k hk,
      lineAt_writeLine_other pad pad' i k line hk hne hw]
  · rw [readLine, readLine, dif_neg hk, dif_neg hk]

/-- Stores to two lines can change places. -/
theorem writeLine_comm (pad : Scratchpad) (i k : Nat) (first second : Line) (hne : i ≠ k) :
    ((writeLine pad i first).bind fun p => writeLine p k second)
      = (writeLine pad k second).bind fun p => writeLine p i first := by
  by_cases hi : i < lineCount
  · by_cases hk : k < lineCount
    · rcases writeLine_isSome pad i first hi with ⟨padI, hpadI⟩
      rcases writeLine_isSome padI k second hk with ⟨padIK, hpadIK⟩
      rcases writeLine_isSome pad k second hk with ⟨padK, hpadK⟩
      rcases writeLine_isSome padK i first hi with ⟨padKI, hpadKI⟩
      rw [hpadI, hpadK, Option.bind_some, Option.bind_some, hpadIK, hpadKI, Option.some.injEq]
      -- Each line of the results is one of the two stored, or was there before.
      refine scratchpad_ext padIK padKI fun n hn => ?_
      by_cases hni : i = n
      · subst hni
        rw [lineAt_writeLine_other padI padIK k i second hn (Ne.symm hne) hpadIK,
          lineAt_writeLine pad padI i first hn hpadI, lineAt_writeLine padK padKI i first hn hpadKI]
      · by_cases hnk : k = n
        · subst hnk
          rw [lineAt_writeLine padI padIK k second hn hpadIK,
            lineAt_writeLine_other padK padKI i k first hn hne hpadKI,
            lineAt_writeLine pad padK k second hn hpadK]
        · rw [lineAt_writeLine_other padI padIK k n second hn hnk hpadIK,
            lineAt_writeLine_other pad padI i n first hn hni hpadI,
            lineAt_writeLine_other padK padKI i n first hn hni hpadKI,
            lineAt_writeLine_other pad padK k n second hn hnk hpadK]
    · -- A store out of range stops the program either way.
      have hstop (p : Scratchpad) : writeLine p k second = none := by rw [writeLine, dif_neg hk]
      simp only [hstop, Option.bind_none]
      cases writeLine pad i first <;> rfl
  · have hstop (p : Scratchpad) : writeLine p i first = none := by rw [writeLine, dif_neg hi]
    simp only [hstop, Option.bind_none]
    cases writeLine pad k second <;> rfl

/-- The new contents of a line, from the lines a scratchpad holds. -/
def boundFrom (c : BlockContext) (scratchpad : Scratchpad) (line : Nat) : Option Line := do
  let current ← readLine scratchpad (currentLine c line)
  let previous ← readLine scratchpad (previousLine c line)
  let reference ← readLine scratchpad (referenceLine c line)
  return boundLine c line current previous reference

/-- Store a line's new contents and accumulate them. -/
def storeBound (c : BlockContext) (line : Nat) (bound : Line) (s : Scratchpad × Line) :
    Option (Scratchpad × Line) :=
  (writeLine s.1 (currentLine c line) bound).map fun scratchpad =>
    (scratchpad, accumulate s.2 bound)

theorem bindLine_eq (c : BlockContext) (line : Nat) (s : Scratchpad × Line) :
    bindLine c line s = (boundFrom c s.1 line).bind fun bound => storeBound c line bound s := by
  simp only [bindLine, boundFrom, storeBound, Option.bind_eq_bind, Option.pure_def,
    Option.bind_assoc, Option.bind_some, Option.map_eq_bind, Function.comp_def]

/-- A block whose lines refer to other blocks only. -/
structure RefersElsewhere (c : BlockContext) : Prop where
  previous : c.previousBlock ≠ c.block
  reference : c.referenceBlock ≠ c.block

/-- Lines of different blocks are different. -/
theorem block_line_ne (block other i j : Nat) (hne : other ≠ block) (hi : i < 64) (hj : j < 64) :
    block * bindBlockLines + i ≠ other * bindBlockLines + j := by
  rw [bindBlockLines_eq]
  omega

/-- What one line of a block stores, no other line of it reads. -/
theorem boundFrom_store (c : BlockContext) (helsewhere : RefersElsewhere c) (i j : Nat)
    (hi : i < bindBlockLines) (hne : i ≠ j) (bound : Line) (pad pad' : Scratchpad)
    (hw : writeLine pad (currentLine c i) bound = some pad') :
    boundFrom c pad' j = boundFrom c pad j := by
  rw [bindBlockLines_eq] at hi
  have hcurrent : currentLine c i ≠ currentLine c j := by
    rw [currentLine, currentLine]
    omega
  have hprevious : currentLine c i ≠ previousLine c j :=
    block_line_ne c.block c.previousBlock i _ helsewhere.previous hi (and_bindBlockLines _)
  have hreference : currentLine c i ≠ referenceLine c j :=
    block_line_ne c.block c.referenceBlock i _ helsewhere.reference hi (and_bindBlockLines _)
  rw [boundFrom, boundFrom, readLine_writeLine_other pad pad' _ _ bound hcurrent hw,
    readLine_writeLine_other pad pad' _ _ bound hprevious hw,
    readLine_writeLine_other pad pad' _ _ bound hreference hw]

theorem accumulate_word (accumulator bound : Line) (j : Nat) (hj : j < 8) :
    (accumulate accumulator bound)[j] = accumulator[j] ^^^
      (bound.get ⟨j, hj⟩ + rotl (bound.get (⟨j, hj⟩ + 1)) (rotation2 ⟨j, hj⟩)) := by
  simp only [accumulate, Vector.getElem_ofFn]
  rfl

/-- The accumulator forgets the order. -/
theorem accumulate_comm (accumulator first second : Line) :
    accumulate (accumulate accumulator first) second
      = accumulate (accumulate accumulator second) first := by
  refine Vector.ext fun j hj => ?_
  rw [accumulate_word, accumulate_word, accumulate_word, accumulate_word, UInt64.xor_assoc,
    UInt64.xor_assoc]
  exact congrArg _ (UInt64.xor_comm _ _)

/-- Two lines one after the other, each made of what the scratchpad held
    before both. -/
theorem bindLine_twice (c : BlockContext) (helsewhere : RefersElsewhere c) (i j : Nat)
    (hi : i < bindBlockLines) (hne : i ≠ j) (pad : Scratchpad) (accumulator : Line) :
    (bindLine c i (pad, accumulator)).bind (bindLine c j) =
      (boundFrom c pad i).bind fun first => (boundFrom c pad j).bind fun second =>
        ((writeLine pad (currentLine c i) first).bind fun p =>
          writeLine p (currentLine c j) second).map fun p =>
            (p, accumulate (accumulate accumulator first) second) := by
  rw [bindLine_eq, Option.bind_assoc]
  refine congrArg (Option.bind _) (funext fun first => ?_)
  rw [storeBound]
  cases hw : writeLine pad (currentLine c i) first with
  | none =>
      simp only [Option.map_none, Option.bind_none]
      cases boundFrom c pad j <;> rfl
  | some pad' =>
      rw [Option.map_some, Option.bind_some, bindLine_eq,
        boundFrom_store c helsewhere i j hi hne first pad pad' hw]
      rfl

/-- Two lines of a block can change places. -/
theorem bindLine_comm (c : BlockContext) (helsewhere : RefersElsewhere c) (i j : Nat)
    (hi : i < bindBlockLines) (hj : j < bindBlockLines) (hne : i ≠ j) (s : Scratchpad × Line) :
    (bindLine c i s).bind (bindLine c j) = (bindLine c j s).bind (bindLine c i) := by
  have hlines : currentLine c i ≠ currentLine c j := by
    rw [currentLine, currentLine]
    omega
  rw [bindLine_twice c helsewhere i j hi hne s.1 s.2,
    bindLine_twice c helsewhere j i hj (Ne.symm hne) s.1 s.2]
  cases boundFrom c s.1 i with
  | none =>
      rw [Option.bind_none]
      cases boundFrom c s.1 j <;> rfl
  | some first =>
      cases boundFrom c s.1 j with
      | none => rfl
      | some second =>
          simp only [Option.bind_some]
          rw [writeLine_comm s.1 _ _ first second hlines, accumulate_comm s.2 first second]

/-- The lines of a block in the given order, in place. -/
def inOrder (order : List Nat) (c : BlockContext) (s : Scratchpad × Line) :
    Option (Scratchpad × Line) :=
  Loop.sweep (bindLine c) order s

/-- The new contents of all lines in the given order, each with its number. -/
def snapshotLines (order : List Nat) (c : BlockContext) (snapshot : Scratchpad) :
    Option (List (Nat × Line)) :=
  order.mapM fun line => (boundFrom c snapshot line).map fun bound => (line, bound)

/-- Store lines that were computed before. -/
def storeLines (c : BlockContext) (lines : List (Nat × Line)) (s : Scratchpad × Line) :
    Option (Scratchpad × Line) :=
  Loop.sweep (fun line => storeBound c line.1 line.2) lines s

/-- The lines of a block in the given order, all computed before any is
    stored. -/
def fromSnapshot (order : List Nat) (c : BlockContext) (s : Scratchpad × Line) :
    Option (Scratchpad × Line) :=
  (snapshotLines order c s.1).bind fun lines => storeLines c lines s

/-- As long as the scratchpad holds what the snapshot holds for the lines still
    to come, working in place stores what was computed from the snapshot. -/
theorem storeLines_eq (c : BlockContext) (helsewhere : RefersElsewhere c) (snapshot : Scratchpad)
    (order : List Nat) (hnodup : order.Nodup) (hrange : ∀ i ∈ order, i < bindBlockLines)
    (lines : List (Nat × Line)) (hlines : snapshotLines order c snapshot = some lines)
    (s : Scratchpad × Line) (hsame : ∀ i ∈ order, boundFrom c s.1 i = boundFrom c snapshot i) :
    storeLines c lines s = Loop.sweep (bindLine c) order s := by
  induction order generalizing lines s with
  | nil =>
      simp only [snapshotLines, List.mapM_nil, Option.pure_def, Option.some.injEq] at hlines
      rw [← hlines]
      rfl
  | cons i rest ih =>
      simp only [snapshotLines, List.mapM_cons, Option.bind_eq_bind, Option.bind_eq_some_iff,
        Option.map_eq_some_iff, Option.pure_def, Option.some.injEq] at hlines
      rcases hlines with ⟨_, ⟨bound, hbound, rfl⟩, tail, htail, rfl⟩
      rcases List.nodup_cons.mp hnodup with ⟨hfresh, hrest⟩
      -- The first line is stored, and the lines to come read nothing of it.
      rw [storeLines, Loop.sweep, Loop.sweep, bindLine_eq, hsame i List.mem_cons_self, hbound,
        Option.bind_some]
      simp only [storeBound]
      cases hw : writeLine s.1 (currentLine c i) bound with
      | none => rfl
      | some pad' =>
          refine ih hrest (fun j hj => hrange j (List.mem_cons_of_mem i hj)) tail htail _
            fun j hj => ?_
          have hne : i ≠ j := fun h => hfresh (h ▸ hj)
          rw [boundFrom_store c helsewhere i j (hrange i List.mem_cons_self) hne bound s.1 pad' hw]
          exact hsame j (List.mem_cons_of_mem i hj)

theorem boundFrom_total (c : BlockContext) (line : Nat) (pad : Scratchpad)
    (hblock : c.block < bindBlockCount) (hprevious : c.previousBlock < bindBlockCount)
    (hreference : c.referenceBlock < bindBlockCount) (hline : line < bindBlockLines) :
    ∃ bound, boundFrom c pad line = some bound := by
  rcases bindLine_total c line (pad, Vector.replicate 8 0) hblock hprevious hreference hline with
    ⟨s', hs⟩
  rw [bindLine_eq, Option.bind_eq_some_iff] at hs
  rcases hs with ⟨bound, hbound, _⟩
  exact ⟨bound, hbound⟩

theorem snapshotLines_total (c : BlockContext) (order : List Nat) (snapshot : Scratchpad)
    (h : ∀ i ∈ order, ∃ bound, boundFrom c snapshot i = some bound) :
    ∃ lines, snapshotLines order c snapshot = some lines := by
  induction order with
  | nil => exact ⟨[], rfl⟩
  | cons i rest ih =>
      rcases h i List.mem_cons_self with ⟨bound, hbound⟩
      rcases ih fun j hj => h j (List.mem_cons_of_mem i hj) with ⟨tail, htail⟩
      refine ⟨(i, bound) :: tail, ?_⟩
      rw [snapshotLines] at htail
      simp only [snapshotLines, List.mapM_cons, hbound, htail, Option.map_some,
        Option.bind_eq_bind, Option.bind_some, Option.pure_def]

theorem blockContext_elsewhere (state : State) (pass seed : UInt64) (block : Nat)
    (h : block < bindBlockCount) : RefersElsewhere (blockContext state pass block seed) := by
  have hcount := bindBlockCount_eq
  by_cases h0 : block = 0
  · -- The first block refers to the last one.
    refine ⟨?_, ?_⟩
    · simp only [blockContext, if_pos h0]
      omega
    · simp only [blockContext, if_pos h0]
      omega
  · have hlt := blockContext_reference state pass seed block h h0
    refine ⟨?_, Nat.ne_of_lt hlt⟩
    simp only [blockContext, if_neg h0]
    omega

/-- The line loop of a block in any order, and from a snapshot. -/
theorem lineLoop_eq (state : State) (pass seed : UInt64) (block : Nat)
    (h : block < bindBlockCount) (order : List Nat)
    (hperm : order.Perm (List.range bindBlockLines)) (s : Scratchpad × Line) :
    ∃ s', Loop.loop (bindLine (blockContext state pass block seed)) bindBlockLines 0 s = some s' ∧
      inOrder order (blockContext state pass block seed) s = some s' ∧
      fromSnapshot order (blockContext state pass block seed) s = some s' := by
  have helsewhere := blockContext_elsewhere state pass seed block h
  have hprevious := blockContext_previous state pass seed block h
  have hreference := blockContext_reference_lt state pass seed block h
  have hrange : ∀ i ∈ order, i < bindBlockLines := fun i hi =>
    List.mem_range.mp (hperm.mem_iff.mp hi)
  rcases Loop.loop_total (bindLine (blockContext state pass block seed)) bindBlockLines 0 s
    (fun line t _ hlt => bindLine_total _ line t h hprevious hreference (by omega)) with ⟨s', hs⟩
  -- The ascending loop is one of the orders, and the snapshot gives every one.
  have horder : Loop.sweep (bindLine (blockContext state pass block seed)) order s = some s' := by
    rw [Loop.sweep_perm _ order _ hperm (fun i hi j hj hne t =>
      bindLine_comm _ helsewhere i j (hrange i hi) (hrange j hj) hne t) s, List.range_eq_range',
      ← Loop.loop_eq_sweep]
    exact hs
  refine ⟨s', hs, horder, ?_⟩
  rcases snapshotLines_total (blockContext state pass block seed) order s.1 (fun i hi =>
    boundFrom_total _ i s.1 h hprevious hreference (hrange i hi)) with ⟨lines, hlines⟩
  have hnodup : order.Nodup := hperm.nodup_iff.mpr List.nodup_range
  rw [fromSnapshot, hlines, Option.bind_some,
    storeLines_eq _ helsewhere s.1 order hnodup hrange lines hlines s fun _ _ => rfl]
  exact horder

/-- Binding a block with a given way to process its lines. -/
def bindBlockBy (processLines : BlockContext → Scratchpad × Line → Option (Scratchpad × Line))
    (pass : UInt64) (block : Nat) (b : Binding) : Option Binding := do
  let head ← readLine b.scratchpad (block * bindBlockLines)
  let blockU64 := UInt64.ofNat block
  let seed := referenceSeed b.state pass blockU64 head
  let c := blockContext b.state pass block seed
  let diagnostics ← checkReference b.diagnostics block c.referenceBlock
  let (scratchpad, accumulator) ← processLines c (b.scratchpad, Vector.replicate 8 0)
  let state := feedBind seed blockU64 accumulator b.state
  let state := if (block + 1) % bindArxInterval = 0 then mercaARXRound state else state
  return ⟨⟨state, scratchpad⟩, diagnostics⟩

/-- Binding a block is binding it with the ascending loop. -/
theorem bindBlock_eq (pass : UInt64) (block : Nat) (b : Binding) :
    bindBlock pass block b
      = bindBlockBy (fun c s => Loop.loop (bindLine c) bindBlockLines 0 s) pass block b := rfl

/-- Ways to process the lines that agree on a block's context give the same
    block. -/
theorem bindBlockBy_congr
    (processLines processLines' : BlockContext → Scratchpad × Line → Option (Scratchpad × Line))
    (pass : UInt64) (block : Nat) (b : Binding)
    (h : ∀ seed s, processLines (blockContext b.state pass block seed) s
      = processLines' (blockContext b.state pass block seed) s) :
    bindBlockBy processLines pass block b = bindBlockBy processLines' pass block b := by
  simp only [bindBlockBy, h]

/-- The lines of a block can be processed in any order. For every mixing
    state, scratchpad, pass, seed and block, the line loop over any permutation
    of the lines, and the one that computes all new lines from a snapshot
    first, end with the scratchpad and the accumulator of the ascending loop,
    and so the whole block ends in the same state. -/
theorem line_order (pass : UInt64) (block : Nat) (h : block < bindBlockCount) (b : Binding)
    (order : List Nat) (hperm : order.Perm (List.range bindBlockLines)) :
    (∀ seed accumulator, ∃ s',
      Loop.loop (bindLine (blockContext b.state pass block seed)) bindBlockLines 0
        (b.scratchpad, accumulator) = some s' ∧
      inOrder order (blockContext b.state pass block seed) (b.scratchpad, accumulator) = some s' ∧
      fromSnapshot order (blockContext b.state pass block seed) (b.scratchpad, accumulator)
        = some s') ∧
    ∃ b', bindBlock pass block b = some b' ∧
      bindBlockBy (inOrder order) pass block b = some b' ∧
      bindBlockBy (fromSnapshot order) pass block b = some b' := by
  refine ⟨fun seed accumulator => lineLoop_eq b.state pass seed block h order hperm _, ?_⟩
  rcases bindBlock_total pass block h b with ⟨b', hb⟩
  refine ⟨b', hb, ?_, ?_⟩
  · rw [← hb, bindBlock_eq]
    refine bindBlockBy_congr _ _ pass block b fun seed s => ?_
    rcases lineLoop_eq b.state pass seed block h order hperm s with ⟨s', hloop, horder, _⟩
    rw [hloop, horder]
  · rw [← hb, bindBlock_eq]
    refine bindBlockBy_congr _ _ pass block b fun seed s => ?_
    rcases lineLoop_eq b.state pass seed block h order hperm s with ⟨s', hloop, _, hsnapshot⟩
    rw [hloop, hsnapshot]

/-- The first block of an empty scratchpad, its lines from the last to the
    first. -/
theorem line_order_reversed :
    ∃ b', bindBlock 0 0 ⟨⟨Vector.replicate 16 0, freshScratchpad⟩, none⟩ = some b' ∧
      bindBlockBy (inOrder (List.range bindBlockLines).reverse) 0 0
        ⟨⟨Vector.replicate 16 0, freshScratchpad⟩, none⟩ = some b' := by
  rcases (line_order 0 0 (by decide) ⟨⟨Vector.replicate 16 0, freshScratchpad⟩, none⟩
    (List.range bindBlockLines).reverse (List.reverse_perm _)).2 with ⟨b', hb, horder, _⟩
  exact ⟨b', hb, horder⟩

end Mercahash

end MercaMiner
