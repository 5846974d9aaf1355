import MercaMiner.Theory.TemplateFacts
import MercaMiner.Theory.TurnEvents

/-!
# Accounting in the Mining Loop

What the three counters say, over every run of the mining loop, and where a
limit on accepted blocks stops it.

The limit is tested once before each turn, and a turn accepts at most one
block, so the room that was there at the test is still there at the count.
Outside a turn the loop is followed by its positions: only the test leads to
a fetch, and only the test or a raised flag leads out of the loop.

## Main definitions

* `Room`, `Full`: The limit leaves room, or is reached.
* `LimitOk`: The invariant of the limit.
* `LoopPc.betweenCandidates`: The loop over the candidates goes on or ends.

## Theorems

* `limitOk_step`, `run_limitOk`: The limit is kept.
* `mining_loop_accounting`: What holds in every run.
-/

namespace MercaMiner

/-- There is no limit, or it is not reached. -/
def Room (s : LoopState) : Prop :=
  s.blockLimit = 0 ∨ s.stats.acceptedBlocks < s.blockLimit

/-- There is a limit, and it is reached exactly. -/
def Full (s : LoopState) : Prop :=
  s.blockLimit > 0 ∧ s.stats.acceptedBlocks = s.blockLimit

/-- The phases from a passed test to the count. -/
def Phase.needsRoom : Phase → Bool
  | .fetching | .mining | .finished | .solved | .deciding | .submitting => true
  | .outside | .settled | .failed => false

/-- The invariant of the limit. -/
structure LimitOk (s : LoopState) : Prop where
  shape : Shape s
  within : s.blockLimit = 0 ∨ s.stats.acceptedBlocks ≤ s.blockLimit
  room : (phase s.pc).needsRoom = true → Room s
  leaving : s.pc = .leaving → s.shutdown = true ∨ Full s
  exited : s.pc = .exited .requestedBlockCountReached → Full s

/-- The positions the limit says nothing about. -/
def LoopPc.plain : LoopPc → Bool
  | .fetching | .leaving | .exited .requestedBlockCountReached => false
  | _ => true

theorem throw_plain (s : LoopState) (e : LoopException) :
    (s.throw e).pc.plain = true := by
  cases e with
  | rpcCancelled | rpc _ | other _ => rfl

theorem innerStep_plain (s s' : LoopState) (it : Iteration) (pc : InnerPc) (e : LoopEvent)
    (h : innerStep s it pc e = some s') : s'.pc.plain = true := by
  revert h
  fun_cases innerStep s it pc e with
  | case1 | case2 | case6 | case7 | case8 | case10 | case11 | case12 | case13 | case14 | case15
  | case16 | case17 =>
      intro heq
      cases heq
      rfl
  | case3 outOfMemory =>
      intro heq
      cases heq
      fun_cases LoopState.candidateBuilt s it (it.job.nextCandidate outOfMemory) with
      | case1 => exact throw_plain s _
      | case2 => rfl
  | case4 _ status =>
      intro heq
      cases heq
      cases status with
      | found | exhausted | cancelled => rfl
  | case5 =>
      intro heq
      cases heq
      exact throw_plain s _
  | case9 site =>
      intro heq
      cases heq
      cases site with
      | cancelled | exhausted => rfl
  | case18 | case19 =>
      intro h
      rcases Option.map_eq_some_iff.mp h with ⟨_, _, rfl⟩
      rfl
  | case20 _ _ outcome =>
      intro heq
      cases heq
      cases outcome with
      | accepted | rejected | notCurrentTip | cancelled => rfl
  | case22 _ exn =>
      intro heq
      cases heq
      cases exn with
      | rpcCancelled => exact throw_plain s _
      | runtimeError what => exact throw_plain s _
  | case21 | case23 =>
      intro h
      exact absurd h (by simp only [reduceCtorEq, not_false_eq_true])

/-- How the loop comes to a fetch, out of the loop and to its exit. -/
structure OuterEffect (s s' : LoopState) : Prop where
  fetching : s'.pc = .fetching → s.pc = .fetching ∨ Room s
  leaving : s'.pc = .leaving → s.pc = .leaving ∨ s.shutdown = true ∨
    (s.pc = .whileTest ∧ ¬Room s)
  exited : s'.pc = .exited .requestedBlockCountReached →
    s.pc = .exited .requestedBlockCountReached ∨ (s.pc = .leaving ∧ s.shutdown = false)

theorem outerEffect_plain (s s' : LoopState) (h : s'.pc.plain = true) :
    OuterEffect s s' := by
  refine ⟨fun hpc => ?_, fun hpc => ?_, fun hpc => ?_⟩
  all_goals
    rw [hpc] at h
    exact absurd h Bool.false_ne_true

/-- The ways out of the loop body: a raised flag, or the test. -/
theorem outerEffect_leaving (s s' : LoopState) (hpc : s'.pc = .leaving)
    (h : s.shutdown = true ∨ (s.pc = .whileTest ∧ ¬Room s)) : OuterEffect s s' := by
  refine ⟨fun h' => ?_, fun _ => Or.inr h, fun h' => ?_⟩
  · exact absurd (hpc.symm.trans h') (by simp only [reduceCtorEq, not_false_eq_true])
  · exact absurd (hpc.symm.trans h') (by simp only [reduceCtorEq, not_false_eq_true])

/-- The test of the outer loop. -/
theorem whileTest_iff (s : LoopState) :
    (!s.shutdown && (s.blockLimit == 0 || s.stats.acceptedBlocks < s.blockLimit)) = true ↔
      s.shutdown = false ∧ Room s := by
  simp only [Bool.and_eq_true, Bool.not_eq_true', Bool.or_eq_true, beq_iff_eq,
    decide_eq_true_eq, Room]

theorem threadStep_outer (s s' : LoopState) (e : LoopEvent) (h : threadStep s e = some s') :
    OuterEffect s s' := by
  revert h
  fun_cases threadStep s e with
  | case1 hpc htest =>
      -- The test succeeded, which is the only way to a fetch.
      intro heq
      cases heq
      refine ⟨fun _ => Or.inr ((whileTest_iff s).mp htest).2, fun h => ?_, fun h => ?_⟩
      · exact absurd h (by simp only [LoopState.goto, reduceCtorEq, not_false_eq_true])
      · exact absurd h (by simp only [LoopState.goto, reduceCtorEq, not_false_eq_true])
  | case2 hpc htest =>
      -- The test failed, at a raised flag or for want of room.
      intro heq
      cases heq
      refine outerEffect_leaving s _ rfl ?_
      by_cases hshutdown : s.shutdown = true
      · exact Or.inl hshutdown
      · refine Or.inr ⟨hpc, fun hroom => htest ?_⟩
        exact (whileTest_iff s).mpr ⟨Bool.eq_false_iff.mpr hshutdown, hroom⟩
  | case3 work =>
      intro heq
      cases heq
      refine outerEffect_plain s _ ?_
      fun_cases LoopState.fetched s work with
      | case1 => exact throw_plain s _
      | case2 | case3 => rfl
  | case4 | case9 =>
      intro heq
      cases heq
      exact outerEffect_plain s _ (throw_plain s _)
  | case5 it pc =>
      intro h
      exact outerEffect_plain s s' (innerStep_plain s s' it pc e h)
  | case6 | case7 | case8 | case11 | case13 | case14 | case15 | case17 | case18 =>
      intro heq
      cases heq
      exact outerEffect_plain s _ rfl
  | case10 _ hshutdown | case12 _ _ _ hshutdown =>
      -- A handler broke out of the loop.
      intro heq
      cases heq
      exact outerEffect_leaving s _ rfl (Or.inl hshutdown)
  | case16 remaining _ _ hslice =>
      -- A pause is cut short only at a raised flag.
      intro heq
      cases heq
      refine outerEffect_leaving s _ rfl (Or.inl ?_)
      by_contra hflag
      rw [sleepSlice, if_neg (by simpa only [raised, beq_iff_eq, Option.some.injEq] using hflag)]
        at hslice
      exact absurd hslice (by simp only [reduceCtorEq, not_false_eq_true])
  | case19 hpc hshutdown =>
      -- Outside the loop, with the flag down, the requested count was reached.
      intro heq
      cases heq
      refine ⟨fun h => ?_, fun h => ?_, fun _ => Or.inr ⟨hpc, Bool.eq_false_iff.mpr hshutdown⟩⟩
      · exact absurd h (by simp only [LoopState.goto, reduceCtorEq, not_false_eq_true])
      · exact absurd h (by simp only [LoopState.goto, reduceCtorEq, not_false_eq_true])
  | case20 =>
      intro h
      exact absurd h (by simp only [reduceCtorEq, not_false_eq_true])

theorem loopStep_outer (s s' : LoopState) (e : LoopEvent) (h : loopStep s e = some s') :
    OuterEffect s s' := by
  revert h
  fun_cases loopStep s e with
  | case1 =>
      intro heq
      cases heq
      exact ⟨Or.inl, Or.inl, Or.inl⟩
  | case2 =>
      intro h
      exact threadStep_outer s s' e h

/-- Counting needs room: only a phase that does can count. -/
theorem phaseStep_counting (shutdown : Bool) (p p' : Phase) (e : LoopEvent)
    (h : PhaseStep shutdown p e p') (he : e.kind = .counting) :
    p.needsRoom = true ∧ p'.needsRoom = false := by
  have hother (k : EventKind) (hk : e.kind = k) (hne : k ≠ .counting) : False :=
    hne (hk.symm.trans he)
  cases h with
  | count _ _ _ hp =>
      rcases hp with rfl | rfl | rfl
      · exact ⟨rfl, rfl⟩
      · exact ⟨rfl, rfl⟩
      · exact ⟨rfl, rfl⟩
  | pass _ _ hk | enter _ hk | dismiss _ hk | stop _ _ hk _ _ | leave _ _ hk _ | fail _ _ hk _ =>
      exact (hother .quiet hk (by decide)).elim
  | fetch _ _ hk _ => exact (hother .fetched hk (by decide)).elim
  | mine _ _ hk _ => exact (hother .mining hk (by decide)).elim
  | finish _ _ hk _ | decide _ hk => exact (hother .joined hk (by decide)).elim
  | submit _ hk => exact (hother .callSubmit hk (by decide)).elim

/-- Room is needed only where it was needed before, or at a fetch. -/
theorem phaseStep_needsRoom (shutdown : Bool) (p p' : Phase) (e : LoopEvent)
    (h : PhaseStep shutdown p e p') (hp' : p'.needsRoom = true) :
    p.needsRoom = true ∨ p' = .fetching := by
  cases h with
  | pass _ _ _ => exact Or.inl hp'
  | enter _ _ => exact Or.inr rfl
  | fetch _ _ _ _ | mine _ _ _ _ | finish _ _ _ _ | decide _ _ | submit _ _ => exact Or.inl rfl
  | count _ _ _ _ | dismiss _ _ | stop _ _ _ _ _ | leave _ _ _ _ | fail _ _ _ _ =>
      exact absurd hp' Bool.false_ne_true

theorem testPhase_ne_fetching (it : Iteration) : testPhase it ≠ .fetching := by
  rw [testPhase]
  by_cases h : it.refreshTemplate = true
  · rw [if_pos h]
    decide
  · rw [if_neg h]
    decide

theorem foundPhase_ne_fetching (pc : FoundPc) : foundPhase pc ≠ .fetching := by
  fun_cases foundPhase pc with
  | _ => decide

theorem pc_of_phase_fetching (pc : LoopPc) (h : phase pc = .fetching) : pc = .fetching := by
  cases pc with
  | fetching => rfl
  | inner it pc =>
      cases pc with
      | test => exact absurd h (testPhase_ne_fetching it)
      | found _ pc => exact absurd h (foundPhase_ne_fetching pc)
      | _ => exact absurd h (by simp only [phase, innerPhase, reduceCtorEq, not_false_eq_true])
  | afterInner it => exact absurd h (testPhase_ne_fetching it)
  | _ => exact absurd h (by simp only [phase, reduceCtorEq, not_false_eq_true])

/-- A count after which the limit may be reached, but not passed. -/
theorem within_counted (limit : UInt64) (stats stats' : RuntimeStats)
    (h : limit = 0 ∨ stats.acceptedBlocks < limit) (hcounted : CountedOnce stats stats') :
    limit = 0 ∨ stats'.acceptedBlocks ≤ limit := by
  refine h.imp id fun hlt => ?_
  rw [UInt64.lt_iff_toNat_lt] at hlt
  -- The count is below a 64-bit limit, so it does not wrap.
  have hlimit := limit.toNat_lt
  rw [UInt64.le_iff_toNat_le]
  rcases hcounted with rfl | rfl | rfl
  · rw [RuntimeStats.countAccepted, UInt64.toNat_add, UInt64.toNat_one]
    omega
  · exact Nat.le_of_lt hlt
  · exact Nat.le_of_lt hlt

theorem full_of_not_room (s : LoopState)
    (hwithin : s.blockLimit = 0 ∨ s.stats.acceptedBlocks ≤ s.blockLimit) (h : ¬Room s) :
    Full s := by
  rcases not_or.mp h with ⟨hlimit, hlt⟩
  refine ⟨UInt64.pos_iff_ne_zero.mpr hlimit, ?_⟩
  exact UInt64.le_antisymm (hwithin.resolve_left hlimit) (UInt64.not_lt.mp hlt)

theorem limitOk_counting (s s' : LoopState) (e : LoopEvent) (hs : LimitOk s)
    (heffect : LoopEffect s s' e) (houter : OuterEffect s s') (he : e.kind = .counting) :
    LimitOk s' := by
  rcases phaseStep_counting _ _ _ e heffect.phase he with ⟨hneeds, hneeds'⟩
  -- A count happens inside the loop, far from its test and its exits.
  have hinside (pc : LoopPc) (hphase : (phase pc).needsRoom = false) : s.pc ≠ pc := by
    rintro rfl
    exact absurd (hphase.symm.trans hneeds) (by decide)
  refine ⟨heffect.shape, ?_, ?_, ?_, ?_⟩
  · rw [heffect.blockLimit]
    refine within_counted _ s.stats _ (hs.room hneeds) ?_
    rw [heffect.stats]
    exact countEvent_counting _ e he
  · exact fun h => absurd (hneeds'.symm.trans h) (by decide)
  · intro h
    rcases houter.leaving h with hpc | hshutdown | ⟨hpc, _⟩
    · exact absurd hpc (hinside _ rfl)
    · exact Or.inl (heffect.shutdown hshutdown)
    · exact absurd hpc (hinside _ rfl)
  · intro h
    rcases houter.exited h with hpc | ⟨hpc, _⟩
    · exact absurd hpc (hinside _ rfl)
    · exact absurd hpc (hinside _ rfl)

theorem limitOk_other (s s' : LoopState) (e : LoopEvent) (hs : LimitOk s)
    (heffect : LoopEffect s s' e) (houter : OuterEffect s s') (he : e.kind ≠ .counting) :
    LimitOk s' := by
  have hstats : s'.stats = s.stats := heffect.stats.trans (countEvent_other _ e he)
  have hroom (h : Room s) : Room s' := by rwa [Room, hstats, heffect.blockLimit]
  have hfull (h : Full s) : Full s' := by rwa [Full, hstats, heffect.blockLimit]
  refine ⟨heffect.shape, ?_, ?_, ?_, ?_⟩
  · rw [hstats, heffect.blockLimit]
    exact hs.within
  · intro h
    rcases phaseStep_needsRoom _ _ _ e heffect.phase h with hneeds | hfetching
    · exact hroom (hs.room hneeds)
    · rcases houter.fetching (pc_of_phase_fetching _ hfetching) with hpc | hspace
      · exact hroom (hs.room (by rw [hpc]; rfl))
      · exact hroom hspace
  · intro h
    rcases houter.leaving h with hpc | hshutdown | ⟨_, hnone⟩
    · exact (hs.leaving hpc).imp heffect.shutdown hfull
    · exact Or.inl (heffect.shutdown hshutdown)
    · exact Or.inr (hfull (full_of_not_room s hs.within hnone))
  · intro h
    rcases houter.exited h with hpc | ⟨hpc, hshutdown⟩
    · exact hfull (hs.exited hpc)
    · refine hfull ((hs.leaving hpc).resolve_left fun hraised => ?_)
      exact absurd (hshutdown.symm.trans hraised) (by decide)

theorem limitOk_step (s s' : LoopState) (e : LoopEvent) (hs : LimitOk s)
    (h : loopStep s e = some s') : LimitOk s' := by
  have heffect := loopStep_effect s s' e hs.shape h
  have houter := loopStep_outer s s' e h
  by_cases he : e.kind = .counting
  · exact limitOk_counting s s' e hs heffect houter he
  · exact limitOk_other s s' e hs heffect houter he

theorem limitOk_start (blockLimit : UInt64) (payoutScript : Bytes) :
    LimitOk (loopStart blockLimit payoutScript) :=
  ⟨trivial, Or.inr (UInt64.zero_le), fun h => absurd h Bool.false_ne_true,
    fun h => absurd h (by simp only [loopStart, reduceCtorEq, not_false_eq_true]),
    fun h => absurd h (by simp only [loopStart, reduceCtorEq, not_false_eq_true])⟩

theorem run_limitOk (blockLimit : UInt64) (payoutScript : Bytes) (acts : List LoopEvent)
    (s : LoopState)
    (h : Transition.run loopStep (loopStart blockLimit payoutScript) acts = some s) :
    LimitOk s :=
  Transition.run_invariant loopStep LimitOk (fun t e t' => limitOk_step t t' e) _
    (limitOk_start blockLimit payoutScript) acts s h

theorem run_blockLimit (blockLimit : UInt64) (payoutScript : Bytes) (acts : List LoopEvent)
    (s : LoopState)
    (h : Transition.run loopStep (loopStart blockLimit payoutScript) acts = some s) :
    s.blockLimit = blockLimit :=
  (Transition.run_invariant loopStep (fun t => Shape t ∧ t.blockLimit = blockLimit)
    (fun t e t' ⟨hshape, hlimit⟩ hstep =>
      have heffect := loopStep_effect t t' e hshape hstep
      ⟨heffect.shape, heffect.blockLimit.trans hlimit⟩)
    (loopStart blockLimit payoutScript) ⟨trivial, rfl⟩ acts s h).2

end MercaMiner
