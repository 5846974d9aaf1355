import MercaMiner.Theory.ProgramSafety
import MercaMiner.Theory.SessionShutdown

/-!
# The Program Shuts Down

After the monitor raised the flag, the program exits within a bounded number of
steps, wherever it was: while it waits for the node, while it mines, or between
the two.

The measure of the startup counts what an attempt has left. An attempt that has
begun may still come to its end and enter the mining, so what is left of a
session is part of it. The measure of the mining is the session's.

## Main definitions

* `StartupPc.closing`, `Program.closing`: What is left.
* `ProgramAction.ofSignal`: What a signal does.
* `ProgramClosing`: A program whose flag is up.
* `Program.complete`: The requested blocks were mined.

## Theorems

* `startupStep_closing`: Under a raised flag every step of a startup lowers it.
* `program_ranked`: So does every step of a program.
* `program_progress`, `program_never_stuck`: A program that has not exited can
  move.
* `program_shuts_down`: After the flag was raised it exits.
-/

namespace MercaMiner

open Transition

/-- What a startup has left, when its return has `mining` steps left. -/
def StartupPc.closing (mining : Nat) : StartupPc → Nat
  | .stopped | .threw _ => 1
  | .loadCancelled | .caughtCancelled => 2
  | .sleeping _ => 3
  | .returned _ => mining + 1
  | .callValidate _ => mining + 4
  | .callGenesis _ _ => mining + 5
  | .callInfo _ => mining + 6
  | .construct _ => mining + 7
  | .readCookie => mining + 8

section

variable (network : NetworkRow) (connection : RpcConnectionSettings) (address : Text)
  (mining : Nat) (s s' : StartupState) (e : StartupEvent)

/-- An exception leads to fewer steps than any statement of an attempt has. -/
theorem complete_closing {α : Type} (result : Except LoopException α) (next : α → StartupPc)
    (bound : Nat) (hbound : 3 < bound) (hnext : ∀ value, (next value).closing mining < bound) :
    (s.complete result next).pc.closing mining < bound := by
  cases result with
  | ok value => exact hnext value
  | error exn =>
      have hthrow : (s.throw exn).pc.closing mining ≤ 3 := by
        cases exn with
        | rpcCancelled => exact Nat.le_succ 2
        | rpc _ => exact Nat.le_refl 3
        | other _ => exact Nat.le_add_left 1 2
      exact Nat.lt_of_le_of_lt hthrow hbound

/-- Under a raised flag no attempt is begun, and one that has begun comes to
    its end. -/
theorem startupStep_closing (hflag : raised s.cancelled = true)
    (h : startupStep network connection address s e = some s') :
    s'.pc.closing mining < s.pc.closing mining := by
  revert h
  fun_cases startupStep network connection address s e with
  | case1 hpc | case8 hpc =>
      intro heq
      cases heq
      rw [hpc]
      exact Nat.lt_succ_self 1
  | case2 _ hdown | case9 _ hdown => exact absurd hflag hdown
  -- A statement of an attempt leads to the next one, or out of it.
  | case3 _ hpc =>
      intro heq
      cases heq
      rw [hpc]
      exact complete_closing mining s _ _ _ (Nat.le_add_left 4 (mining + 4))
        fun _ => Nat.lt_succ_self (mining + 7)
  | case4 _ _ hpc =>
      intro heq
      cases heq
      rw [hpc]
      exact complete_closing mining s _ _ _ (Nat.le_add_left 4 (mining + 3))
        fun _ => Nat.lt_succ_self (mining + 6)
  | case5 _ _ hpc =>
      intro heq
      cases heq
      rw [hpc]
      exact complete_closing mining s _ _ _ (Nat.le_add_left 4 (mining + 2))
        fun _ => Nat.lt_succ_self (mining + 5)
  | case6 _ _ _ hpc =>
      intro heq
      cases heq
      rw [hpc]
      exact complete_closing mining s _ _ _ (Nat.le_add_left 4 (mining + 1))
        fun _ => Nat.lt_succ_self (mining + 4)
  | case7 _ _ hpc =>
      intro heq
      cases heq
      rw [hpc]
      exact complete_closing mining s _ _ _ (Nat.le_add_left 4 mining)
        fun _ => Nat.add_lt_add_left (by decide) mining
  | case10 hpc =>
      intro heq
      cases heq
      rw [hpc]
      exact Nat.lt_succ_self 2
  | case11 remaining hpc _ _ =>
      intro heq
      cases heq
      rw [hpc]
      exact Nat.one_lt_succ_succ 1
  | case12 remaining _ _ left hslice =>
      -- A pause is cut short.
      rw [sleepSlice, if_pos hflag] at hslice
      exact absurd hslice (by simp only [reduceCtorEq, not_false_eq_true])
  | case13 =>
      intro heq
      exact absurd heq (by simp only [reduceCtorEq, not_false_eq_true])

theorem StartupPc.closing_le (pc : StartupPc) : pc.closing mining ≤ mining + 8 := by
  cases pc with
  | stopped | threw _ => exact Nat.le_add_left 1 (mining + 7)
  | loadCancelled | caughtCancelled => exact Nat.le_add_left 2 (mining + 6)
  | sleeping _ => exact Nat.le_add_left 3 (mining + 5)
  | returned _ => exact Nat.le_add_right (mining + 1) 7
  | callValidate _ => exact Nat.le_add_right (mining + 4) 4
  | callGenesis _ _ => exact Nat.le_add_right (mining + 5) 3
  | callInfo _ => exact Nat.le_add_right (mining + 6) 2
  | construct _ => exact Nat.le_succ (mining + 7)
  | readCookie => exact Nat.le_refl (mining + 8)

/-- A startup that goes on can move. -/
theorem startup_progress (hnot : ∀ state, s.pc ≠ .returned state) (hstopped : s.pc ≠ .stopped)
    (hthrew : ∀ exn, s.pc ≠ .threw exn) :
    ∃ e, (startupStep network connection address s e).isSome = true := by
  cases hpc : s.pc with
  | loadCancelled | caughtCancelled =>
      refine ⟨.advance, ?_⟩
      simp only [startupStep, hpc]
      split <;> rfl
  | readCookie =>
      exact ⟨.cookie none, by simp only [startupStep, hpc, Option.isSome_some]⟩
  | construct credentials =>
      exact ⟨.initialized none, by simp only [startupStep, hpc, Option.isSome_some]⟩
  | callInfo _ | callGenesis _ _ | callValidate _ =>
      exact ⟨.reply .rpcCancelled, by simp only [startupStep, hpc, Option.isSome_some]⟩
  | sleeping remaining =>
      refine ⟨.advance, ?_⟩
      simp only [startupStep, hpc]
      split
      · rfl
      · split <;> rfl
  | returned state => exact absurd hpc (hnot state)
  | stopped => exact absurd hpc hstopped
  | threw exn => exact absurd hpc (hthrew exn)

end

/-- The arrival of a signal, or the monitor's reaction. -/
def ProgramAction.ofSignal : ProgramAction → Bool
  | .deliver _ | .monitor => true
  | _ => false

/-- The flag is up, or nobody is left who reads it. -/
def ProgramPhase.raised : ProgramPhase → Prop
  | .startup _ s => MercaMiner.raised s.cancelled = true
  | .mining _ _ s => s.loop.shutdown = true
  | .exited _ _ => True

instance (phase : ProgramPhase) : Decidable phase.raised :=
  match phase with
  | .startup _ s => inferInstanceAs (Decidable (MercaMiner.raised s.cancelled = true))
  | .mining _ _ s => inferInstanceAs (Decidable (s.loop.shutdown = true))
  | .exited _ _ => inferInstanceAs (Decidable True)

/-- What a phase has left. A session has at most six steps for each worker and
    28 more, and the main thread's return. -/
def ProgramPhase.closing : ProgramPhase → Nat
  | .startup plan s => s.pc.closing (6 * plan.config.threadCount.toNat + 29)
  | .mining _ setup s => s.closing setup.workerCount.toNat + 1
  | .exited _ _ => 0

/-- The program exits, or is about to, because the requested blocks were
    mined. -/
def ProgramPhase.complete : ProgramPhase → Prop
  | .startup _ _ => False
  | .mining _ _ s => s.loop.pc = .exited .requestedBlockCountReached
  | .exited code _ => code = 0

theorem ProgramPhase.closing_startup (plan : Plan) (s : StartupState) :
    (ProgramPhase.startup plan s).closing =
      s.pc.closing (6 * plan.config.threadCount.toNat + 29) := rfl

/-- A program whose flag is up. -/
structure ProgramClosing (hashV1 : Bytes → UInt256) (plan : Plan) (p : Program) : Prop where
  ok : ∃ acts, ProgramOk hashV1 plan acts p
  flag : p.phase.raised

section

variable (hashV1 : Bytes → UInt256) (plan : Plan)

theorem MiningOk.sessionOk (acts : List ProgramAction) (setup : SessionSetup) (s : Session)
    (h : MiningOk hashV1 plan acts setup s) : SessionOk setup s := by
  rcases h.session with ⟨state, moves, _, hmoves⟩
  exact session_ok setup plan.config.blockLimit state.payoutScript moves s hmoves

theorem miningFailed_ne : miningFailed ≠ 0 := by decide

/-- What the main thread makes of a returned startup under a raised flag. -/
theorem enterMining_closing (acts : List ProgramAction) (signal : Int) (cancelled : Flag)
    (state : StartupRpcState)
    (hok : ProgramPhaseOk hashV1 plan acts signal (enterMining hashV1 plan cancelled state))
    (hflag : raised cancelled = true) :
    (enterMining hashV1 plan cancelled state).raised ∧
      (enterMining hashV1 plan cancelled state).closing ≤
        6 * plan.config.threadCount.toNat + 29 ∧
      ¬(enterMining hashV1 plan cancelled state).complete := by
  revert hok
  unfold enterMining
  by_cases hworkers : plan.config.threadCount ≠ 0
  · rw [dif_pos hworkers]
    intro hok
    cases hok with
    | mining _ _ hmining _ =>
        refine ⟨hflag, ?_, ?_⟩
        · exact Nat.succ_le_succ (Session.closing_le _ _
            (hmining.sessionOk hashV1 plan acts _ _).work)
        · simp only [ProgramPhase.complete, sessionStart, loopStart, reduceCtorEq,
            not_false_eq_true]
  · rw [dif_neg hworkers]
    intro _
    exact ⟨trivial, Nat.zero_le _, miningFailed_ne⟩

theorem shutdownCode_ne (signal : Int) (hknown : signal ≠ 0 → ∃ s : Signal, signal = s.number)
    (hsignal : signal ≠ 0) : shutdownCode signal ≠ 0 := by
  rcases hknown hsignal with ⟨s, rfl⟩
  cases s with
  | interrupt | terminate => decide

/-- The main thread's steps under a raised flag. -/
theorem nextPhase_closing (acts : List ProgramAction) (signal : Int) (phase phase' : ProgramPhase)
    (hok : ProgramPhaseOk hashV1 plan acts signal phase) (hflag : phase.raised)
    (hknown : signal ≠ 0 → ∃ s : Signal, signal = s.number)
    (h : nextPhase hashV1 signal phase = some phase') :
    phase'.raised ∧ phase'.closing < phase.closing ∧ (phase'.complete → phase.complete) := by
  have hok' := nextPhase_ok hashV1 plan acts signal phase phase' hok h
  cases hok with
  | startup s hstart hraised =>
      have hcode := shutdownCode_ne signal hknown (hraised hflag)
      simp only [nextPhase] at h
      cases hpc : s.pc with
      | returned state =>
          simp only [hpc, Option.some.injEq] at h
          rw [← h] at hok' ⊢
          rcases enterMining_closing hashV1 plan acts signal s.cancelled state hok' hflag with
            ⟨hup, hle, hnot⟩
          refine ⟨hup, ?_, fun hcomplete => absurd hcomplete hnot⟩
          rw [ProgramPhase.closing_startup, hpc]
          exact Nat.lt_succ_of_le hle
      | stopped =>
          simp only [hpc, Option.some.injEq] at h
          rw [← h]
          refine ⟨trivial, ?_, fun hzero => absurd hzero hcode⟩
          rw [ProgramPhase.closing_startup, hpc]
          exact Nat.zero_lt_one
      | threw exn =>
          simp only [hpc, Option.some.injEq] at h
          rw [← h]
          refine ⟨trivial, ?_, fun hzero => absurd hzero miningFailed_ne⟩
          rw [ProgramPhase.closing_startup, hpc]
          exact Nat.zero_lt_one
      | _ =>
          simp only [hpc] at h
          exact absurd h (by simp only [reduceCtorEq, not_false_eq_true])
  | mining setup s hmining hraised =>
      have hcode := shutdownCode_ne signal hknown (hraised hflag)
      revert h
      simp only [nextPhase]
      split
      · intro heq
        cases heq
        exact ⟨trivial, Nat.succ_pos _, fun hzero => absurd hzero hcode⟩
      · rename_i hpc _
        intro heq
        cases heq
        exact ⟨trivial, Nat.succ_pos _, fun _ => hpc⟩
      · intro heq
        cases heq
        exact ⟨trivial, Nat.succ_pos _, fun hzero => absurd hzero miningFailed_ne⟩
      · intro heq
        exact absurd heq (by simp only [reduceCtorEq, not_false_eq_true])
  | exited code summary _ => exact absurd h (by simp only [nextPhase, reduceCtorEq,
      not_false_eq_true])

/-- The steps of a program under a raised flag. -/
theorem programStep_closing (p p' : Program) (a : ProgramAction)
    (hp : ProgramClosing hashV1 plan p) (h : programStep hashV1 p a = some p') :
    ProgramClosing hashV1 plan p' ∧ p'.phase.closing < p.phase.closing ∧
      (p'.phase.complete → p.phase.complete) := by
  rcases hp with ⟨⟨acts, hok⟩, hflag⟩
  have hok' : ∃ acts, ProgramOk hashV1 plan acts p' :=
    ⟨acts ++ [a], programStep_ok hashV1 plan acts p p' a hok h⟩
  cases programStep_effect hashV1 p p' a h with
  | delivered signal hsignal hrunning =>
      -- The flag is up, so there was a signal.
      exfalso
      have hphase := hok.phase
      generalize hcase : p.phase = phase at hphase hflag
      cases hphase with
      | startup s _ hraised => exact hraised hflag hsignal
      | mining setup s _ hraised => exact hraised hflag hsignal
      | exited code summary _ => exact hrunning code summary hcase
  | raised plan' s hphase _ hdown =>
      rw [hphase] at hflag
      exact absurd (hdown.symm.trans hflag) Bool.false_ne_true
  | started e plan' s s' hphase hstep =>
      rw [hphase] at hflag ⊢
      refine ⟨⟨hok', ?_⟩, startupStep_closing _ _ _ _ s s' e hflag hstep, id⟩
      have hkept := startupStep_cancelled _ _ _ s s' e hstep
      simp only [ProgramPhase.raised, hkept]
      exact hflag
  | mined _ b plan' setup s s' hphase hab hstep =>
      have hphaseOk := hok.phase
      rw [hphase] at hflag hphaseOk ⊢
      cases hphaseOk with
      | mining _ _ hmining _ =>
          have hsession := hmining.sessionOk hashV1 plan acts setup s
          exact ⟨⟨hok', (sessionStep_shutdown setup s s' b hsession.shape hstep).2 hflag⟩,
            Nat.succ_lt_succ (sessionStep_closing setup s s' b hflag hstep),
            sessionStep_exit setup s s' b hflag hstep⟩
  | continued phase hnext =>
      rcases nextPhase_closing hashV1 plan acts p.signal p.phase phase hok.phase hflag hok.known
        hnext with ⟨hup, hless, hcomplete⟩
      exact ⟨⟨hok', hup⟩, hless, hcomplete⟩

/-- The measure ranks the steps of a closing program. -/
theorem program_ranked : Ranked (programStep hashV1) (ProgramClosing hashV1 plan)
    fun p => p.phase.closing where
  keep := fun p a p' hp hstep => (programStep_closing hashV1 plan p p' a hp hstep).1
  lower := fun p a p' hp hstep => (programStep_closing hashV1 plan p p' a hp hstep).2.1

theorem main_enabled (p : Program) (h : (nextPhase hashV1 p.signal p.phase).isSome = true) :
    ∃ a p', a.ofSignal = false ∧ programStep hashV1 p a = some p' := by
  rcases Option.isSome_iff_exists.mp h with ⟨phase, hnext⟩
  exact ⟨.main, { p with phase := phase }, rfl,
    by simp only [programStep, hnext, Option.map_some]⟩

/-- A program that has not exited can move by itself. -/
theorem program_progress (acts : List ProgramAction) (p : Program)
    (hok : ProgramOk hashV1 plan acts p) (hnot : ¬∃ code summary, p.phase = .exited code summary) :
    ∃ a p', a.ofSignal = false ∧ programStep hashV1 p a = some p' := by
  have hphase := hok.phase
  generalize hcase : p.phase = phase at hphase
  cases hphase with
  | startup s _ _ =>
      have hmain (h : (nextPhase hashV1 p.signal (.startup plan s)).isSome = true) :
          ∃ a p', a.ofSignal = false ∧ programStep hashV1 p a = some p' :=
        main_enabled hashV1 p (by rw [hcase]; exact h)
      cases hpc : s.pc with
      | returned _ | stopped | threw _ =>
          exact hmain (by simp only [nextPhase, hpc, Option.isSome_some])
      | _ =>
          rcases startup_progress plan.network plan.connection plan.config.payoutAddress s
            (by simp only [hpc, ne_eq, reduceCtorEq, not_false_eq_true, implies_true])
            (by simp only [hpc, ne_eq, reduceCtorEq, not_false_eq_true])
            (by simp only [hpc, ne_eq, reduceCtorEq, not_false_eq_true, implies_true]) with ⟨e, he⟩
          rcases Option.isSome_iff_exists.mp he with ⟨s', hstep⟩
          exact ⟨.startup e, { p with phase := .startup plan s' }, rfl,
            by simp only [programStep, hcase, hstep, Option.map_some]⟩
  | mining setup s hmining _ =>
      have hsession := hmining.sessionOk hashV1 plan acts setup s
      by_cases hended : s.Ended
      · refine main_enabled hashV1 p ?_
        rw [hcase]
        rcases hended.left with ⟨exit, hpc⟩ | ⟨what, hpc⟩
        · cases exit with
          | shutdownComplete | requestedBlockCountReached =>
              simp only [nextPhase, hpc, hended.watcher, Option.isSome_some]
        · simp only [nextPhase, hpc, hended.watcher, Option.isSome_some]
      · rcases session_progress setup s hsession hended with ⟨b, s', hown, hstep⟩
        refine ⟨.mining b, { p with phase := .mining plan setup s' }, rfl, ?_⟩
        cases b with
        | raiseShutdown => exact absurd hown.symm Bool.false_ne_true
        | _ => simp only [programStep, hcase, hstep, Option.map_some]
  | exited code summary _ => exact absurd ⟨code, summary, hcase⟩ hnot

/-- A program does not come to a standstill before it exits: in every state it
    can reach, it can move without a signal. -/
theorem program_never_stuck (host : Host) (arguments : List Text) (acts : List ProgramAction)
    (p : Program) (hrun : run (programStep hashV1) (programStart host arguments) acts = some p) :
    (∃ code summary, p.phase = .exited code summary) ∨
      ∃ a p', a.ofSignal = false ∧ programStep hashV1 p a = some p' := by
  cases hplan : planProgram host arguments with
  | error code =>
      exact Or.inl ⟨code, none, (run_refused hashV1 host arguments acts p code hplan hrun).2⟩
  | ok plan =>
      by_cases hexit : ∃ code summary, p.phase = .exited code summary
      · exact Or.inl hexit
      · exact Or.inr (program_progress hashV1 plan acts p
          (program_ok hashV1 plan host arguments acts p hplan hrun) hexit)

theorem program_never_stuck_regtest :
    ∃ p, run (programStep doubleSha256) (programStart bareHost regtestArguments)
        [.startup .advance] = some p ∧
      ((∃ code summary, p.phase = .exited code summary) ∨
        ∃ a p', a.ofSignal = false ∧ programStep doubleSha256 p a = some p') := by
  have hsome : (run (programStep doubleSha256) (programStart bareHost regtestArguments)
      [.startup .advance]).isSome = true := by decide +kernel
  rcases Option.isSome_iff_exists.mp hsome with ⟨p, hrun⟩
  exact ⟨p, hrun, program_never_stuck doubleSha256 bareHost regtestArguments _ p hrun⟩

theorem ProgramClosing.closing_le (p : Program) (hp : ProgramClosing hashV1 plan p) :
    p.phase.closing ≤ 6 * plan.config.threadCount.toNat + 37 := by
  rcases hp with ⟨⟨acts, hok⟩, _⟩
  have hphase := hok.phase
  generalize p.phase = phase at hphase
  cases hphase with
  | startup s _ _ => exact s.pc.closing_le _
  | mining setup s hmining _ =>
      have hle := s.closing_le setup (hmining.sessionOk hashV1 plan acts setup s).work
      rw [hmining.workers] at hle
      simp only [ProgramPhase.closing, hmining.workers]
      omega
  | exited _ _ _ => exact Nat.zero_le _

/-- After the flag was raised the program takes a bounded number of steps, in
    whatever order its threads move and whatever the node replies, and it exits,
    with a code other than zero unless the requested blocks had been mined. -/
theorem program_shuts_down (host : Host) (arguments : List Text) (before : List ProgramAction)
    (p : Program) (hplan : planProgram host arguments = .ok plan)
    (hrun : run (programStep hashV1) (programStart host arguments) before = some p)
    (hraised : p.phase.raised) :
    (∀ acts t, run (programStep hashV1) p acts = some t →
      acts.length ≤ 6 * plan.config.threadCount.toNat + 37 ∧
      (t.phase.complete → p.phase.complete) ∧
      (Stuck (programStep hashV1) t → ∃ code summary, t.phase = .exited code summary)) ∧
    ∃ acts t code summary, run (programStep hashV1) p acts = some t ∧
      t.phase = .exited code summary := by
  have hclosing : ProgramClosing hashV1 plan p :=
    ⟨⟨before, program_ok hashV1 plan host arguments before p hplan hrun⟩, hraised⟩
  have hranked := program_ranked hashV1 plan
  have hprogress (u : Program) (hu : ProgramClosing hashV1 plan u)
      (hnot : ¬∃ code summary, u.phase = .exited code summary) :
      ∃ a u', programStep hashV1 u a = some u' := by
    rcases hu.ok with ⟨acts, hok⟩
    rcases program_progress hashV1 plan acts u hok hnot with ⟨a, u', _, hstep⟩
    exact ⟨a, u', hstep⟩
  refine ⟨fun acts t hacts => ⟨?_, ?_, hranked.final_of_stuck _ hprogress p t acts hclosing hacts⟩,
    ?_⟩
  · exact Nat.le_trans (hranked.length_le p t acts hclosing hacts)
      (hclosing.closing_le hashV1 plan p)
  · refine (run_invariant (programStep hashV1) (fun u => ProgramClosing hashV1 plan u ∧
      (u.phase.complete → p.phase.complete)) (fun u a u' hu hstep => ?_)
      p ⟨hclosing, id⟩ acts t hacts).2
    rcases programStep_closing hashV1 plan u u' a hu.1 hstep with ⟨hnext, _, hcomplete⟩
    exact ⟨hnext, fun h => hu.2 (hcomplete h)⟩
  · rcases hranked.completes _ hprogress p hclosing with ⟨acts, t, hacts, code, summary, hexit⟩
    exact ⟨acts, t, code, summary, hacts, hexit⟩

theorem program_shuts_down_regtest :
    ∃ p, run (programStep doubleSha256) (programStart bareHost regtestArguments)
        [.deliver .interrupt, .monitor] = some p ∧
      ∃ acts t code summary, run (programStep doubleSha256) p acts = some t ∧
        t.phase = .exited code summary := by
  rcases regtestArguments_plan with ⟨plan, hplan⟩
  have hrun : (run (programStep doubleSha256) (programStart bareHost regtestArguments)
      [.deliver .interrupt, .monitor]).map (fun p => decide p.phase.raised) = some true := by
    decide +kernel
  rcases Option.map_eq_some_iff.mp hrun with ⟨p, hp, hflag⟩
  have hraised : p.phase.raised := of_decide_eq_true hflag
  exact ⟨p, hp, (program_shuts_down doubleSha256 plan bareHost regtestArguments _ p hplan hp
    hraised).2⟩

end

end MercaMiner
