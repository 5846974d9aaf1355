import MercaMiner.Core.Program
import MercaMiner.Theory.LoopAccounting
import MercaMiner.Theory.SessionSafety
import MercaMiner.Theory.StartupSafety

/-!
# What the Program Does

The program from its arguments to its exit code, over every order of its
threads and signals and every reply of the node.

A program that mines is a session entered from a startup that was checked. So
what is known of sessions holds of programs, with the network, the script and
the limit that the arguments and the node's replies gave. What an exit code
means follows: two is for the arguments, zero with a summary for a limit that
was reached, and a code above 128 for the signal that was delivered.

One inversion lemma says what a step of the program does. The invariant is
carried along a run together with the actions performed so far.

## Main definitions

* `ProgramEffect`: What a step does.
* `startupSeen`: The events of the startup among the actions.
* `MiningOk`, `ExitOk`, `ProgramPhaseOk`: What holds in each phase.
* `ProgramOk`: The invariant.
* `Program.submits`: The block a program is submitting.
* `Program.ready`: What a program is about to mine with.
* `regtestProgram`: A run on the regression test network.

## Theorems

* `programStep_effect`: Every step is one of these.
* `planProgram_ok`: What a plan has settled.
* `programStep_ok`, `program_ok`: The invariant holds in every run.
* `program_submits_valid`: What a program submits.
* `run_mining`: A program that mines runs its session.
* `program_exit`: What an exit code means.
* `program_waits`: A program whose node does not reply.
-/

namespace MercaMiner

open Transition

/-- What a step of the program does. -/
inductive ProgramEffect (hashV1 : Bytes → UInt256) (p : Program) : ProgramAction → Program → Prop
  | delivered (signal : Signal) (hsignal : p.signal = 0)
      (hrunning : ∀ code summary, p.phase ≠ .exited code summary) :
      ProgramEffect hashV1 p (.deliver signal) { p with signal := signal.number }
  | raised (plan : Plan) (s : StartupState) (hphase : p.phase = .startup plan s)
      (hsignal : p.signal ≠ 0) (hflag : raised s.cancelled = false) :
      ProgramEffect hashV1 p .monitor
        { p with phase := .startup plan { s with cancelled := some true } }
  | started (e : StartupEvent) (plan : Plan) (s s' : StartupState)
      (hphase : p.phase = .startup plan s)
      (h : startupStep plan.network plan.connection plan.config.payoutAddress s e = some s') :
      ProgramEffect hashV1 p (.startup e) { p with phase := .startup plan s' }
  | mined (a : ProgramAction) (b : SessionAction) (plan : Plan) (setup : SessionSetup)
      (s s' : Session) (hphase : p.phase = .mining plan setup s)
      (hab : (a = .mining b ∧ b ≠ .raiseShutdown) ∨
        (a = .monitor ∧ b = .raiseShutdown ∧ p.signal ≠ 0))
      (h : sessionStep setup s b = some s') :
      ProgramEffect hashV1 p a { p with phase := .mining plan setup s' }
  | continued (phase : ProgramPhase) (h : nextPhase hashV1 p.signal p.phase = some phase) :
      ProgramEffect hashV1 p .main { p with phase := phase }

section

variable (hashV1 : Bytes → UInt256)

theorem deliver_effect (p p' : Program) (signal : Signal)
    (h : programStep hashV1 p (.deliver signal) = some p') :
    ProgramEffect hashV1 p (.deliver signal) p' := by
  unfold programStep at h
  have hfree (hrunning : ∀ code summary, p.phase ≠ .exited code summary)
      (h : (if p.signal = 0 then some { p with signal := signal.number } else none) = some p') :
      ProgramEffect hashV1 p (.deliver signal) p' := by
    by_cases hsignal : p.signal = 0
    · rw [if_pos hsignal, Option.some.injEq] at h
      rw [← h]
      exact .delivered signal hsignal hrunning
    · rw [if_neg hsignal] at h
      exact absurd h (by simp only [reduceCtorEq, not_false_eq_true])
  cases hphase : p.phase with
  | exited code summary =>
      simp only [hphase] at h
      exact absurd h (by simp only [reduceCtorEq, not_false_eq_true])
  | startup _ _ | mining _ _ _ =>
      refine hfree (by simp only [hphase, ne_eq, reduceCtorEq, not_false_eq_true, implies_true]) ?_
      simp only [hphase] at h ⊢
      exact h

theorem monitor_effect (p p' : Program) (h : programStep hashV1 p .monitor = some p') :
    ProgramEffect hashV1 p .monitor p' := by
  unfold programStep at h
  simp only [Option.map_eq_some_iff] at h
  rcases h with ⟨phase, hmonitor, rfl⟩
  unfold monitorStep at hmonitor
  by_cases hsignal : p.signal = 0
  · rw [if_pos hsignal] at hmonitor
    exact absurd hmonitor (by simp only [reduceCtorEq, not_false_eq_true])
  rw [if_neg hsignal] at hmonitor
  cases hphase : p.phase with
  | startup plan s =>
      simp only [hphase] at hmonitor
      by_cases hflag : raised s.cancelled = true
      · rw [if_pos hflag] at hmonitor
        exact absurd hmonitor (by simp only [reduceCtorEq, not_false_eq_true])
      · rw [if_neg hflag, Option.some.injEq] at hmonitor
        rw [← hmonitor]
        exact .raised plan s hphase hsignal (Bool.eq_false_iff.mpr hflag)
  | mining plan setup s =>
      simp only [hphase, Option.map_eq_some_iff] at hmonitor
      rcases hmonitor with ⟨s', hstep, rfl⟩
      exact .mined .monitor .raiseShutdown plan setup s s' hphase (Or.inr ⟨rfl, rfl, hsignal⟩) hstep
  | exited code summary =>
      simp only [hphase] at hmonitor
      exact absurd hmonitor (by simp only [reduceCtorEq, not_false_eq_true])

theorem mining_effect (p p' : Program) (a : SessionAction)
    (h : programStep hashV1 p (.mining a) = some p') :
    ProgramEffect hashV1 p (.mining a) p' := by
  by_cases ha : a = .raiseShutdown
  · rw [ha] at h
    exact absurd h (by simp only [programStep, reduceCtorEq, not_false_eq_true])
  simp only [programStep] at h
  cases hphase : p.phase with
  | mining plan setup s =>
      simp only [hphase, Option.map_eq_some_iff] at h
      rcases h with ⟨s', hstep, rfl⟩
      exact .mined (.mining a) a plan setup s s' hphase (Or.inl ⟨rfl, ha⟩) hstep
  | _ =>
      simp only [hphase] at h
      exact absurd h (by simp only [reduceCtorEq, not_false_eq_true])

/-- Every step is one of these. -/
theorem programStep_effect (p p' : Program) (a : ProgramAction)
    (h : programStep hashV1 p a = some p') : ProgramEffect hashV1 p a p' := by
  cases a with
  | deliver signal => exact deliver_effect hashV1 p p' signal h
  | monitor => exact monitor_effect hashV1 p p' h
  | mining a => exact mining_effect hashV1 p p' a h
  | startup e =>
      simp only [programStep] at h
      cases hphase : p.phase with
      | startup plan s =>
          simp only [hphase, Option.map_eq_some_iff] at h
          rcases h with ⟨s', hstep, rfl⟩
          exact .started e plan s s' hphase hstep
      | _ =>
          simp only [hphase] at h
          exact absurd h (by simp only [reduceCtorEq, not_false_eq_true])
  | main =>
      simp only [programStep, Option.map_eq_some_iff] at h
      rcases h with ⟨phase, hnext, rfl⟩
      exact .continued phase hnext

end

/-- The events of the startup among the actions. -/
def startupSeen (acts : List ProgramAction) (e : StartupEvent) : Prop :=
  ProgramAction.startup e ∈ acts

/-- A mining phase is a session that was entered from a checked startup. -/
structure MiningOk (hashV1 : Bytes → UInt256) (plan : Plan) (acts : List ProgramAction)
    (setup : SessionSetup) (s : Session) : Prop where
  network : setup.network = plan.network.toNetworkIdentity
  hash : setup.hashV1 = hashV1
  workers : setup.workerCount = plan.config.threadCount
  session : ∃ state moves,
    Started (startupSeen acts) plan.network plan.connection plan.config.payoutAddress state ∧
    run (sessionStep setup) (sessionStart plan.config.blockLimit state.payoutScript) moves = some s

/-- Why a program that had a plan exits with a code and a summary. -/
inductive ExitOk (plan : Plan) (signal : Int) : Int → Option RuntimeStats → Prop
  | failed : ExitOk plan signal miningFailed none
  | shutdown (stats : RuntimeStats) (hsignal : signal ≠ 0)
      (hlimit : plan.config.blockLimit = 0 ∨ stats.acceptedBlocks ≤ plan.config.blockLimit) :
      ExitOk plan signal (128 + signal) (some stats)
  | complete (stats : RuntimeStats) (hlimit : plan.config.blockLimit > 0)
      (hcount : stats.acceptedBlocks = plan.config.blockLimit) :
      ExitOk plan signal 0 (some stats)

/-- What holds in each phase. The flag is only raised after a signal. -/
inductive ProgramPhaseOk (hashV1 : Bytes → UInt256) (plan : Plan) (acts : List ProgramAction)
    (signal : Int) : ProgramPhase → Prop
  | startup (s : StartupState)
      (hok : StartupOk (startupSeen acts) plan.network plan.connection plan.config.payoutAddress s)
      (hflag : raised s.cancelled = true → signal ≠ 0) :
      ProgramPhaseOk hashV1 plan acts signal (.startup plan s)
  | mining (setup : SessionSetup) (s : Session) (hok : MiningOk hashV1 plan acts setup s)
      (hflag : s.loop.shutdown = true → signal ≠ 0) :
      ProgramPhaseOk hashV1 plan acts signal (.mining plan setup s)
  | exited (code : Int) (summary : Option RuntimeStats) (h : ExitOk plan signal code summary) :
      ProgramPhaseOk hashV1 plan acts signal (.exited code summary)

/-- The invariant of a program with a plan, after some actions. The signal it
    keeps is the one that was delivered. -/
structure ProgramOk (hashV1 : Bytes → UInt256) (plan : Plan) (acts : List ProgramAction)
    (p : Program) : Prop where
  delivered : ∀ signal, .deliver signal ∈ acts ↔ p.signal = signal.number
  known : p.signal ≠ 0 → ∃ signal : Signal, p.signal = signal.number
  phase : ProgramPhaseOk hashV1 plan acts p.signal p.phase

theorem Signal.number_ne (signal : Signal) : signal.number ≠ 0 := by
  cases signal with
  | interrupt | terminate => decide

theorem Signal.number_injective (signal signal' : Signal) (h : signal.number = signal'.number) :
    signal = signal' := by
  cases signal with
  | interrupt =>
      cases signal' with
      | interrupt => rfl
      | terminate => exact absurd h (by decide)
  | terminate =>
      cases signal' with
      | interrupt => exact absurd h (by decide)
      | terminate => rfl

section

variable (hashV1 : Bytes → UInt256) (plan : Plan)

theorem MiningOk.mono (acts acts' : List ProgramAction) (setup : SessionSetup) (s : Session)
    (hacts : ∀ a ∈ acts, a ∈ acts') (h : MiningOk hashV1 plan acts setup s) :
    MiningOk hashV1 plan acts' setup s := by
  rcases h with ⟨hnetwork, hhash, hworkers, state, moves, hstarted, hrun⟩
  exact ⟨hnetwork, hhash, hworkers, state, moves,
    hstarted.mono _ _ plan.network plan.connection plan.config.payoutAddress state
      (fun e => hacts (.startup e)), hrun⟩

/-- One more step of the session. -/
theorem MiningOk.step (acts : List ProgramAction) (setup : SessionSetup) (s s' : Session)
    (b : SessionAction) (h : MiningOk hashV1 plan acts setup s)
    (hstep : sessionStep setup s b = some s') : MiningOk hashV1 plan acts setup s' := by
  rcases h with ⟨hnetwork, hhash, hworkers, state, moves, hstarted, hrun⟩
  refine ⟨hnetwork, hhash, hworkers, state, moves ++ [b], hstarted, ?_⟩
  rw [run_append _ _ s moves [b] hrun, run_cons _ s s' b [] hstep, run]

/-- More may have been done, and a signal delivered, as long as the program
    runs. -/
theorem ProgramPhaseOk.mono (acts acts' : List ProgramAction) (signal signal' : Int)
    (phase : ProgramPhase) (hacts : ∀ a ∈ acts, a ∈ acts')
    (hsignal : signal' = signal ∨ (signal' ≠ 0 ∧ ∀ code summary, phase ≠ .exited code summary))
    (h : ProgramPhaseOk hashV1 plan acts signal phase) :
    ProgramPhaseOk hashV1 plan acts' signal' phase := by
  have hkept : signal ≠ 0 → signal' ≠ 0 := by
    rcases hsignal with rfl | ⟨hne, _⟩
    · exact id
    · exact fun _ => hne
  cases h with
  | startup s hok hflag =>
      exact .startup s (hok.mono _ _ plan.network plan.connection plan.config.payoutAddress s
        (fun e => hacts (.startup e))) fun h => hkept (hflag h)
  | mining setup s hok hflag =>
      exact .mining setup s (hok.mono hashV1 plan acts acts' setup s hacts)
        fun h => hkept (hflag h)
  | exited code summary h =>
      rcases hsignal with rfl | ⟨_, hrunning⟩
      · exact .exited code summary h
      · exact absurd rfl (hrunning code summary)

/-- A session that is entered with a raised flag is one whose flag was raised
    at its start. -/
theorem sessionStart_raised (setup : SessionSetup) (blockLimit : UInt64) (payoutScript : Bytes)
    (flag : Bool) : ∃ moves, run (sessionStep setup) (sessionStart blockLimit payoutScript) moves =
      some { sessionStart blockLimit payoutScript with
        loop := { (sessionStart blockLimit payoutScript).loop with shutdown := flag } } := by
  cases flag with
  | false => exact ⟨[], rfl⟩
  | true => exact ⟨[.raiseShutdown], rfl⟩

theorem enterMining_ok (acts : List ProgramAction) (signal : Int) (cancelled : Flag)
    (state : StartupRpcState)
    (hstarted : Started (startupSeen acts) plan.network plan.connection plan.config.payoutAddress
      state) (hflag : raised cancelled = true → signal ≠ 0) :
    ProgramPhaseOk hashV1 plan acts signal (enterMining hashV1 plan cancelled state) := by
  unfold enterMining
  by_cases hworkers : plan.config.threadCount ≠ 0
  · rw [dif_pos hworkers]
    rcases sessionStart_raised ⟨plan.network.toNetworkIdentity, hashV1, plan.config.threadCount,
      hworkers⟩ plan.config.blockLimit state.payoutScript (raised cancelled) with ⟨moves, hrun⟩
    exact .mining _ _ ⟨rfl, rfl, rfl, state, moves, hstarted, hrun⟩ hflag
  · rw [dif_neg hworkers]
    exact .exited _ _ .failed

theorem shutdownCode_ok (signal : Int) (stats : RuntimeStats) (hsignal : signal ≠ 0)
    (hlimit : plan.config.blockLimit = 0 ∨ stats.acceptedBlocks ≤ plan.config.blockLimit) :
    ExitOk plan signal (shutdownCode signal) (some stats) := by
  rw [shutdownCode, if_pos hsignal]
  exact .shutdown stats hsignal hlimit

/-- What the loop's limit says of a mining phase. -/
theorem MiningOk.limit (acts : List ProgramAction) (setup : SessionSetup) (s : Session)
    (h : MiningOk hashV1 plan acts setup s) :
    LimitOk s.loop ∧ s.loop.blockLimit = plan.config.blockLimit := by
  rcases h.session with ⟨state, moves, _, hrun⟩
  rcases session_run_loop setup _ s moves hrun with ⟨events, hevents⟩
  exact ⟨run_limitOk plan.config.blockLimit state.payoutScript events s.loop hevents,
    run_blockLimit plan.config.blockLimit state.payoutScript events s.loop hevents⟩

/-- The main thread goes on to a phase of the invariant. -/
theorem nextPhase_ok (acts : List ProgramAction) (signal : Int) (phase phase' : ProgramPhase)
    (hok : ProgramPhaseOk hashV1 plan acts signal phase)
    (h : nextPhase hashV1 signal phase = some phase') :
    ProgramPhaseOk hashV1 plan acts signal phase' := by
  cases hok with
  | startup s hok hflag =>
      unfold nextPhase at h
      rw [StartupOk] at hok
      cases hpc : s.pc with
      | returned state =>
          simp only [hpc, Option.some.injEq] at h hok
          rw [← h]
          exact enterMining_ok hashV1 plan acts signal s.cancelled state hok hflag
      | stopped =>
          simp only [hpc, Option.some.injEq] at h hok
          rw [← h]
          exact .exited _ _ (shutdownCode_ok plan signal _ (hflag hok) (Or.inr (UInt64.zero_le)))
      | threw e =>
          simp only [hpc, Option.some.injEq] at h
          rw [← h]
          exact .exited _ _ .failed
      | _ =>
          simp only [hpc] at h
          exact absurd h (by simp only [reduceCtorEq, not_false_eq_true])
  | mining setup s hok hflag =>
      rcases hok.limit hashV1 plan acts setup s with ⟨hlimit, hconfig⟩
      rcases hok.session with ⟨state, moves, _, hrun⟩
      revert h
      simp only [nextPhase]
      split
      · rename_i hpc _
        intro heq
        cases heq
        have hraised := session_stopped setup _ _ moves s hrun hpc
        refine .exited _ _ (shutdownCode_ok plan signal _ (hflag hraised) ?_)
        rw [← hconfig]
        exact hlimit.within
      · rename_i hpc _
        intro heq
        cases heq
        have hfull := hlimit.exited hpc
        rw [Full, hconfig] at hfull
        exact .exited _ _ (.complete _ hfull.1 hfull.2)
      · intro heq
        cases heq
        exact .exited _ _ .failed
      · intro heq
        exact absurd heq (by simp only [reduceCtorEq, not_false_eq_true])
  | exited code summary h' => exact absurd h (by simp only [nextPhase, reduceCtorEq,
      not_false_eq_true])

/-- Every step keeps the invariant. -/
theorem programStep_ok (acts : List ProgramAction) (p p' : Program) (a : ProgramAction)
    (hok : ProgramOk hashV1 plan acts p) (h : programStep hashV1 p a = some p') :
    ProgramOk hashV1 plan (acts ++ [a]) p' := by
  rcases hok with ⟨hdelivered, hknown, hphase⟩
  have hmem : ∀ b ∈ acts, b ∈ acts ++ [a] := fun b hb => List.mem_append_left [a] hb
  have hkept := hphase.mono hashV1 plan acts (acts ++ [a]) p.signal p.signal p.phase hmem
    (Or.inl rfl)
  -- A step that delivers nothing leaves the signal alone.
  have hsame (hne : ∀ signal, a ≠ .deliver signal) (signal : Signal) :
      .deliver signal ∈ acts ++ [a] ↔ p.signal = signal.number := by
    rw [List.mem_append, List.mem_singleton, hdelivered]
    exact or_iff_left fun heq => hne signal heq.symm
  cases programStep_effect hashV1 p p' a h with
  | delivered signal hsignal hrunning =>
      refine ⟨fun other => ?_, fun _ => ⟨signal, rfl⟩, ?_⟩
      · -- There was no signal before.
        rw [List.mem_append, List.mem_singleton, hdelivered, hsignal]
        constructor
        · intro hcases
          rcases hcases with hzero | heq
          · exact absurd hzero.symm other.number_ne
          · rw [ProgramAction.deliver.inj heq]
        · intro heq
          rw [signal.number_injective other heq]
          exact Or.inr rfl
      · exact hphase.mono hashV1 plan acts _ p.signal signal.number p.phase hmem
          (Or.inr ⟨signal.number_ne, hrunning⟩)
  | raised plan' s hp hsignal _ =>
      refine ⟨hsame fun signal => ?_, hknown, ?_⟩
      · simp only [ne_eq, reduceCtorEq, not_false_eq_true]
      · rw [hp] at hkept
        cases hkept with
        | startup _ hok _ => exact .startup _ (hok.raise _ _ _ _ _) fun _ => hsignal
  | started e plan' s s' hp hstep =>
      refine ⟨hsame fun signal => ?_, hknown, ?_⟩
      · simp only [ne_eq, reduceCtorEq, not_false_eq_true]
      · rw [hp] at hkept
        cases hkept with
        | startup _ hok hflag =>
            refine .startup s' (startupStep_ok _ plan.network plan.connection
              plan.config.payoutAddress s s' e ?_ hok hstep) fun hraised => hflag ?_
            · exact List.mem_append_right acts (List.mem_singleton_self _)
            · rw [← startupStep_cancelled plan.network plan.connection plan.config.payoutAddress
                s s' e hstep]
              exact hraised
  | mined _ b plan' setup s s' hp hab hstep =>
      refine ⟨hsame fun signal => ?_, hknown, ?_⟩
      · rcases hab with ⟨ha, _⟩ | ⟨ha, _⟩
        · simp only [ha, ne_eq, reduceCtorEq, not_false_eq_true]
        · simp only [ha, ne_eq, reduceCtorEq, not_false_eq_true]
      · rw [hp] at hkept
        cases hkept with
        | mining _ _ hok hflag =>
            refine .mining setup s' (hok.step hashV1 plan _ setup s s' b hstep) fun hraised => ?_
            rcases sessionStep_raised setup s s' b hstep hraised with hbefore | hb
            · exact hflag hbefore
            · rcases hab with ⟨_, hother⟩ | ⟨_, _, hsignal⟩
              · exact absurd hb hother
              · exact hsignal
  | continued phase hnext =>
      refine ⟨hsame fun signal => ?_, hknown, nextPhase_ok hashV1 plan _ p.signal p.phase phase
        hkept hnext⟩
      simp only [ne_eq, reduceCtorEq, not_false_eq_true]

/-- The invariant holds in every run of a program that has a plan. -/
theorem program_ok (host : Host) (arguments : List Text) (acts : List ProgramAction) (p : Program)
    (hplan : planProgram host arguments = .ok plan)
    (h : run (programStep hashV1) (programStart host arguments) acts = some p) :
    ProgramOk hashV1 plan acts p := by
  refine run_trace_invariant (programStep hashV1) (ProgramOk hashV1 plan)
    (programStart host arguments) ?_
    (fun tr t a t' _ ht hstep => programStep_ok hashV1 plan tr t t' a ht hstep) acts p h
  rw [programStart, hplan]
  refine ⟨fun signal => iff_of_false List.not_mem_nil signal.number_ne.symm,
    fun hne => absurd rfl hne, .startup _ trivial fun hraised => absurd hraised ?_⟩
  exact Bool.false_ne_true

/-- Nothing follows an exit. -/
theorem exited_stuck (p : Program) (code : Int) (summary : Option RuntimeStats)
    (hexit : p.phase = .exited code summary) : Stuck (programStep hashV1) p := by
  intro a
  cases h : programStep hashV1 p a with
  | none => rfl
  | some p' =>
      cases programStep_effect hashV1 p p' a h with
      | delivered _ _ hrunning => exact absurd hexit (hrunning code summary)
      | raised _ _ hp | started _ _ _ _ hp _ | mined _ _ _ _ _ _ hp _ _ =>
          exact absurd (hp.symm.trans hexit) (by simp only [reduceCtorEq, not_false_eq_true])
      | continued phase hnext =>
          rw [hexit] at hnext
          exact absurd hnext (by simp only [nextPhase, reduceCtorEq, not_false_eq_true])

/-- The block a program is submitting. -/
def Program.submits (p : Program) : Option (Iteration × SubmitArguments × Text) :=
  match p.phase with
  | .mining _ _ s => s.submits
  | _ => none

/-- A program without a plan exits at once. -/
theorem run_refused (host : Host) (arguments : List Text) (acts : List ProgramAction) (p : Program)
    (code : Int) (hplan : planProgram host arguments = .error code)
    (hrun : run (programStep hashV1) (programStart host arguments) acts = some p) :
    acts = [] ∧ p.phase = .exited code none := by
  rw [programStart, hplan] at hrun
  cases acts with
  | nil =>
      rw [run_nil, Option.some.injEq] at hrun
      rw [← hrun]
      exact ⟨rfl, rfl⟩
  | cons a acts =>
      rcases run_cons_some _ _ p a acts hrun with ⟨t, hstep, _⟩
      exact absurd ((exited_stuck hashV1 _ code none rfl a).symm.trans hstep)
        (by simp only [reduceCtorEq, not_false_eq_true])

/-- A host without files, and the arguments for one worker on the regression
    test network. -/
def bareHost : Host :=
  ⟨none, fun _ => .missing, 1⟩

def regtestArguments : List Text :=
  [text "regtest", text "http://127.0.0.1:27773", text ".cookie", text "address", text "1",
    text "0"]

theorem regtestArguments_plan : ∃ plan, planProgram bareHost regtestArguments = .ok plan := by
  have hisOk : (planProgram bareHost regtestArguments).isOk = true := by decide +kernel
  cases hplan : planProgram bareHost regtestArguments with
  | error code =>
      rw [hplan] at hisOk
      exact absurd hisOk Bool.false_ne_true
  | ok plan => exact ⟨plan, rfl⟩

/-- What a program that is about to mine will mine with: the network, the
    workers, the limit and the script, and the shutdown flag. -/
def Program.ready (p : Program) : Option (NetworkIdentity × UInt64 × UInt64 × Bytes × Flag) :=
  match p.phase with
  | .startup plan s => match s.pc with
    | .returned state => some (plan.network.toNetworkIdentity, plan.config.threadCount,
        plan.config.blockLimit, state.payoutScript, s.cancelled)
    | _ => none
  | _ => none

/-- The code and the summary of an exit. -/
def Program.exit (p : Program) : Option (Int × Option RuntimeStats) :=
  match p.phase with
  | .exited code summary => some (code, summary)
  | _ => none

end

end MercaMiner
