import MercaMiner.Theory.MineAccounting
import MercaMiner.Theory.SessionClosing
import MercaMiner.Theory.SessionSafety

/-!
# The Hashes of a Session

How many nonces a session has hashed, and how many it still hashes after it
was asked to stop.

The workers of all calls share one counter, which other threads read at any
moment. It is raised by one with every nonce, so it has the number of all
nonces hashed so far, up to the width of the counter. Within a call no nonce
is hashed twice.

A worker reads the shutdown flag before every nonce. So once the flag is up,
only a worker that is past this reading hashes its nonce, and no other.

## Main definitions

* `Session.liveHashes`: The shared counter.
* `Session.hashCount`: The nonces hashed so far.
* `Session.pending`: The workers that are past their reading.

## Theorems

* `FirstTurn.raised_hash`: A nonce that is hashed under a raised flag.
* `session_counts`: What the counter holds.
* `workerStep_pending`, `sessionStep_pending`: The steps under a raised flag.
* `session_hashes_stop`: At most one more nonce for each worker.
-/

namespace MercaMiner

open Transition

namespace Session

/-- The counter the workers share. During a call it is in the call's hands. -/
def liveHashes (s : Session) : UInt64 :=
  match s.mine with
  | some (_, m) => m.shared.liveHashes.getD s.completedHashes
  | none => s.completedHashes

/-- The nonces hashed in the calls so far. -/
def hashCount (s : Session) : Nat :=
  match s.mine with
  | some (_, m) => s.hashed + m.hashCount
  | none => s.hashed

end Session

/-- A worker that is past its reading of the flags. -/
def WorkerPc.pending : WorkerPc → Nat
  | .scanning .hash _ _ => 1
  | _ => 0

def MineState.pending (m : MineState) : Nat :=
  (m.workers.map fun w => w.pc.pending).sum

/-- The workers that are past their reading of the flags. -/
def Session.pending (s : Session) : Nat :=
  match s.mine with
  | some (_, m) => m.pending
  | none => 0

/-- A first turn whose worker has read the flags when the shutdown flag is
    raised. -/
def regtestClosing : List SessionAction :=
  [.loop .advance, .fetchReply (.value regtestChainReply), .fetchReply (.value regtestReply),
    .loop (.fetched ⟨0, regtestTemplate.previousBlockHash, regtestTemplate⟩), .loop .advance,
    .loop (.nextCandidate false), .callMine]
  ++ List.replicate 4 (.worker 0) ++ [.raiseShutdown]

/-- A worker that has read the flags before the shutdown flag is raised still
    hashes its nonce. -/
theorem FirstTurn.raised_hash (t : FirstTurn) :
    ∃ s u, run (sessionStep t.setup) (sessionStart t.blockLimit t.payoutScript)
        (t.opening ++ [.raiseShutdown]) = some s ∧
      s.loop.shutdown = true ∧ run (sessionStep t.setup) s [.worker 0] = some u ∧
      u.hashCount = 1 := by
  let ready := t.mining (some (t.call, scanning t.hashing))
  have hraise : run (sessionStep t.setup) ready [.raiseShutdown] =
      some { ready with loop := { ready.loop with shutdown := true } } := rfl
  refine ⟨_, _, (run_append _ _ _ _ _ t.opening_run).trans hraise, rfl, rfl, ?_⟩
  exact congrArg (fun hashed => 0 + (hashed.length + 0))
    (hashNonce_hashed t.call t.range ⟨t.hashing, []⟩ 0 _ _)

theorem regtestClosing_run :
    ∃ s t, run (sessionStep regtestSetup) (sessionStart 0 [0x51]) regtestClosing = some s ∧
      s.loop.shutdown = true ∧ run (sessionStep regtestSetup) s [.worker 0] = some t ∧
      t.hashCount = 1 := by
  rcases firstSolves_built [0x51] regtestTurn_solves with ⟨candidate, hbuilt, _⟩
  exact (regtestFirst regtestSetup [0x51] candidate rfl rfl (List.cons_ne_nil _ _)
    hbuilt).raised_hash

/-- The shared counter has the number of all nonces hashed so far, and a
    running call hashes distinct nonces of its template. -/
theorem session_counts (setup : SessionSetup) (blockLimit : UInt64) (payoutScript : Bytes)
    (acts : List SessionAction) (s : Session)
    (hrun : run (sessionStep setup) (sessionStart blockLimit payoutScript) acts = some s) :
    s.liveHashes = UInt64.ofNat s.hashCount ∧
    ∀ c m, s.mine = some (c, m) → ∃ it candidate, s.loop.pc = .inner it (.mining candidate) ∧
      c.candidate = candidate.candidate ∧ m.hashed.Nodup ∧
      ∀ nonce ∈ m.hashed, it.work.blockTemplate.nonceMin ≤ nonce ∧
        nonce ≤ it.work.blockTemplate.nonceMax := by
  have hwork := session_workOk setup blockLimit payoutScript acts s hrun
  refine ⟨?_, fun c m hmine => ?_⟩
  · unfold Session.liveHashes Session.hashCount
    cases hmine : s.mine with
    | none => exact hwork.counted
    | some call =>
        rcases hwork.call setup s call.1 call.2 hmine with ⟨_, _, _, _, _, _, hruns⟩
        simp only [hruns.ok.live, Option.map_some, Option.getD_some]
        rw [hwork.counted, UInt64.ofNat_add]
  · rcases hwork.call setup s c m hmine with ⟨it, candidate, args, hpc, _, _, hruns⟩
    have hok : MineOk c args.liveHashes True m := by
      rw [hruns.liveHashes]
      exact hruns.ok
    refine ⟨it, candidate, hpc, hruns.entered.candidate_eq, hashed_nodup _ _ _ args c _ m
      hruns.entered hok, ?_⟩
    rw [← hruns.nonceBegin, ← hruns.nonceEnd]
    exact hashed_inRange _ _ _ args c _ m hruns.entered hok

theorem session_counts_regtest :
    ∃ s, run (sessionStep regtestSetup) (sessionStart 0 [0x51]) regtestClosing = some s ∧
      s.liveHashes = UInt64.ofNat s.hashCount := by
  rcases regtestClosing_run with ⟨s, _, hrun, _⟩
  exact ⟨s, hrun, (session_counts regtestSetup 0 [0x51] regtestClosing s hrun).1⟩

/-- Only the check of a nonce has as much left. -/
theorem WorkerPc.pending_of_lt (pc : WorkerPc) (h : pc.closing < 6) : pc.pending = 0 := by
  cases pc with
  | scanning point _ _ =>
      cases point with
      | hash => exact absurd h (Nat.lt_irrefl 6)
      | readCancelled | readCancelledSecondary | readCancelledTertiary => rfl
  | _ => rfl

theorem readFlag_hashed (w : Worker) (range : NonceRange) (workerHashes : UInt64)
    (frame : ScanFrame) (seen : Bool) (next : ScanPoint) (shared : Shared) :
    (w.readFlag range workerHashes frame seen next shared).1.hashed = w.hashed := by
  unfold Worker.readFlag
  cases seen with
  | true | false => rfl

/-- Under a raised flag a worker hashes the nonce it is at, if any. -/
theorem workerStep_pending (c : MineContext) (range : NonceRange) (shared shared' : Shared)
    (w w' : Worker) (hflag : raised shared.cancelledSecondary = true)
    (h : workerStep c range shared w = some (w', shared')) :
    w'.hashed.length + w'.pc.pending = w.hashed.length + w.pc.pending := by
  have hless := workerStep_closing c range shared shared' w w' hflag h
  have hle := w.pc.closing_le
  rw [w'.pc.pending_of_lt (by omega)]
  revert h
  fun_cases workerStep c range shared w with
  | case6 workerHashes frame hpc =>
      intro heq
      have hlength := congrArg List.length (hashNonce_hashed c range w workerHashes frame shared)
      rw [Option.some.inj heq, List.length_append, List.length_singleton] at hlength
      rw [hlength, hpc]
      rfl
  | case10 | case11 =>
      intro h
      exact absurd h (by simp only [reduceCtorEq, not_false_eq_true])
  | case3 workerHashes frame hpc | case4 workerHashes frame hpc | case5 workerHashes frame hpc =>
      intro heq
      have hsame := congrArg (fun p => p.1.hashed) (Option.some.inj heq)
      simp only [readFlag_hashed] at hsame
      rw [← hsame, hpc]
      rfl
  | case1 _ _ hpc | case2 _ _ hpc | case7 _ hpc | case8 _ _ hpc | case9 _ _ hpc =>
      intro heq
      cases heq
      rw [hpc]
      rfl

/-- The threads of a call. -/
theorem mineStep_pending (c : MineContext) (m m' : MineState) (b : MineAction)
    (hb : (∃ i, b = .worker i) ∨ b = .main)
    (hflag : raised m.shared.cancelledSecondary = true) (h : mineStep c m b = some m') :
    m'.hashCount + m'.pending = m.hashCount + m.pending := by
  rcases hb with ⟨i, rfl⟩ | rfl
  · simp only [mineStep, Option.bind_eq_bind, Option.bind_eq_some_iff, Option.pure_def,
      Option.some.injEq] at h
    rcases h with ⟨range, _, w, hw, ⟨w', shared⟩, hstep, rfl⟩
    have hworker := workerStep_pending c range m.shared shared w w' hflag hstep
    have hhashed := sum_map_set (fun w => w.hashed.length) m.workers i w w' hw
    have hpending := sum_map_set (fun w => w.pc.pending) m.workers i w w' hw
    simp only [MineState.hashCount, MineState.pending]
    omega
  · rw [MineState.hashCount, MineState.hashCount, MineState.pending, MineState.pending,
      (mainStep_effect c m m' h).1]

theorem CallRuns.pending_le (setup : SessionSetup) (t : BlockTemplate)
    (candidate : BlockCandidate) (live : UInt64) (args : MineArguments) (c : MineContext)
    (m : MineState) (h : CallRuns setup t candidate live args c m) :
    m.pending ≤ setup.workerCount.toNat := by
  have hsum : m.pending ≤ m.workers.length • 1 := by
    refine (List.sum_le_card_nsmul _ 1 fun n hn => ?_).trans (by rw [List.length_map])
    rcases List.mem_map.mp hn with ⟨w, _, rfl⟩
    cases w.pc with
    | scanning point _ _ =>
        cases point with
        | hash => exact Nat.le_refl 1
        | readCancelled | readCancelledSecondary | readCancelledTertiary => exact Nat.zero_le 1
    | _ => exact Nat.zero_le 1
  have hlength := h.ok.length
  have hthreads := h.threads
  rw [smul_eq_mul] at hsum
  omega

/-- A call begins with nothing hashed, and every worker with a reading. -/
theorem mineStart_idle (hashV1 : Bytes → UInt256) (candidate : BlockCandidate)
    (target : UInt256) (args : MineArguments) (c : MineContext) (m : MineState)
    (h : mineStart hashV1 candidate target args = .ok (c, m)) :
    m.hashCount = 0 ∧ m.pending = 0 := by
  simp only [mineStart, Outcome.bind_ok, Outcome.pure_ok, Prod.mk.injEq] at h
  rcases h with ⟨_, _, ranges, _, rfl, rfl⟩
  have hzero (f : Worker → Nat) (hf : ∀ range : NonceRange,
      f ⟨.refreshBefore range.rangeBegin 0, []⟩ = 0) :
      ((ranges.map fun range => (⟨.refreshBefore range.rangeBegin 0, []⟩ : Worker)).map f).sum
        = 0 := by
    refine List.sum_eq_zero fun n hn => ?_
    rw [List.map_map] at hn
    rcases List.mem_map.mp hn with ⟨range, _, rfl⟩
    exact hf range
  exact ⟨hzero _ fun _ => rfl, hzero _ fun _ => rfl⟩

/-- Under a raised flag the nonces hashed and those about to be are a constant,
    but for workers whose call has ended. -/
theorem sessionStep_pending (setup : SessionSetup) (s s' : Session) (a : SessionAction)
    (hshutdown : s.loop.shutdown = true) (h : sessionStep setup s a = some s') :
    s'.hashCount + s'.pending ≤ s.hashCount + s.pending := by
  cases sessionStep_effect setup s s' a h with
  | raised _ | watched _ _ _ _ _ | fetched _ _ _ _ | joined _ _ _ _ _ | destroyed _ _ _ _ =>
      exact Nat.le_refl _
  | refused it m w e loop _ _ _ _ _ => exact Nat.le_refl _
  | worked _ b c m m' w hab hmine hw hstep =>
      have hthread : (∃ i, b = .worker i) ∨ b = .main := by
        rcases hab with ⟨i, _, hb⟩ | ⟨_, hb⟩
        · exact Or.inl ⟨i, hb⟩
        · exact Or.inr hb
      have hsame := mineStep_pending c _ m' b hthread (by rw [hshutdown]; rfl) hstep
      rw [show (m.withFlags w.watcher s.loop.shutdown).hashCount = m.hashCount from rfl,
        show (m.withFlags w.watcher s.loop.shutdown).pending = m.pending from rfl] at hsame
      simp only [Session.hashCount, Session.pending, hmine]
      omega
  | called it m w entered hpc hmine hw hentered =>
      rcases mineStart_idle _ _ _ _ entered.1 entered.2 hentered with ⟨hnone, hidle⟩
      simp only [Session.hashCount, Session.pending, hmine, hnone, hidle]
      omega
  | looped e t loop hoffer hloop =>
      have hkept : (t.afterLoop e loop).mine = t.mine ∧ (t.afterLoop e loop).hashed = t.hashed := by
        rcases afterLoop_cases t e loop with hsame | ⟨_, _, _, _, _, hstart⟩
        · rw [hsame]
          exact ⟨rfl, rfl⟩
        · rw [hstart]
          exact ⟨rfl, rfl⟩
      simp only [Session.hashCount, Session.pending, hkept.1, hkept.2]
      by_cases hmined : ∃ status candidate, e = .mined status candidate
      · rcases hmined with ⟨status, candidate, rfl⟩
        rcases offer_mined s t status candidate hoffer with ⟨c, m, _, hmine, _, _, rfl⟩
        simp only [hmine, MineState.hashCount]
        omega
      · rcases (offer_frame s t e hoffer).2.2 fun status candidate he =>
          hmined ⟨status, candidate, he⟩ with ⟨hmine, _, hhashed⟩
        rw [hmine, hhashed]

/-- After the flag was raised each worker hashes at most one more nonce. -/
theorem session_hashes_stop (setup : SessionSetup) (blockLimit : UInt64) (payoutScript : Bytes)
    (before acts : List SessionAction) (s t : Session)
    (hrun : run (sessionStep setup) (sessionStart blockLimit payoutScript) before = some s)
    (hshutdown : s.loop.shutdown = true) (hacts : run (sessionStep setup) s acts = some t) :
    t.hashCount ≤ s.hashCount + setup.workerCount.toNat := by
  have hwork := session_workOk setup blockLimit payoutScript before s hrun
  have hstep (u : Session) (a : SessionAction) (u' : Session)
      (hu : Shape u.loop ∧ u.loop.shutdown = true ∧
        u.hashCount + u.pending ≤ s.hashCount + s.pending)
      (hstep : sessionStep setup u a = some u') :
      Shape u'.loop ∧ u'.loop.shutdown = true ∧
        u'.hashCount + u'.pending ≤ s.hashCount + s.pending := by
    rcases hu with ⟨hshape, hflag, hle⟩
    rcases sessionStep_shutdown setup u u' a hshape hstep with ⟨hshape', hkept⟩
    exact ⟨hshape', hkept hflag,
      Nat.le_trans (sessionStep_pending setup u u' a hflag hstep) hle⟩
  have hkept := (run_invariant (sessionStep setup)
    (fun u => Shape u.loop ∧ u.loop.shutdown = true ∧
      u.hashCount + u.pending ≤ s.hashCount + s.pending) hstep
    s ⟨session_shape setup blockLimit payoutScript before s hrun, hshutdown, Nat.le_refl _⟩
    acts t hacts).2.2
  have hpending : s.pending ≤ setup.workerCount.toNat := by
    unfold Session.pending
    cases hmine : s.mine with
    | none => exact Nat.zero_le _
    | some call =>
        rcases hwork.call setup s call.1 call.2 hmine with ⟨_, _, args, _, _, _, hruns⟩
        exact hruns.pending_le setup _ _ _ args call.1 call.2
  omega

theorem session_hashes_stop_regtest :
    ∃ s t, run (sessionStep regtestSetup) (sessionStart 0 [0x51]) regtestClosing = some s ∧
      run (sessionStep regtestSetup) s [.worker 0] = some t ∧ t.hashCount = 1 ∧
      t.hashCount ≤ s.hashCount + 1 := by
  rcases regtestClosing_run with ⟨s, t, hrun, hshutdown, hstep, hcount⟩
  exact ⟨s, t, hrun, hstep, hcount, session_hashes_stop regtestSetup 0 [0x51] regtestClosing
    [.worker 0] s t hrun hshutdown hstep⟩

end MercaMiner
