import MercaMiner.Theory.MineProgress
import MercaMiner.Theory.SessionWatcher
import MercaMiner.Theory.SessionWork

/-!
# What a Session Has Left to Do

Once the shutdown flag is up, every step of a session uses up some of what is
left, whichever thread takes it.

The measure is a sum over the components. The loop's part bounds the events it
still has before its end. Two of these events give work to another component:
a fetch that returned starts a watcher, and the request to stop sends the owner
to a join, so the loop's part falls by more than one there. A worker has at
most six steps: it finishes the nonce it is hashing and then reads the flag.

## Main definitions

* `LoopPc.closing`, `WatcherPc.closing`, `WorkerPc.closing`: What a component
  has left.
* `LoopEvent.price`: What an event of the loop costs.
* `Session.closing`: What a session has left.

## Theorems

* `workerStep_closing`, `threadStep_closes`: The components' steps.
* `sessionStep_closing`: Every step of a session lowers the measure.
* `Session.closing_le`: The measure is small.
-/

namespace MercaMiner

open Transition

/-- Of the points of a scan only the check of a nonce precedes a reading of the
    flag. -/
def ScanPoint.closing : ScanPoint → Nat
  | .readCancelled => 3
  | .readCancelledSecondary => 2
  | .readCancelledTertiary => 1
  | .hash => 6

def WorkerPc.closing : WorkerPc → Nat
  | .refreshBefore _ _ => 4
  | .scanning point _ _ => point.closing
  | .storeStop _ => 1
  | .refreshAfter _ _ => 5
  | .done _ | .threw => 0

/-- What a running call of `Mine` has left. -/
def MineState.closing (m : MineState) : Nat :=
  (m.workers.map fun w => w.pc.closing).sum + m.main.remaining

def WatcherPc.closing : WatcherPc → Nat
  | .calling => 6
  | .storeTipChanged _ => 5
  | .storeHardCancel _ => 4
  | .loadCancelRequested | .handleCancelled => 3
  | .storeStatus _ => 2
  | .storeRefreshRequested => 1
  | .returned => 0

/-- The owner's steps up to the end of the destructor. -/
def OwnerPc.closing : OwnerPc → Nat
  | .idle => 2
  | .joining destroying => if destroying then 1 else 4
  | .loadStatus => 3
  | .destroyed => 0

def OwnedWatcher.closing (w : OwnedWatcher) : Nat :=
  w.owner.closing + w.watcher.pc.closing

def FetchPc.closing : FetchPc → Nat
  | .callInfo => 2
  | .callTemplate _ => 1
  | .returned _ | .threw _ => 0

def SubmitPc.closing : SubmitPc → Nat
  | .returned _ | .threw _ => 5
  | .checkCancelled | .handleCancelled => 6
  | .sleeping _ => 7
  | .reloadCookie => 8
  | .callBest _ => 9
  | .callCount => 10
  | .callSubmit => 11

def FoundPc.closing : FoundPc → Nat
  | .decided .stop => 4
  | .decided .discard => 5
  | .decided .submit => 7
  | .loadInvalidated => 8
  | .loadRefresh _ => 9
  | .loadShutdown _ => 10
  | .joining => 11
  | .finishing => 14

def InnerPc.closing : InnerPc → Nat
  | .test => 4
  | .loadInvalidated => 5
  | .report _ => 6
  | .loadShutdown _ => 4
  | .joining _ => 7
  | .finishing _ => 10
  | .loadRefresh => 11
  | .mining _ => 15
  | .nextCandidate => 16
  | .found _ pc => pc.closing
  | .submitting _ frame => frame.pc.closing

def LoopPc.closing : LoopPc → Nat
  | .exited _ | .uncaught _ => 0
  | .leaving => 1
  | .whileTest | .catching _ => 2
  | .sleeping _ => 3
  | .reloadCookie => 4
  | .afterInner _ => 3
  | .finishExhausted => 4
  | .joinExhausted => 1
  | .fetching => 13
  | .inner _ pc => pc.closing

/-- The positions before a call of `Mine`. -/
def LoopPc.awaitsMine : LoopPc → Bool
  | .inner _ .nextCandidate | .inner _ (.mining _) => true
  | _ => false

namespace Session

/-- What is left of the call of `Mine`, or will be once it is made. -/
def mineClosing (s : Session) (workers : Nat) : Nat :=
  match s.mine with
  | some (_, m) => m.closing
  | none => if s.loop.pc.awaitsMine then 4 * workers + 4 else 0

def fetchClosing (s : Session) : Nat :=
  match s.loop.pc with
  | .fetching => s.fetch.closing
  | _ => 0

def watcherClosing (s : Session) : Nat :=
  match s.watcher with
  | some w => w.closing
  | none => 0

/-- What a session has left. -/
def closing (s : Session) (workers : Nat) : Nat :=
  s.loop.pc.closing + s.mineClosing workers + s.fetchClosing + s.watcherClosing

end Session

theorem leaveScan_closing (range : NonceRange) (workerHashes : UInt64) (chunkEnd : UInt32)
    (chunk : ScanResult) : (leaveScan range workerHashes chunkEnd chunk).closing ≤ 5 := by
  fun_cases leaveScan range workerHashes chunkEnd chunk with
  | case1 | case2 | case3 | case4 => simp only [WorkerPc.closing, Nat.zero_le, Nat.le_refl,
      Nat.one_le_ofNat]

theorem enterScan_closing (range : NonceRange) (chunkBegin : UInt32) (workerHashes : UInt64) :
    (enterScan range chunkBegin workerHashes).closing ≤ 3 := by
  fun_cases enterScan range chunkBegin workerHashes with
  | case1 | case2 => simp only [WorkerPc.closing, ScanPoint.closing, Nat.zero_le, Nat.le_refl]

theorem readFlag_closing (w : Worker) (range : NonceRange) (workerHashes : UInt64)
    (frame : ScanFrame) (seen : Bool) (next : ScanPoint) (shared : Shared) :
    (w.readFlag range workerHashes frame seen next shared).1.pc.closing ≤ next.closing := by
  unfold Worker.readFlag
  cases seen with
  | true => exact Nat.zero_le next.closing
  | false => exact Nat.le_refl next.closing

/-- A worker that reads a raised flag is done with its scan. -/
theorem readFlag_raised (w : Worker) (range : NonceRange) (workerHashes : UInt64)
    (frame : ScanFrame) (seen : Bool) (next : ScanPoint) (shared : Shared) (h : seen = true) :
    (w.readFlag range workerHashes frame seen next shared).1.pc.closing = 0 := by
  rw [h]
  rfl

/-- After the check of a nonce comes a reading of the flags. -/
theorem hashNonce_closing (w : Worker) (c : MineContext) (range : NonceRange)
    (workerHashes : UInt64) (frame : ScanFrame) (shared : Shared) :
    (w.hashNonce c range workerHashes frame shared).1.pc.closing ≤ 5 := by
  unfold Worker.hashNonce
  cases frame.conclude c.target (c.hashOf frame.nonce) with
  | inr chunk => exact leaveScan_closing range workerHashes frame.nonceEnd chunk
  | inl next => exact (show 3 ≤ 5 by omega)

/-- Under a raised flag every step of a worker uses up some of what is left. -/
theorem workerStep_closing (c : MineContext) (range : NonceRange) (shared shared' : Shared)
    (w w' : Worker) (hflag : raised shared.cancelledSecondary = true)
    (h : workerStep c range shared w = some (w', shared')) :
    w'.pc.closing < w.pc.closing := by
  revert h
  fun_cases workerStep c range shared w with
  | case1 chunkBegin workerHashes hpc =>
      intro heq
      cases heq
      rw [hpc]
      exact (show 0 < 4 by omega)
  | case2 chunkBegin workerHashes hpc =>
      intro heq
      cases heq
      rw [hpc]
      exact Nat.lt_succ_of_le (enterScan_closing range chunkBegin workerHashes)
  | case3 workerHashes frame hpc =>
      intro heq
      have hle := readFlag_closing w range workerHashes frame shared.stop .readCancelledSecondary
        shared
      rw [Option.some.inj heq] at hle
      rw [hpc]
      exact Nat.lt_succ_of_le hle
  | case4 workerHashes frame hpc =>
      intro heq
      have hle := readFlag_closing w range workerHashes frame (raised shared.cancelled)
        .readCancelledTertiary shared
      rw [Option.some.inj heq] at hle
      rw [hpc]
      exact Nat.lt_succ_of_le hle
  | case5 workerHashes frame hpc =>
      -- This is the reading that sees the flag.
      intro heq
      have hzero := readFlag_raised w range workerHashes frame _ .hash shared hflag
      rw [Option.some.inj heq] at hzero
      rw [hpc, hzero]
      exact Nat.zero_lt_one
  | case6 workerHashes frame hpc =>
      intro heq
      have hle := hashNonce_closing w c range workerHashes frame shared
      rw [Option.some.inj heq] at hle
      rw [hpc]
      exact Nat.lt_succ_of_le hle
  | case7 result hpc =>
      intro heq
      cases heq
      rw [hpc]
      exact Nat.zero_lt_one
  | case8 chunkEnd workerHashes hpc =>
      intro heq
      cases heq
      rw [hpc]
      exact (show 0 < 5 by omega)
  | case9 chunkEnd workerHashes hpc =>
      intro heq
      cases heq
      rw [hpc]
      exact (show 4 < 5 by omega)
  | case10 | case11 =>
      intro h
      exact absurd h (by simp only [reduceCtorEq, not_false_eq_true])

/-- The calling thread moves on, and leaves the workers alone. -/
theorem mainStep_effect (c : MineContext) (m m' : MineState) (h : mainStep c m = some m') :
    m'.workers = m.workers ∧ m'.main.remaining < m.main.remaining := by
  cases hresults : m.results with
  | none => exact absurd h (by simp only [mainStep, hresults, reduceCtorEq, not_false_eq_true])
  | some results =>
      simp only [mainStep, hresults] at h
      cases hpc : m.main with
      | joining =>
          simp only [hpc, Option.some.injEq] at h
          rw [← h]
          exact ⟨rfl, (show 2 < 3 by omega)⟩
      | readCancelled total =>
          simp only [hpc] at h
          by_cases hcancelled : raised m.shared.cancelled = true
          · rw [if_pos hcancelled, Option.some.injEq] at h
            rw [← h]
            exact ⟨rfl, (show 0 < 2 by omega)⟩
          · rw [if_neg hcancelled, Option.some.injEq] at h
            rw [← h]
            exact ⟨rfl, (show 1 < 2 by omega)⟩
      | readCancelledSecondary total =>
          simp only [hpc] at h
          by_cases hcancelled : raised m.shared.cancelledSecondary = true
          · rw [if_pos hcancelled, Option.some.injEq] at h
            rw [← h]
            exact ⟨rfl, (show 0 < 1 by omega)⟩
          · rw [if_neg hcancelled, Option.some.injEq] at h
            rw [← h]
            exact ⟨rfl, by rw [concludeMine_remaining]; exact Nat.zero_lt_one⟩
      | returned _ _ =>
          exact absurd h (by simp only [hpc, reduceCtorEq, not_false_eq_true])

/-- A step of a thread of `Mine` under a raised flag. -/
theorem mineStep_closing (c : MineContext) (m m' : MineState) (b : MineAction)
    (hb : (∃ i, b = .worker i) ∨ b = .main)
    (hflag : raised m.shared.cancelledSecondary = true) (h : mineStep c m b = some m') :
    m'.closing < m.closing := by
  rcases hb with ⟨i, rfl⟩ | rfl
  · simp only [mineStep, Option.bind_eq_bind, Option.bind_eq_some_iff, Option.pure_def,
      Option.some.injEq] at h
    rcases h with ⟨range, _, w, hw, ⟨w', shared⟩, hstep, rfl⟩
    have hless := workerStep_closing c range m.shared shared w w' hflag hstep
    have hsum := sum_map_set (fun w => w.pc.closing) m.workers i w w' hw
    simp only [MineState.closing]
    omega
  · rcases mainStep_effect c m m' h with ⟨hworkers, hless⟩
    simp only [MineState.closing, hworkers]
    omega

/-- The thread of a watcher. -/
theorem runStep_closing (w w' : Watcher) (call : LongpollCall) (h : runStep w call = some w') :
    w'.pc.closing < w.pc.closing := by
  revert h
  fun_cases runStep w call with
  | case11 _ status hpc =>
      intro heq
      cases heq
      rw [hpc]
      by_cases hcancelled : status = .cancelled
      · rw [if_pos hcancelled]
        exact (show 0 < 2 by omega)
      · rw [if_neg hcancelled]
        exact (show 1 < 2 by omega)
  | case13 =>
      intro h
      exact absurd h (by simp only [reduceCtorEq, not_false_eq_true])
  | case1 hpc | case2 hpc | case3 hpc | case4 hpc | case5 _ _ hpc | case6 _ _ hpc | case7 _ hpc
  | case8 _ hpc | case9 _ hpc | case10 _ hpc | case12 _ hpc =>
      intro heq
      cases heq
      simp only [hpc, WatcherPc.closing, Watcher.fail]
      omega

theorem fetchStep_closing (network : NetworkIdentity) (pc pc' : FetchPc) (r : RpcReply)
    (h : fetchStep network pc r = some pc') : pc'.closing < pc.closing := by
  revert h
  fun_cases fetchStep network pc r with
  | case1 | case2 | case3 | case4 =>
      intro heq
      cases heq
      simp only [FetchPc.closing]
      omega
  | case5 =>
      intro h
      exact absurd h (by simp only [reduceCtorEq, not_false_eq_true])

/-- A step of the submission under a raised flag. -/
theorem submitStep_closing (args : SubmitArguments) (f f' : SubmitFrame) (e : SubmitEvent)
    (h : submitStep args (some true) f e = some f') : f'.pc.closing < f.pc.closing := by
  -- No reply leads further than the handler of an exception.
  have hcaught (r : RpcReply) (next : Json → SubmitFrame) (n : Nat) (hn : 8 < n)
      (hnext : ∀ result, (next result).pc.closing < n) : (f.caught r next).pc.closing < n := by
    cases r with
    | value result => exact hnext result
    | rpcCancelled => exact (show 6 < n by omega)
    | rpcException _ => exact (show 8 < n by omega)
    | otherException _ => exact (show 5 < n by omega)
  revert h
  fun_cases submitStep args (some true) f e with
  | case2 _ hflag | case7 _ hflag => exact absurd rfl hflag
  | case3 r hpc =>
      intro heq
      cases heq
      rw [hpc]
      refine hcaught r f.submitted 11 (by omega) fun result => ?_
      fun_cases SubmitFrame.submitted f result with
      | case1 | case2 | case3 => simp only [SubmitFrame.goto, SubmitPc.closing]; omega
  | case4 r hpc =>
      intro heq
      cases heq
      rw [hpc]
      refine hcaught r f.counted 10 (by omega) fun result => ?_
      fun_cases SubmitFrame.counted f result with
      | case1 | case2 => simp only [SubmitFrame.goto, SubmitPc.closing]; omega
  | case5 height r hpc =>
      intro heq
      cases heq
      rw [hpc]
      refine hcaught r (f.confirmed args height) 9 (by omega) fun result => ?_
      fun_cases SubmitFrame.confirmed f args height result with
      | case1 | case2 | case3 => simp only [SubmitFrame.goto, SubmitPc.closing]; omega
  | case1 hpc | case6 hpc | case8 hpc | case9 hpc | case10 _ hpc =>
      intro heq
      cases heq
      simp only [hpc, SubmitFrame.goto, SubmitPc.closing]
      omega
  | case11 remaining _ _ left hslice =>
      exact absurd hslice (by simp only [sleepSlice, raised, beq_self_eq_true, if_true,
        reduceCtorEq, not_false_eq_true])
  | case12 =>
      intro h
      exact absurd h (by simp only [reduceCtorEq, not_false_eq_true])

/-- What an event of the loop costs. The watcher that is started by a fetch has
    eight steps, and a join and its return follow the request to stop. -/
def LoopEvent.price : LoopEvent → Nat
  | .fetched _ => 9
  | .requestCancel => 3
  | _ => 1

/-- A step of the loop that closes. It begins no fetch and no call of `Mine`. -/
structure Closes (pc : LoopPc) (e : LoopEvent) (pc' : LoopPc) : Prop where
  paid : pc'.closing + e.price ≤ pc.closing
  fetching : pc' ≠ .fetching
  awaits : pc'.awaitsMine = true → pc.awaitsMine = true ∧ ∀ st c, e ≠ .mined st c

/-- A step to a position that waits for nothing. -/
theorem Closes.of_le (pc pc' : LoopPc) (e : LoopEvent) (hpaid : pc'.closing + e.price ≤ pc.closing)
    (hfetching : pc' ≠ .fetching) (hawaits : pc'.awaitsMine = false) : Closes pc e pc' :=
  ⟨hpaid, hfetching, fun h => absurd (hawaits.symm.trans h) Bool.false_ne_true⟩

theorem throw_closes (s : LoopState) (e : LoopEvent) (exn : LoopException) (pc : LoopPc)
    (h : 2 + e.price ≤ pc.closing) : Closes pc e (s.throw exn).pc := by
  cases exn with
  | rpcCancelled | rpc _ =>
      exact .of_le pc _ e h (by simp only [LoopState.throw, LoopState.goto, ne_eq, reduceCtorEq,
        not_false_eq_true]) rfl
  | other what =>
      exact .of_le pc _ e (Nat.le_trans (Nat.add_le_add_right (Nat.zero_le 2) _) h)
        (by simp only [LoopState.throw, LoopState.goto, ne_eq, reduceCtorEq, not_false_eq_true]) rfl

theorem foundStep_closing (shutdown : Bool) (stats stats' : RuntimeStats) (pc pc' : FoundPc)
    (e : LoopEvent) (h : foundStep shutdown stats pc e = some (stats', pc')) :
    pc'.closing + e.price ≤ pc.closing := by
  revert h
  fun_cases foundStep shutdown stats pc e with
  | case10 =>
      intro h
      exact absurd h (by simp only [reduceCtorEq, not_false_eq_true])
  | _ =>
      intro heq
      cases heq
      simp only [FoundPc.closing, LoopEvent.price]
      omega

/-- A step in the loop over a template's candidates. -/
theorem innerStep_closes (s s' : LoopState) (it : Iteration) (pc : InnerPc) (e : LoopEvent)
    (hshutdown : s.shutdown = true) (h : innerStep s it pc e = some s') :
    Closes (.inner it pc) e s'.pc := by
  have hinner (it' : Iteration) (pc' : InnerPc) (hpaid : pc'.closing + e.price ≤ pc.closing)
      (hawaits : LoopPc.awaitsMine (.inner it' pc') = false) :
      Closes (.inner it pc) e (.inner it' pc') :=
    .of_le _ _ e hpaid (by simp only [ne_eq, reduceCtorEq, not_false_eq_true]) hawaits
  have hafter (it' : Iteration) (hpaid : 3 + e.price ≤ pc.closing) :
      Closes (.inner it pc) e (.afterInner it') :=
    .of_le _ _ e hpaid (by simp only [ne_eq, reduceCtorEq, not_false_eq_true]) rfl
  revert h
  fun_cases innerStep s it pc e with
  | case1 hmore =>
      -- No candidate is built any more.
      exact absurd hmore (by simp only [hshutdown, Bool.not_true, Bool.and_false,
        Bool.false_eq_true, not_false_eq_true])
  | case2 =>
      intro heq
      cases heq
      exact hafter it (show 3 + 1 ≤ 4 by omega)
  | case3 outOfMemory =>
      intro heq
      cases heq
      cases hnext : it.job.nextCandidate outOfMemory with
      | mk result job =>
          cases result with
          | error err => exact throw_closes s _ (.other err.what) _ (show 2 + 1 ≤ 16 by omega)
          | ok candidate =>
              exact ⟨(show 15 + 1 ≤ 16 by omega), by simp only [LoopState.candidateBuilt,
                LoopState.goto, ne_eq, reduceCtorEq, not_false_eq_true], fun _ => ⟨rfl, by
                simp only [ne_eq, reduceCtorEq, not_false_eq_true, implies_true]⟩⟩
  | case4 _ status =>
      intro heq
      cases heq
      cases status with
      | found => exact hinner it _ (show 14 + 1 ≤ 15 by omega) rfl
      | exhausted => exact hinner it _ (show 11 + 1 ≤ 15 by omega) rfl
      | cancelled => exact hinner it _ (show 10 + 1 ≤ 15 by omega) rfl
  | case5 _ exn =>
      intro heq
      cases heq
      exact throw_closes s _ exn _ (show 2 + 1 ≤ 15 by omega)
  | case6 =>
      intro heq
      cases heq
      exact hinner it _ (show 10 + 1 ≤ 11 by omega) rfl
  | case7 =>
      intro heq
      cases heq
      exact hinner it _ (show 4 + 1 ≤ 11 by omega) rfl
  | case8 =>
      intro heq
      cases heq
      exact hinner it _ (show 7 + 3 ≤ 10 by omega) rfl
  | case9 site =>
      intro heq
      cases heq
      cases site with
      | cancelled => exact hinner it _ (show 4 + 1 ≤ 7 by omega) rfl
      | exhausted => exact hinner it _ (show 6 + 1 ≤ 7 by omega) rfl
  | case10 | case15 =>
      intro heq
      cases heq
      exact hafter _ (show 3 + 1 ≤ 4 by omega)
  | case11 _ hnot => exact absurd hshutdown hnot
  | case12 =>
      intro heq
      cases heq
      exact hinner _ _ (show 4 + 1 ≤ 6 by omega) rfl
  | case13 =>
      intro heq
      cases heq
      exact hinner it _ (show 5 + 1 ≤ 6 by omega) rfl
  | case14 | case16 =>
      intro heq
      cases heq
      exact hinner _ _ (show 4 + 1 ≤ 5 by omega) rfl
  | case17 =>
      intro heq
      cases heq
      exact hinner it _ (show 6 + 1 ≤ 7 by omega) rfl
  | case18 candidate pc =>
      intro hmap
      rcases Option.map_eq_some_iff.mp hmap with ⟨r, hfound, rfl⟩
      exact hinner it _ (foundStep_closing s.shutdown s.stats r.1 pc r.2 e hfound) rfl
  | case19 args frame e =>
      intro hmap
      rcases Option.map_eq_some_iff.mp hmap with ⟨frame', hsubmit, rfl⟩
      rw [hshutdown] at hsubmit
      exact hinner it (.submitting args frame') (submitStep_closing args frame frame' e hsubmit) rfl
  | case20 args rejection outcome =>
      intro heq
      cases heq
      cases outcome with
      | cancelled => exact hafter _ (show 3 + 1 ≤ 5 by omega)
      | accepted | rejected | notCurrentTip => exact hinner _ _ (show 4 + 1 ≤ 5 by omega) rfl
  | case22 args exn =>
      intro heq
      cases heq
      cases exn with
      | rpcCancelled => exact throw_closes s _ .rpcCancelled _ (show 2 + 1 ≤ 5 by omega)
      | runtimeError what => exact throw_closes s _ (.other what) _ (show 2 + 1 ≤ 5 by omega)
  | case21 | case23 =>
      intro h
      exact absurd h (by simp only [reduceCtorEq, not_false_eq_true])

theorem fetched_closes (s : LoopState) (work : CurrentWork) :
    Closes .fetching (.fetched work) (s.fetched work).pc := by
  fun_cases LoopState.fetched s work with
  | case1 => exact throw_closes s _ _ .fetching (show 2 + 9 ≤ 13 by omega)
  | case2 =>
      exact .of_le _ _ _ (show 4 + 9 ≤ 13 by omega)
        (by simp only [LoopState.goto, ne_eq, reduceCtorEq, not_false_eq_true]) rfl
  | case3 =>
      exact .of_le _ _ _ (show 2 + 9 ≤ 13 by omega)
        (by simp only [LoopState.goto, ne_eq, reduceCtorEq, not_false_eq_true]) rfl

/-- A step of the loop under a raised flag. -/
theorem threadStep_closes (s s' : LoopState) (e : LoopEvent) (hshutdown : s.shutdown = true)
    (h : threadStep s e = some s') : Closes s.pc e s'.pc := by
  have hgoto (pc' : LoopPc) (hpaid : pc'.closing + e.price ≤ s.pc.closing)
      (hfetching : pc' ≠ .fetching) (hawaits : pc'.awaitsMine = false) :
      Closes s.pc e (s.goto pc').pc := .of_le _ _ e hpaid hfetching hawaits
  revert h
  fun_cases threadStep s e with
  | case1 hpc hmore =>
      exact absurd hmore (by simp only [hshutdown, Bool.not_true, Bool.false_and,
        Bool.false_eq_true, not_false_eq_true])
  | case2 hpc | case7 _ hpc | case8 hpc | case10 hpc | case12 _ _ hpc | case14 hpc | case15 hpc
  | case16 _ hpc | case18 hpc =>
      intro heq
      cases heq
      refine hgoto _ ?_ (by simp only [ne_eq, reduceCtorEq, not_false_eq_true]) rfl
      simp only [hpc, LoopPc.closing, LoopEvent.price]
      omega
  | case3 work hpc =>
      intro heq
      cases heq
      rw [hpc]
      exact fetched_closes s work
  | case4 exn hpc =>
      intro heq
      cases heq
      exact throw_closes s _ exn _ (by rw [hpc]; exact (show 2 + 1 ≤ 13 by omega))
  | case5 it pc _ hpc =>
      intro h
      rw [hpc]
      exact innerStep_closes s s' it pc e hshutdown h
  | case6 it hpc hlast =>
      exact absurd hlast (by simp only [hshutdown, Bool.not_true, Bool.and_false,
        Bool.false_eq_true, not_false_eq_true])
  | case9 status hpc =>
      intro heq
      cases heq
      refine hgoto _ ?_ (by simp only [ne_eq, reduceCtorEq, not_false_eq_true]) rfl
      rw [hpc]
      exact (show 0 + 1 ≤ 1 by omega)
  | case11 hpc hnot | case13 _ _ hpc hnot | case19 hpc hnot => exact absurd hshutdown hnot
  | case17 remaining hpc _ left hslice =>
      exact absurd hslice (by simp only [sleepSlice, raised, hshutdown, beq_self_eq_true, if_true,
        reduceCtorEq, not_false_eq_true])
  | case20 =>
      intro h
      exact absurd h (by simp only [reduceCtorEq, not_false_eq_true])

/-- A call that is entered has four steps for each worker and three for the
    calling thread. -/
theorem mineStart_closing (hashV1 : Bytes → UInt256) (candidate : BlockCandidate)
    (target : UInt256) (args : MineArguments) (c : MineContext) (m : MineState)
    (h : mineStart hashV1 candidate target args = .ok (c, m)) :
    m.closing = 4 * c.ranges.length + 3 := by
  simp only [mineStart, Outcome.bind_ok, Outcome.pure_ok, Prod.mk.injEq] at h
  rcases h with ⟨_, _, ranges, _, rfl, rfl⟩
  simp only [MineState.closing, List.map_map, MainPc.remaining]
  rw [show ((fun w : Worker => w.pc.closing) ∘ fun range : NonceRange =>
      (⟨.refreshBefore range.rangeBegin 0, []⟩ : Worker)) = fun _ => 4 from rfl,
    List.map_const', List.sum_replicate, smul_eq_mul, Nat.mul_comm]

/-- The work an event gives the watcher is in its price. -/
theorem offer_watcherClosing (s t : Session) (e : LoopEvent) (h : s.offer e = some t) :
    t.watcherClosing + 1 ≤ s.watcherClosing + e.price := by
  have hother (he : e.finishes = false) : t.watcherClosing + 1 ≤ s.watcherClosing + e.price := by
    have hprice : 1 ≤ e.price := by
      cases e with
      | fetched _ => exact (show 1 ≤ 9 by omega)
      | requestCancel => exact (show 1 ≤ 3 by omega)
      | _ => exact Nat.le_refl 1
    unfold Session.watcherClosing
    rw [offer_watcher s t e h he]
    omega
  cases e with
  | requestCancel =>
      rcases offer_requestCancel s t h with ⟨w, hw, hidle, rfl⟩
      simp only [Session.watcherClosing, hw, OwnedWatcher.closing, hidle, OwnerPc.closing,
        Watcher.requestCancel, LoopEvent.price, Bool.false_eq_true, if_false]
      omega
  | joined status =>
      rcases offer_joined s t status h with ⟨w, hw, hload, _, rfl⟩
      simp only [Session.watcherClosing, hw, OwnedWatcher.closing, hload, OwnerPc.closing,
        LoopEvent.price]
      omega
  | _ => exact hother rfl

theorem afterLoop_watcherClosing (s t : Session) (e : LoopEvent) (loop : LoopState)
    (h : s.offer e = some t) :
    (t.afterLoop e loop).watcherClosing + 1 ≤ s.watcherClosing + e.price := by
  rcases afterLoop_cases t e loop with hsame | ⟨work, it, pc, rfl, _, hstart⟩
  · rw [hsame]
    exact offer_watcherClosing s t e h
  · rw [hstart]
    exact (show 8 + 1 ≤ s.watcherClosing + 9 by omega)

/-- An event of the loop makes no call, and the end of one leaves nothing. -/
theorem afterLoop_mineClosing (s t : Session) (e : LoopEvent) (loop : LoopState) (workers : Nat)
    (h : s.offer e = some t) (hcloses : Closes s.loop.pc e loop.pc) :
    (t.afterLoop e loop).mineClosing workers ≤ s.mineClosing workers := by
  have hmine : (t.afterLoop e loop).mine = t.mine := by
    rcases afterLoop_cases t e loop with hsame | ⟨_, _, _, _, _, hstart⟩
    · rw [hsame]
    · rw [hstart]
  simp only [Session.mineClosing, hmine, afterLoop_loop]
  by_cases hmined : ∃ status candidate, e = .mined status candidate
  · rcases hmined with ⟨status, candidate, rfl⟩
    rcases offer_mined s t status candidate h with ⟨_, _, _, _, _, _, rfl⟩
    have hidle : loop.pc.awaitsMine = false := by
      by_contra hwaits
      exact (hcloses.awaits (Bool.not_eq_false _ ▸ hwaits)).2 status candidate rfl
    simp only [hidle, Bool.false_eq_true, if_false, Nat.zero_le]
  · have hnot : ∀ status candidate, e ≠ .mined status candidate :=
      fun status candidate he => hmined ⟨status, candidate, he⟩
    rw [((offer_frame s t e h).2.2 hnot).1]
    cases s.mine with
    | some call => exact Nat.le_refl _
    | none =>
        by_cases hwaits : loop.pc.awaitsMine = true
        · simp only [hwaits, (hcloses.awaits hwaits).1, if_true, Nat.le_refl]
        · simp only [if_neg hwaits, Nat.zero_le]

/-- A step of the loop within a session. -/
theorem looped_closing (s t : Session) (e : LoopEvent) (loop : LoopState) (workers : Nat)
    (hshutdown : s.loop.shutdown = true) (hoffer : s.offer e = some t)
    (hloop : threadStep s.loop e = some loop) :
    (t.afterLoop e loop).closing workers < s.closing workers := by
  have hcloses := threadStep_closes s.loop loop e hshutdown hloop
  have hmine := afterLoop_mineClosing s t e loop workers hoffer hcloses
  have hwatcher := afterLoop_watcherClosing s t e loop hoffer
  have hpaid := hcloses.paid
  have hfetch : (t.afterLoop e loop).fetchClosing = 0 := by
    unfold Session.fetchClosing
    rw [afterLoop_loop]
    cases hpc : loop.pc with
    | fetching => exact absurd hpc hcloses.fetching
    | _ => rfl
  simp only [Session.closing, afterLoop_loop, hfetch]
  omega

/-- Every step of a session lowers the measure. -/
theorem sessionStep_closing (setup : SessionSetup) (s s' : Session) (a : SessionAction)
    (hshutdown : s.loop.shutdown = true) (h : sessionStep setup s a = some s') :
    s'.closing setup.workerCount.toNat < s.closing setup.workerCount.toNat := by
  cases sessionStep_effect setup s s' a h with
  | raised hdown => exact absurd (hdown.symm.trans hshutdown) Bool.false_ne_true
  | watched call w v hw hstep =>
      have hless := runStep_closing w.watcher v call hstep
      simp only [Session.closing, Session.mineClosing, Session.fetchClosing,
        Session.watcherClosing, hw, OwnedWatcher.closing]
      omega
  | worked _ b c m m' w hab hmine hw hstep =>
      have hthread : (∃ i, b = .worker i) ∨ b = .main := by
        rcases hab with ⟨i, _, hb⟩ | ⟨_, hb⟩
        · exact Or.inl ⟨i, hb⟩
        · exact Or.inr hb
      have hless := mineStep_closing c _ m' b hthread
        (by rw [hshutdown]; rfl) hstep
      rw [show (m.withFlags w.watcher s.loop.shutdown).closing = m.closing from rfl] at hless
      simp only [Session.closing, Session.mineClosing, Session.fetchClosing,
        Session.watcherClosing, hmine]
      omega
  | fetched r f hpc hstep =>
      have hless := fetchStep_closing setup.network s.fetch f r hstep
      simp only [Session.closing, Session.mineClosing, Session.fetchClosing,
        Session.watcherClosing, hpc]
      omega
  | called it m w entered hpc hmine hw hentered =>
      have hruns := callRuns_start setup s it m w.watcher entered.1 entered.2 hentered
      have hclosing := mineStart_closing _ _ _ _ entered.1 entered.2 hentered
      have hthreads := hruns.threads
      simp only [Session.closing, Session.mineClosing, Session.fetchClosing,
        Session.watcherClosing, hpc, hmine, LoopPc.awaitsMine, if_true]
      omega
  | refused it m w e loop hpc hmine hw _ hloop =>
      have hcloses := threadStep_closes s.loop loop _ hshutdown hloop
      have hpaid := hcloses.paid
      simp only [threadStep, hpc, innerStep, Option.some.injEq] at hloop
      rw [← hloop] at hpaid ⊢
      simp only [Session.closing, Session.mineClosing, Session.fetchClosing,
        Session.watcherClosing, hpc, hmine, LoopState.throw, LoopState.goto, LoopPc.awaitsMine,
        LoopPc.closing, if_true, Bool.false_eq_true, if_false]
      omega
  | joined w destroying hw howner hreturned =>
      simp only [Session.closing, Session.mineClosing, Session.fetchClosing,
        Session.watcherClosing, hw]
      cases destroying with
      | true =>
          simp only [if_true, OwnedWatcher.closing, howner, OwnerPc.closing]
          omega
      | false =>
          simp only [Bool.false_eq_true, if_false, OwnedWatcher.closing, howner, OwnerPc.closing]
          omega
  | destroyed w hw hout hidle =>
      simp only [Session.closing, Session.mineClosing, Session.fetchClosing,
        Session.watcherClosing, hw, OwnedWatcher.closing, hidle, OwnerPc.closing,
        Watcher.requestCancel, if_true]
      omega
  | looped e t loop hoffer hloop =>
      exact looped_closing s t e loop _ hshutdown hoffer hloop

theorem WorkerPc.closing_le (pc : WorkerPc) : pc.closing ≤ 6 := by
  cases pc with
  | scanning point _ _ =>
      cases point with
      | readCancelled | readCancelledSecondary | readCancelledTertiary | hash =>
          simp only [closing, ScanPoint.closing]
          omega
  | _ => simp only [closing]; omega

theorem OwnedWatcher.closing_le (w : OwnedWatcher) : w.closing ≤ 10 := by
  have howner : w.owner.closing ≤ 4 := by
    cases w.owner with
    | joining destroying =>
        cases destroying with
        | true => exact (show 1 ≤ 4 by omega)
        | false => exact Nat.le_refl 4
    | _ => simp only [OwnerPc.closing]; omega
  have hpc : w.watcher.pc.closing ≤ 6 := by
    cases w.watcher.pc with
    | _ => simp only [WatcherPc.closing]; omega
  unfold OwnedWatcher.closing
  omega

theorem SubmitPc.closing_le (pc : SubmitPc) : pc.closing ≤ 11 := by
  cases pc with
  | _ => simp only [closing]; omega

theorem LoopPc.closing_le (pc : LoopPc) : pc.closing ≤ 16 := by
  cases pc with
  | inner it pc =>
      cases pc with
      | found candidate pc =>
          cases pc with
          | decided d =>
              cases d with
              | _ => simp only [closing, InnerPc.closing, FoundPc.closing]; omega
          | _ => simp only [closing, InnerPc.closing, FoundPc.closing]; omega
      | submitting args frame =>
          exact Nat.le_trans frame.pc.closing_le (by omega)
      | _ => simp only [closing, InnerPc.closing]; omega
  | _ => simp only [closing]; omega

/-- A call of `Mine` has no more left than its workers do. -/
theorem CallRuns.closing_le (setup : SessionSetup) (t : BlockTemplate)
    (candidate : BlockCandidate) (live : UInt64) (args : MineArguments) (c : MineContext)
    (m : MineState) (h : CallRuns setup t candidate live args c m) :
    m.closing ≤ 6 * setup.workerCount.toNat + 3 := by
  have hsum : (m.workers.map fun w => w.pc.closing).sum ≤ m.workers.length • 6 := by
    refine (List.sum_le_card_nsmul _ 6 fun n hn => ?_).trans (by rw [List.length_map])
    rcases List.mem_map.mp hn with ⟨w, _, rfl⟩
    exact w.pc.closing_le
  have hmain : m.main.remaining ≤ 3 := by
    cases m.main with
    | _ => simp only [MainPc.remaining]; omega
  have hlength := h.ok.length
  have hthreads := h.threads
  rw [smul_eq_mul] at hsum
  unfold MineState.closing
  omega

/-- The measure is small, wherever the session is. -/
theorem Session.closing_le (setup : SessionSetup) (s : Session) (hwork : WorkOk setup s) :
    s.closing setup.workerCount.toNat ≤ 6 * setup.workerCount.toNat + 28 := by
  have hworkers : 0 < setup.workerCount.toNat :=
    Nat.pos_of_ne_zero fun h => setup.workerCount_ne (UInt64.toNat_inj.mp h)
  have hwatcher : s.watcherClosing ≤ 10 := by
    unfold Session.watcherClosing
    cases s.watcher with
    | none => exact Nat.zero_le 10
    | some w => exact w.closing_le
  have hloop := s.loop.pc.closing_le
  cases hmine : s.mine with
  | some call =>
      -- The loop waits for the call.
      rcases hwork.call setup s call.1 call.2 hmine with ⟨it, candidate, args, hpc, _, _, hruns⟩
      have hcall := hruns.closing_le setup _ _ _ args call.1 call.2
      simp only [Session.closing, Session.mineClosing, Session.fetchClosing, hmine, hpc,
        LoopPc.closing, InnerPc.closing]
      omega
  | none =>
      have hfetch : s.loop.pc.closing + s.fetchClosing ≤ 16 := by
        unfold Session.fetchClosing
        cases hpc : s.loop.pc with
        | fetching =>
            have hle : s.fetch.closing ≤ 2 := by
              cases s.fetch with
              | _ => simp only [FetchPc.closing]; omega
            simp only [LoopPc.closing]
            omega
        | _ =>
            rw [hpc] at hloop
            exact hloop
      have hcall : s.mineClosing setup.workerCount.toNat ≤ 4 * setup.workerCount.toNat + 4 := by
        simp only [Session.mineClosing, hmine]
        by_cases hwaits : s.loop.pc.awaitsMine = true
        · rw [if_pos hwaits]
        · rw [if_neg hwaits]
          exact Nat.zero_le _
      unfold Session.closing
      omega

end MercaMiner
