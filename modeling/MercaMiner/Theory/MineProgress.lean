import MercaMiner.Theory.ChunkedScan

/-!
# A Mining Call Returns

From every state a call of the parallel miner can reach, its own threads can
bring it to its end.

Each step of a thread uses up some of what is left to do: the clocks of the
workers are bounded, and the calling thread has three steps. A thread can
always move, because a worker that has not finished can, and when all have
finished the calling thread can. So no schedule of the threads gets stuck
before the call has returned.

## Main definitions

* `MineAction.Own`: The steps of the call's own threads.
* `MineState.remaining`: What is left to do.

## Theorems

* `mineStep_progress`: Some thread can move, and then less is left.
* `mine_returns`: The threads can finish.
-/

namespace MercaMiner

open Tiling Transition

/-- A step of one of the call's own threads. -/
def MineAction.Own : MineAction → Prop
  | .worker _ => True
  | .main => True
  | _ => False

/-- What a worker has left of the largest clock. -/
def Worker.remaining (w : Worker) : Nat :=
  6 * 2 ^ 32 + 6 - w.clock

def MainPc.remaining : MainPc → Nat
  | .joining => 3
  | .readCancelled _ => 2
  | .readCancelledSecondary _ => 1
  | .returned _ _ => 0

/-- What is left to do. -/
def MineState.remaining (s : MineState) : Nat :=
  (s.workers.map Worker.remaining).sum + s.main.remaining

/-- Results are missing only while some worker has none. -/
theorem collectResults_none (workers : List Worker) (h : collectResults workers = none) :
    ∃ (i : Nat) (w : Worker), workers[i]? = some w ∧ w.pc.result = none := by
  induction workers with
  | nil => simp only [collectResults, reduceCtorEq] at h
  | cons v rest ih =>
      cases hv : v.pc.result with
      | none => exact ⟨0, v, rfl, hv⟩
      | some r =>
          cases hrest : collectResults rest with
          | none =>
              rcases ih hrest with ⟨i, w, hw, hresult⟩
              exact ⟨i + 1, w, hw, hresult⟩
          | some results => simp only [collectResults, hv, hrest, reduceCtorEq] at h

section

variable (c : MineContext) (initialLive : Option UInt64) (ext : Prop)

theorem workerStep_remaining (range : NonceRange) (shared : Shared) (w w' : Worker)
    (shared' : Shared) (hok : WorkerOk c range ext shared w)
    (h : workerStep c range shared w = some (w', shared')) : w'.remaining < w.remaining := by
  have hclock := workerStep_clock c range shared w w' shared' h
  -- The clock is bounded after the step as well, so the difference shrinks.
  have hok' := (workerStep_ok c range True shared w w' shared'
    (workerOk_mono c range ext True shared shared w (fun _ => Or.inr trivial) hok)
    (fun _ => trivial) h).1
  have hle := clock_le c range True shared' w' hok'
  unfold Worker.remaining
  omega

theorem concludeMine_remaining (results : List ScanResult) (total : UInt64) :
    (concludeMine c results total).remaining = 0 := by
  cases hwinner : selectWinner results 0 none with
  | some best => simp only [concludeMine, hwinner, MainPc.remaining]
  | none =>
      simp only [concludeMine, hwinner]
      split
      · rfl
      · rfl

/-- The calling thread moves once every worker has finished. -/
theorem mainStep_progress (s : MineState) (results : List ScanResult)
    (hresults : s.results = some results) :
    (∃ result after, s.main = .returned result after) ∨
      ∃ s', mainStep c s = some s' ∧ s'.remaining < s.remaining := by
  have hless (s' : MineState) (hworkers : s'.workers = s.workers)
      (hmain : s'.main.remaining < s.main.remaining) : s'.remaining < s.remaining := by
    unfold MineState.remaining
    rw [hworkers]
    omega
  simp only [mainStep, hresults]
  cases hpc : s.main with
  | joining =>
      refine Or.inr ⟨_, rfl, hless _ rfl ?_⟩
      rw [hpc]
      exact (show 2 < 3 by omega)
  | readCancelled total =>
      by_cases hcancelled : raised s.shared.cancelled = true
      · refine Or.inr ⟨_, if_pos hcancelled, hless _ rfl ?_⟩
        rw [hpc]
        exact (show 0 < 2 by omega)
      · refine Or.inr ⟨_, if_neg hcancelled, hless _ rfl ?_⟩
        rw [hpc]
        exact (show 1 < 2 by omega)
  | readCancelledSecondary total =>
      by_cases hcancelled : raised s.shared.cancelledSecondary = true
      · refine Or.inr ⟨_, if_pos hcancelled, hless _ rfl ?_⟩
        rw [hpc]
        exact (show 0 < 1 by omega)
      · refine Or.inr ⟨_, if_neg hcancelled, hless _ rfl ?_⟩
        rw [hpc]
        simp only [concludeMine_remaining]
        exact Nat.zero_lt_one
  | returned result after => exact Or.inl ⟨result, after, rfl⟩

/-- Unless the call has returned some thread can move, and then less is
    left. -/
theorem mineStep_progress (s : MineState) (hok : MineOk c initialLive ext s) :
    (∃ result after, s.main = .returned result after) ∨
      ∃ a s', a.Own ∧ mineStep c s a = some s' ∧ s'.remaining < s.remaining := by
  cases hresults : s.results with
  | some results =>
      rcases mainStep_progress c s results hresults with hreturned | ⟨s', hstep, hless⟩
      · exact Or.inl hreturned
      · exact Or.inr ⟨.main, s', trivial, hstep, hless⟩
  | none =>
      -- A missing result belongs to a worker that can still move.
      rcases collectResults_none s.workers hresults with ⟨i, w, hw, hrunning⟩
      rcases hok.range_of_worker c initialLive ext s i w hw with ⟨range, hrange, hwok⟩
      rcases workerStep_isSome c range ext s.shared w hwok hrunning with ⟨w', shared', hstep⟩
      have hless := workerStep_remaining c ext range s.shared w w' shared' hwok hstep
      have hsum := sum_map_set Worker.remaining s.workers i w w' hw
      refine Or.inr ⟨.worker i, { s with workers := s.workers.set i w', shared := shared' },
        trivial, ?_, ?_⟩
      · simp only [mineStep, hrange, hw, hstep, Option.bind_eq_bind, Option.bind_some,
          Option.pure_def]
      · simp only [MineState.remaining]
        omega

/-- The threads of a call can finish it. -/
theorem mine_returns (hsize : covered (c.ranges.map NonceRange.span) < 2 ^ 64) (left : Nat) :
    ∀ s, MineOk c initialLive True s → s.remaining ≤ left →
      ∃ acts s', (∀ a ∈ acts, a.Own) ∧ run (mineStep c) s acts = some s' ∧
        ∃ result after, s'.main = .returned result after := by
  induction left with
  | zero =>
      intro s hok hleft
      rcases mineStep_progress c initialLive True s hok with hreturned | ⟨a, s', _, _, hless⟩
      · exact ⟨[], s, fun _ h => absurd h List.not_mem_nil, rfl, hreturned⟩
      · omega
  | succ k ih =>
      intro s hok hleft
      rcases mineStep_progress c initialLive True s hok with hreturned | ⟨a, s', hown, hstep, hless⟩
      · exact ⟨[], s, fun _ h => absurd h List.not_mem_nil, rfl, hreturned⟩
      have hok' := mineStep_ok c initialLive True hsize s a s' hok (fun _ => trivial) hstep
      rcases ih s' hok' (by omega) with ⟨acts, s'', hall, hrun, hreturned⟩
      refine ⟨a :: acts, s'', List.forall_mem_cons.mpr ⟨hown, hall⟩, ?_, hreturned⟩
      rw [run_cons _ s s' a acts hstep, hrun]

end

end MercaMiner
