import MercaMiner.Theory.WorkerProgress
import Mathlib.Algebra.Order.BigOperators.Group.List

/-!
# The Invariant of a Mining Call

What holds in every state a call of the parallel miner can reach, under any
schedule of its threads and any use of the external flags.

The invariant is the workers' own invariants side by side, plus what ties them
to the shared variables: the stop flag is up only if some worker has found a
nonce, the live counter has been raised once for every nonce hashed, and no
addition has saturated. Once the calling thread has joined, its total is the
number of nonces hashed, and once it has returned, its result is `Concluded`
from the workers' results.

## Main definitions

* `MineState.hashCount`: How many nonces have been hashed.
* `Concluded`: A returned result agrees with the workers' results.
* `MineOk`: The invariant.

## Theorems

* `selectWinner_spec`: The winner loop finds the smallest found nonce.
* `mineStep_ok`: Every step keeps the invariant.
* `mine_reachable_ok`: Every reachable state has it.
-/

namespace MercaMiner

open Tiling Transition

/-- How many nonces the workers have hashed. -/
def MineState.hashCount (s : MineState) : Nat :=
  (s.workers.map fun w => w.hashed.length).sum

/-- The winner so far, with the results seen so far. -/
def IsWinner (seen : List ScanResult) : Option (Nat × ScanResult) → Prop
  | none => ∀ r ∈ seen, r.status ≠ .found
  | some (i, best) => seen[i]? = some best ∧ best.status = .found ∧
      ∀ r ∈ seen, r.status = .found → best.nonce.toNat ≤ r.nonce.toNat

/-- A returned result agrees with the results of the workers. -/
def Concluded (c : MineContext) (ext : Prop) (results : List ScanResult)
    (result : ParallelMineResult) (candidate : BlockCandidate) : Prop :=
  result.activeWorkers = results.length ∧ match result.status with
  | .found => ∃ i best, result.winningWorker = some i ∧ IsWinner results (some (i, best)) ∧
      result.nonce = best.nonce ∧ result.hash = best.hash ∧
      candidate = applySolvedNonce c.candidate best.nonce
  | .exhausted => (∀ r ∈ results, r.status = .exhausted) ∧ result.nonce = c.nonceEnd ∧
      result.winningWorker = none ∧ candidate = c.candidate
  | .cancelled => ext ∧ result.winningWorker = none ∧ candidate = c.candidate

/-- What the calling thread knows. -/
def MainOk (c : MineContext) (ext : Prop) (s : MineState) : Prop :=
  match s.main with
  | .joining => True
  | .readCancelled totalHashes => (∃ results, s.results = some results) ∧
      totalHashes.toNat = s.hashCount
  | .readCancelledSecondary totalHashes => (∃ results, s.results = some results) ∧
      totalHashes.toNat = s.hashCount
  | .returned result candidate => ∃ results, s.results = some results ∧
      result.hashesChecked.toNat = s.hashCount ∧ Concluded c ext results result candidate

/-- The invariant of a call that was entered with the given live counter. -/
structure MineOk (c : MineContext) (initialLive : Option UInt64) (ext : Prop) (s : MineState) :
    Prop where
  length : s.workers.length = c.ranges.length
  workers : ∀ (i : Nat) range w, c.ranges[i]? = some range → s.workers[i]? = some w →
    WorkerOk c range ext s.shared w
  stop : s.shared.stop = true →
    ∃ (i : Nat) (w : Worker) (result : ScanResult),
      s.workers[i]? = some w ∧ w.pc = .done result ∧ result.status = .found
  live : s.shared.liveHashes = initialLive.map (· + UInt64.ofNat s.hashCount)
  unsaturated : s.shared.saturated = false
  main : MainOk c ext s

theorem collectResults_some (workers : List Worker) (results : List ScanResult) :
    collectResults workers = some results ↔
      workers.map (fun w => w.pc.result) = results.map some := by
  induction workers generalizing results with
  | nil =>
      cases results <;> simp only [collectResults, List.map_nil, List.map_cons, Option.some.injEq,
        reduceCtorEq]
  | cons w rest ih =>
      simp only [collectResults, List.map_cons]
      cases hw : w.pc.result with
      | none => cases results <;> simp only [reduceCtorEq, List.map_nil, List.map_cons,
          List.cons.injEq, false_and]
      | some r =>
          cases hrest : collectResults rest with
          | none =>
              have hno : ∀ rs : List ScanResult, rest.map (fun w => w.pc.result) ≠ rs.map some := by
                intro rs hrs
                rw [(ih rs).mpr hrs] at hrest
                exact absurd hrest (by simp only [reduceCtorEq, not_false_eq_true])
              cases results with
              | nil => simp only [reduceCtorEq, List.map_nil]
              | cons q rs => simp only [reduceCtorEq, List.map_cons, List.cons.injEq, hno rs,
                  and_false]
          | some rs =>
              have hrs := (ih rs).mp hrest
              cases results with
              | nil => simp only [Option.some.injEq, reduceCtorEq, List.map_nil]
              | cons q qs => simp only [Option.some.injEq, List.map_cons, List.cons.injEq, hrs,
                  (List.map_injective_iff.mpr (Option.some_injective _)).eq_iff]

theorem WorkerPc.result_done (pc : WorkerPc) (r : ScanResult) :
    pc.result = some r ↔ pc = .done r := by
  cases pc <;> simp only [WorkerPc.result, Option.some.injEq, reduceCtorEq, WorkerPc.done.injEq]

/-- The results, once there are all of them, are those the workers ended with. -/
theorem results_get (s : MineState) (results : List ScanResult) (h : s.results = some results)
    (i : Nat) (r : ScanResult) :
    results[i]? = some r ↔ ∃ w, s.workers[i]? = some w ∧ w.pc = .done r := by
  have hmap := (collectResults_some s.workers results).mp h
  have hget : (s.workers.map fun w => w.pc.result)[i]? = (results.map some)[i]? := by rw [hmap]
  rw [List.getElem?_map, List.getElem?_map] at hget
  cases hw : s.workers[i]? with
  | none =>
      rw [hw, Option.map_none] at hget
      have hnone : results[i]? = none := Option.map_eq_none_iff.mp hget.symm
      simp only [hnone, reduceCtorEq, false_and, exists_false]
  | some w =>
      rw [hw, Option.map_some] at hget
      rcases Option.map_eq_some_iff.mp hget.symm with ⟨q, hq, hwq⟩
      simp only [hq, ← WorkerPc.result_done, ← hwq, Option.some.injEq, exists_eq_left']

theorem results_length (s : MineState) (results : List ScanResult)
    (h : s.results = some results) : results.length = s.workers.length := by
  have hlen := congrArg List.length ((collectResults_some s.workers results).mp h)
  rw [List.length_map, List.length_map] at hlen
  exact hlen.symm

/-- Each worker has its entry. -/
theorem results_entry (s : MineState) (results : List ScanResult) (h : s.results = some results)
    (i : Nat) (w : Worker) (hw : s.workers[i]? = some w) :
    ∃ r, results[i]? = some r ∧ w.pc = .done r := by
  have hi : i < results.length := by
    rw [results_length s results h]
    exact (List.getElem?_eq_some_iff.mp hw).1
  have hr : results[i]? = some results[i] := List.getElem?_eq_getElem hi
  rcases (results_get s results h i _).mp hr with ⟨v, hv, hdone⟩
  rw [hw, Option.some.injEq] at hv
  rw [hv]
  exact ⟨_, hr, hdone⟩

/-- One more result: the winner is the smallest of those seen, or the new
    one. -/
theorem considerWinner_spec (seen : List ScanResult) (r : ScanResult)
    (winner : Option (Nat × ScanResult)) (h : IsWinner seen winner) :
    IsWinner (seen ++ [r]) (considerWinner seen.length r winner) := by
  have hnew : (seen ++ [r])[seen.length]? = some r := by
    rw [List.getElem?_append_right (Nat.le_refl _), Nat.sub_self]
    rfl
  have hold : ∀ (i : Nat) best, seen[i]? = some best → (seen ++ [r])[i]? = some best := by
    intro i best hget
    rw [List.getElem?_append_left (List.getElem?_eq_some_iff.mp hget).1]
    exact hget
  unfold considerWinner
  by_cases hfound : r.status = .found
  · rw [if_neg (not_not.mpr hfound)]
    cases winner with
    | none =>
        refine ⟨hnew, hfound, List.forall_mem_append.mpr ⟨fun q hq hqf => ?_, ?_⟩⟩
        · exact absurd hqf (h q hq)
        · exact List.forall_mem_singleton.mpr fun _ => Nat.le_refl _
    | some best =>
        rcases best with ⟨i, best⟩
        rcases h with ⟨hget, hbest, hmin⟩
        by_cases hlt : r.nonce < best.nonce
        · have hnat := UInt32.lt_iff_toNat_lt.mp hlt
          simp only [if_pos hlt]
          refine ⟨hnew, hfound, List.forall_mem_append.mpr ⟨fun q hq hqf => ?_, ?_⟩⟩
          · exact Nat.le_trans (Nat.le_of_lt hnat) (hmin q hq hqf)
          · exact List.forall_mem_singleton.mpr fun _ => Nat.le_refl _
        · have hnat := UInt32.le_iff_toNat_le.mp (UInt32.not_lt.mp hlt)
          simp only [if_neg hlt]
          refine ⟨hold i best hget, hbest, List.forall_mem_append.mpr ⟨hmin, ?_⟩⟩
          exact List.forall_mem_singleton.mpr fun _ => hnat
  · -- A result that found nothing changes nothing.
    rw [if_pos hfound]
    cases winner with
    | none => exact List.forall_mem_append.mpr ⟨h, List.forall_mem_singleton.mpr hfound⟩
    | some best =>
        rcases best with ⟨i, best⟩
        rcases h with ⟨hget, hbest, hmin⟩
        refine ⟨hold i best hget, hbest, List.forall_mem_append.mpr ⟨hmin, ?_⟩⟩
        exact List.forall_mem_singleton.mpr fun hr => absurd hr hfound

theorem selectWinner_spec (rest seen : List ScanResult) (winner : Option (Nat × ScanResult))
    (h : IsWinner seen winner) :
    IsWinner (seen ++ rest) (selectWinner rest seen.length winner) := by
  induction rest generalizing seen winner with
  | nil =>
      rw [List.append_nil]
      exact h
  | cons r rest ih =>
      have hnext := ih (seen ++ [r]) _ (considerWinner_spec seen r winner h)
      rw [List.append_assoc, List.singleton_append, List.length_append,
        List.length_singleton] at hnext
      exact hnext

/-- A sum below the word size is added up exactly. -/
theorem sumHashes_exact (results : List ScanResult) (total : UInt64) (saturated : Bool)
    (h : total.toNat + (results.map fun r => r.hashesChecked.toNat).sum < 2 ^ 64) :
    (sumHashes results total saturated).2 = saturated ∧
    (sumHashes results total saturated).1.toNat
      = total.toNat + (results.map fun r => r.hashesChecked.toNat).sum := by
  induction results generalizing total saturated with
  | nil => exact ⟨rfl, rfl⟩
  | cons r rest ih =>
      simp only [List.map_cons, List.sum_cons] at h ⊢
      rcases saturatingAdd_exact total r.hashesChecked _ rfl (by omega) with ⟨hno, hsum⟩
      rw [sumHashes, hno, Bool.or_false]
      rcases ih (saturatingAdd total r.hashesChecked) saturated (by omega) with ⟨hsat, htotal⟩
      exact ⟨hsat, by omega⟩

/-- At any point a worker has hashed an initial part of its range, in order. -/
theorem WorkerOk.scanned (c : MineContext) (range : NonceRange) (ext : Prop) (shared : Shared)
    (w : Worker) (h : WorkerOk c range ext shared w) :
    w.hashed.map UInt32.toNat = List.range' range.rangeBegin.toNat w.hashed.length ∧
    range.rangeBegin.toNat + w.hashed.length ≤ range.rangeEnd.toNat + 1 := by
  have hprogress : ∀ next, Progress c range w.hashed next → next ≤ range.rangeEnd.toNat + 1 →
      w.hashed.map UInt32.toNat = List.range' range.rangeBegin.toNat w.hashed.length ∧
      range.rangeBegin.toNat + w.hashed.length ≤ range.rangeEnd.toNat + 1 :=
    fun next hp hle => ⟨hp.inOrder, hp.next_eq ▸ hle⟩
  have hreported : ∀ result, Reported c range range.rangeEnd ext shared w.hashed result →
      w.hashed.map UInt32.toNat = List.range' range.rangeBegin.toNat w.hashed.length ∧
      range.rangeBegin.toNat + w.hashed.length ≤ range.rangeEnd.toNat + 1 := by
    intro result hr
    rw [Reported] at hr
    cases hstatus : result.status with
    | found =>
        -- The nonce that was found is the one after those hashed in vain.
        rw [hstatus] at hr
        rcases hr with ⟨before, hhashed, hp, hle, _⟩
        have heq := hp.next_eq
        rw [hhashed, List.map_append, List.map_singleton, List.length_append,
          List.length_singleton, List.range'_concat, Nat.one_mul, heq, hp.inOrder]
        exact ⟨rfl, by omega⟩
    | exhausted =>
        rw [hstatus] at hr
        exact hprogress _ hr (Nat.le_refl _)
    | cancelled =>
        rw [hstatus] at hr
        rcases hr with ⟨_, next, hp, hle⟩
        exact hprogress next hp hle
  rw [WorkerOk] at h
  cases hpc : w.pc with
  | refreshBefore chunkBegin workerHashes =>
      rw [hpc] at h
      exact hprogress _ h.1 (by omega)
  | scanning point workerHashes frame =>
      rw [hpc] at h
      exact hprogress _ h.1 (by omega)
  | storeStop result =>
      rw [hpc] at h
      exact hreported result h.2.1
  | refreshAfter chunkEnd workerHashes =>
      rw [hpc] at h
      exact hprogress _ h.1 (by omega)
  | done result =>
      rw [hpc] at h
      exact hreported result h.1
  | threw =>
      rw [hpc] at h
      exact absurd h not_false

/-- Comparing two lists entry by entry compares their sums. -/
theorem sum_le_of_entries (xs ys : List Nat) (hlen : xs.length = ys.length)
    (h : ∀ (i : Nat) x y, xs[i]? = some x → ys[i]? = some y → x ≤ y) : xs.sum ≤ ys.sum :=
  List.Forall₂.sum_le_sum (List.forall₂_iff_get.mpr ⟨hlen, fun i hx hy =>
    h i _ _ (List.getElem?_eq_getElem hx) (List.getElem?_eq_getElem hy)⟩)

/-- No more nonces are hashed than the ranges hold. -/
theorem hashCount_le (c : MineContext) (ext : Prop) (s : MineState)
    (hlen : s.workers.length = c.ranges.length)
    (hworkers : ∀ (i : Nat) range w, c.ranges[i]? = some range → s.workers[i]? = some w →
      WorkerOk c range ext s.shared w) :
    s.hashCount ≤ covered (c.ranges.map NonceRange.span) := by
  rw [MineState.hashCount, covered, List.map_map]
  refine sum_le_of_entries _ _ (by rw [List.length_map, List.length_map, hlen]) ?_
  intro i x y hx hy
  rw [List.getElem?_map] at hx hy
  rcases Option.map_eq_some_iff.mp hx with ⟨w, hw, rfl⟩
  rcases Option.map_eq_some_iff.mp hy with ⟨range, hrange, rfl⟩
  have hle := ((hworkers i range w hrange hw).scanned c range ext s.shared w).2
  simp only [Function.comp_apply, NonceRange.span]
  omega

/-- Replacing one entry of a list changes a sum over it by that entry. -/
theorem sum_map_set {α : Type} (f : α → Nat) (l : List α) (i : Nat) (x y : α)
    (hx : l[i]? = some x) : ((l.set i y).map f).sum + f x = (l.map f).sum + f y := by
  induction l generalizing i with
  | nil => simp only [List.getElem?_nil, reduceCtorEq] at hx
  | cons v rest ih =>
      cases i with
      | zero =>
          simp only [List.getElem?_cons_zero, Option.some.injEq] at hx
          simp only [List.set_cons_zero, List.map_cons, List.sum_cons, hx]
          omega
      | succ j =>
          have htail := ih j hx
          simp only [List.set_cons_succ, List.map_cons, List.sum_cons]
          omega

/-- The workers' counts are the numbers of nonces they hashed. -/
theorem results_sum (c : MineContext) (ext : Prop) (s : MineState) (results : List ScanResult)
    (hresults : s.results = some results) (hlen : s.workers.length = c.ranges.length)
    (hworkers : ∀ (i : Nat) range w, c.ranges[i]? = some range → s.workers[i]? = some w →
      WorkerOk c range ext s.shared w) :
    (results.map fun r => r.hashesChecked.toNat).sum = s.hashCount := by
  rw [MineState.hashCount]
  refine congrArg List.sum (List.ext_getElem? fun i => ?_)
  rw [List.getElem?_map, List.getElem?_map]
  cases hw : s.workers[i]? with
  | none =>
      have hr : results[i]? = none := by
        rw [List.getElem?_eq_none_iff, results_length s results hresults]
        exact List.getElem?_eq_none_iff.mp hw
      rw [hr, Option.map_none, Option.map_none]
  | some w =>
      have hi := (List.getElem?_eq_some_iff.mp hw).1
      have hrange : c.ranges[i]? = some c.ranges[i] := List.getElem?_eq_getElem (hlen ▸ hi)
      rcases results_entry s results hresults i w hw with ⟨r, hget, hdone⟩
      have hok := hworkers i _ w hrange hw
      rw [WorkerOk, hdone] at hok
      rw [hget, Option.map_some, Option.map_some, hok.2]

section

variable (c : MineContext) (initialLive : Option UInt64) (ext : Prop)

/-- Stores to the caller's flags keep the invariant, which does not mention
    their values. -/
theorem mineOk_store (s : MineState) (shared : Shared) (hok : MineOk c initialLive ext s)
    (hstop : shared.stop = s.shared.stop) (hlive : shared.liveHashes = s.shared.liveHashes)
    (hsat : shared.saturated = s.shared.saturated) :
    MineOk c initialLive ext { s with shared := shared } := by
  have hkept : s.shared.stop = true → shared.stop = true := fun h => hstop.trans h
  refine ⟨hok.length, fun i range w hr hw => ?_, fun h => hok.stop (hstop.symm.trans h),
    hlive.trans hok.live, hsat.trans hok.unsaturated, hok.main⟩
  exact workerOk_mono c range ext ext s.shared shared w (Or.imp_left hkept)
    (hok.workers i range w hr hw)

theorem concluded_mono (ext' : Prop) (results : List ScanResult) (result : ParallelMineResult)
    (candidate : BlockCandidate) (hext : ext → ext')
    (h : Concluded c ext results result candidate) : Concluded c ext' results result candidate := by
  rcases h with ⟨hactive, hconcluded⟩
  refine ⟨hactive, ?_⟩
  cases hstatus : result.status with
  | found =>
      rw [hstatus] at hconcluded
      exact hconcluded
  | exhausted =>
      rw [hstatus] at hconcluded
      exact hconcluded
  | cancelled =>
      rw [hstatus] at hconcluded
      exact ⟨hext hconcluded.1, hconcluded.2⟩

theorem mainOk_mono (ext' : Prop) (s : MineState) (hext : ext → ext') (h : MainOk c ext s) :
    MainOk c ext' s := by
  rw [MainOk] at h ⊢
  cases hpc : s.main with
  | joining => exact trivial
  | readCancelled total =>
      rw [hpc] at h
      exact h
  | readCancelledSecondary total =>
      rw [hpc] at h
      exact h
  | returned result candidate =>
      rw [hpc] at h
      rcases h with ⟨results, hresults, hcount, hconcluded⟩
      exact ⟨results, hresults, hcount,
        concluded_mono c ext ext' results result candidate hext hconcluded⟩

/-- The invariant only says that something external happened, so it may be
    weakened to a later point of the run. -/
theorem MineOk.later (ext' : Prop) (s : MineState) (hext : ext → ext')
    (hok : MineOk c initialLive ext s) : MineOk c initialLive ext' s := by
  refine ⟨hok.length, fun i range w hr hw => ?_, hok.stop, hok.live, hok.unsaturated,
    mainOk_mono c ext ext' s hext hok.main⟩
  exact workerOk_mono c range ext ext' s.shared s.shared w (Or.imp_right hext)
    (hok.workers i range w hr hw)

/-- Past the join every worker has a result. -/
theorem mainOk_results (s : MineState) (h : MainOk c ext s) :
    s.main = .joining ∨ ∃ results, s.results = some results := by
  rw [MainOk] at h
  cases hpc : s.main with
  | joining => exact Or.inl rfl
  | readCancelled total =>
      rw [hpc] at h
      exact Or.inr h.1
  | readCancelledSecondary total =>
      rw [hpc] at h
      exact Or.inr h.1
  | returned result candidate =>
      rw [hpc] at h
      rcases h with ⟨results, hresults, _⟩
      exact Or.inr ⟨results, hresults⟩

/-- While a worker runs, the calling thread is still joining. -/
theorem MineOk.joining_of_running (s : MineState) (hok : MineOk c initialLive ext s) (i : Nat)
    (w : Worker) (hw : s.workers[i]? = some w) (hrunning : w.pc.result = none) :
    s.main = .joining := by
  rcases mainOk_results c ext s hok.main with hjoining | ⟨results, hresults⟩
  · exact hjoining
  -- Otherwise this worker has a result too.
  rcases results_entry s results hresults i w hw with ⟨r, _, hdone⟩
  rw [(WorkerPc.result_done w.pc r).mpr hdone] at hrunning
  exact absurd hrunning (by simp only [reduceCtorEq, not_false_eq_true])

/-- A step of one worker keeps the invariant of all. -/
theorem mineOk_worker (s : MineState) (hok : MineOk c initialLive ext s) (i : Nat)
    (range : NonceRange) (w w' : Worker) (shared : Shared) (hrange : c.ranges[i]? = some range)
    (hw : s.workers[i]? = some w) (hext : External s.shared → ext)
    (hstep : workerStep c range s.shared w = some (w', shared)) :
    MineOk c initialLive ext { s with workers := s.workers.set i w', shared := shared } := by
  rcases workerStep_ok c range ext s.shared w w' shared (hok.workers i range w hrange hw) hext
    hstep with
    ⟨hwok, heffect⟩
  have hi := (List.getElem?_eq_some_iff.mp hw).1
  have hself : (s.workers.set i w')[i]? = some w' := List.getElem?_set_self hi
  have hjoining := hok.joining_of_running c initialLive ext s i w hw heffect.wasRunning
  refine ⟨?_, fun j range' v hr hv => ?_, fun h => ?_, ?_, ?_, ?_⟩
  · simp only [List.length_set]
    exact hok.length
  · -- The worker that moved, or one that saw its effect.
    by_cases hij : i = j
    · subst hij
      rw [hself, Option.some.injEq] at hv
      rw [hrange, Option.some.injEq] at hr
      rw [← hv, ← hr]
      exact hwok
    · rw [List.getElem?_set_ne hij] at hv
      exact workerOk_mono c range' ext ext s.shared shared v (Or.imp_left heffect.stopKept)
        (hok.workers j range' v hr hv)
  · -- The stop flag was up already, or this worker has just raised it.
    rcases heffect.stopRaised h with hold | ⟨result, hdone, hfound⟩
    · rcases hok.stop hold with ⟨j, v, result, hv, hdone, hfound⟩
      have hij : i ≠ j := by
        intro hij
        subst hij
        rw [hw, Option.some.injEq] at hv
        have hrun := heffect.wasRunning
        rw [hv, hdone] at hrun
        exact absurd hrun (by simp only [WorkerPc.result, reduceCtorEq, not_false_eq_true])
      exact ⟨j, v, result, by rw [List.getElem?_set_ne hij]; exact hv, hdone, hfound⟩
    · exact ⟨i, w', result, hself, hdone, hfound⟩
  · -- The live counter and the nonces hashed go up together.
    rcases heffect.counted with ⟨k, hk, hlive⟩
    have hcount : MineState.hashCount { s with workers := s.workers.set i w', shared := shared }
        = s.hashCount + k := by
      have hsum := sum_map_set (fun w => w.hashed.length) s.workers i w w' hw
      simp only [MineState.hashCount]
      omega
    rw [hcount, hlive, hok.live]
    cases initialLive with
    | none => rfl
    | some n => simp only [Option.map_some, UInt64.ofNat_add, UInt64.add_assoc]
  · exact heffect.saturated.trans hok.unsaturated
  · simp only [MainOk, hjoining]

theorem MineOk.range_of_worker (s : MineState) (hok : MineOk c initialLive ext s) (i : Nat)
    (w : Worker) (hw : s.workers[i]? = some w) :
    ∃ range, c.ranges[i]? = some range ∧ WorkerOk c range ext s.shared w := by
  have hi : i < c.ranges.length := hok.length ▸ (List.getElem?_eq_some_iff.mp hw).1
  have hrange : c.ranges[i]? = some c.ranges[i] := List.getElem?_eq_getElem hi
  exact ⟨_, hrange, hok.workers i _ w hrange hw⟩

/-- What the return statements produce agrees with the workers' results. A
    cancelled worker was not merely stopped, or some worker would have won. -/
theorem concludeMine_ok (s : MineState) (hok : MineOk c initialLive ext s)
    (results : List ScanResult) (hresults : s.results = some results) (totalHashes : UInt64)
    (htotal : totalHashes.toNat = s.hashCount) :
    MineOk c initialLive ext { s with main := concludeMine c results totalHashes } := by
  refine ⟨hok.length, hok.workers, hok.stop, hok.live, hok.unsaturated, ?_⟩
  have hwinner := selectWinner_spec results [] none (fun r hr => absurd hr List.not_mem_nil)
  rw [List.nil_append, List.length_nil] at hwinner
  rw [concludeMine, MainOk]
  cases hselect : selectWinner results 0 none with
  | some best =>
      rw [hselect] at hwinner
      exact ⟨results, hresults, htotal, rfl, best.1, best.2, rfl, hwinner, rfl, rfl, rfl⟩
  | none =>
      rw [hselect] at hwinner
      cases hany : results.any fun r => r.status = .cancelled with
      | true =>
          rcases List.any_eq_true.mp hany with ⟨r, hr, hcancelled⟩
          have hstatus : r.status = .cancelled := of_decide_eq_true hcancelled
          rcases List.getElem?_of_mem hr with ⟨i, hi⟩
          rcases (results_get s results hresults i r).mp hi with ⟨w, hw, hdone⟩
          rcases hok.range_of_worker c initialLive ext s i w hw with ⟨range, _, hwok⟩
          rw [WorkerOk, hdone] at hwok
          rcases hwok with ⟨hreport, _⟩
          rw [Reported, hstatus] at hreport
          refine ⟨results, hresults, htotal, rfl, ?_, rfl, rfl⟩
          -- A raised stop flag would mean a winner, and there is none.
          rcases hreport.1 with hstop | hexternal
          · rcases hok.stop hstop with ⟨j, v, q, hv, hvdone, hfound⟩
            have hq : results[j]? = some q :=
              (results_get s results hresults j q).mpr ⟨v, hv, hvdone⟩
            exact absurd hfound (hwinner q (List.mem_of_getElem? hq))
          · exact hexternal
      | false =>
          refine ⟨results, hresults, htotal, rfl, fun r hr => ?_, rfl, rfl, rfl⟩
          -- Every worker has a result, and two of the three kinds are excluded.
          have hnot := List.any_eq_false.mp hany r hr
          cases hstatus : r.status with
          | found => exact absurd hstatus (hwinner r hr)
          | exhausted => rfl
          | cancelled => exact absurd (decide_eq_true hstatus) hnot

/-- A step of the calling thread keeps the invariant, when the ranges hold
    fewer nonces than a counter can count. -/
theorem mineOk_main (s s' : MineState) (hok : MineOk c initialLive ext s)
    (hext : External s.shared → ext)
    (hsize : covered (c.ranges.map NonceRange.span) < 2 ^ 64) (h : mainStep c s = some s') :
    MineOk c initialLive ext s' := by
  cases hresults : s.results with
  | none => simp only [mainStep, hresults, reduceCtorEq] at h
  | some results =>
      have hmain := hok.main
      rw [MainOk] at hmain
      simp only [mainStep, hresults] at h
      cases hpc : s.main with
      | joining =>
          rw [hpc] at h
          simp only [Option.some.injEq] at h
          have hsum := results_sum c ext s results hresults hok.length hok.workers
          have hle := hashCount_le c ext s hok.length hok.workers
          -- The sum is at most the number of nonces, so it does not saturate.
          rcases sumHashes_exact results 0 s.shared.saturated
            (by rw [hsum, UInt64.toNat_zero]; omega) with ⟨hsat, htotal⟩
          rw [← h]
          refine ⟨hok.length, hok.workers, hok.stop, hok.live, hsat.trans hok.unsaturated, ?_⟩
          refine ⟨⟨results, hresults⟩, ?_⟩
          rw [htotal, hsum, UInt64.toNat_zero, Nat.zero_add]
          rfl
      | readCancelled total =>
          rw [hpc] at h hmain
          by_cases hcancelled : raised s.shared.cancelled = true
          · simp only [if_pos hcancelled, Option.some.injEq] at h
            rw [← h]
            exact ⟨hok.length, hok.workers, hok.stop, hok.live, hok.unsaturated, results, hresults,
              hmain.2, rfl, hext (Or.inl hcancelled), rfl, rfl⟩
          · simp only [if_neg hcancelled, Option.some.injEq] at h
            rw [← h]
            exact ⟨hok.length, hok.workers, hok.stop, hok.live, hok.unsaturated,
              ⟨results, hresults⟩, hmain.2⟩
      | readCancelledSecondary total =>
          rw [hpc] at h hmain
          by_cases hcancelled : raised s.shared.cancelledSecondary = true
          · simp only [if_pos hcancelled, Option.some.injEq] at h
            rw [← h]
            exact ⟨hok.length, hok.workers, hok.stop, hok.live, hok.unsaturated, results, hresults,
              hmain.2, rfl, hext (Or.inr (Or.inl hcancelled)), rfl, rfl⟩
          · simp only [if_neg hcancelled, Option.some.injEq] at h
            rw [← h]
            exact concludeMine_ok c initialLive ext s hok results hresults total hmain.2
      | returned result candidate =>
          rw [hpc] at h
          simp only [reduceCtorEq] at h

/-- Every step of the system keeps the invariant. -/
theorem mineStep_ok (hsize : covered (c.ranges.map NonceRange.span) < 2 ^ 64) (s : MineState)
    (a : MineAction) (s' : MineState) (hok : MineOk c initialLive ext s)
    (hext : External s.shared → ext) (h : mineStep c s a = some s') :
    MineOk c initialLive ext s' := by
  cases a with
  | worker i =>
      simp only [mineStep, Option.bind_eq_bind, Option.bind_eq_some_iff, Option.pure_def,
        Option.some.injEq] at h
      rcases h with ⟨range, hrange, w, hw, ⟨w', shared⟩, hstep, rfl⟩
      exact mineOk_worker c initialLive ext s hok i range w w' shared hrange hw hext hstep
  | main => exact mineOk_main c initialLive ext s s' hok hext hsize h
  | storeCancelled value =>
      simp only [mineStep, Option.some.injEq] at h
      rw [← h]
      exact mineOk_store c initialLive ext s _ hok rfl rfl rfl
  | storeCancelledSecondary value =>
      simp only [mineStep, Option.some.injEq] at h
      rw [← h]
      exact mineOk_store c initialLive ext s _ hok rfl rfl rfl
  | storeRefreshRequested value =>
      simp only [mineStep, Option.some.injEq] at h
      rw [← h]
      exact mineOk_store c initialLive ext s _ hok rfl rfl rfl

end

/-- A call that was entered: what it works on. -/
structure Entered (hashV1 : Bytes → UInt256) (candidate : BlockCandidate) (target : UInt256)
    (args : MineArguments) (c : MineContext) : Prop where
  hashV1_eq : c.hashV1 = hashV1
  candidate_eq : c.candidate = candidate
  target_eq : c.target = target
  nonceEnd_eq : c.nonceEnd = args.nonceEnd
  headed : ∃ body, candidate.serializedBlock = candidate.header.serialize ++ body
  tiles : Tiles args.nonceBegin.toNat (c.ranges.map NonceRange.span) (args.nonceEnd.toNat + 1)

theorem Entered.hashOf_eq (hashV1 : Bytes → UInt256) (candidate : BlockCandidate)
    (target : UInt256) (args : MineArguments) (c : MineContext)
    (h : Entered hashV1 candidate target args c) (nonce : UInt32) :
    c.hashOf nonce = hashV1 (headerBytes candidate.header nonce) := by
  rw [MineContext.hashOf, h.hashV1_eq, h.candidate_eq]

/-- A call on proper arguments is entered. -/
theorem mineStart_isOk (hashV1 : Bytes → UInt256) (candidate : BlockCandidate) (target : UInt256)
    (args : MineArguments) (hvalid : validateBlockCandidateForMining candidate = .ok ())
    (horder : args.nonceBegin ≤ args.nonceEnd) (hworkers : args.workerCount ≠ 0) :
    ∃ c s₀, mineStart hashV1 candidate target args = .ok (c, s₀) := by
  have hnot : ¬args.nonceBegin > args.nonceEnd := UInt32.not_lt.mpr horder
  cases h : mineStart hashV1 candidate target args with
  | ok entered => exact ⟨entered.1, entered.2, rfl⟩
  | error e =>
      simp only [mineStart, hvalid, partitionNonceRange, Outcome.check, if_pos hworkers,
        if_pos hnot, bind, Except.bind, pure, Except.pure, reduceCtorEq] at h

/-- Entering a call establishes the invariant. -/
theorem mineStart_ok (hashV1 : Bytes → UInt256) (candidate : BlockCandidate) (target : UInt256)
    (args : MineArguments) (c : MineContext) (s₀ : MineState)
    (h : mineStart hashV1 candidate target args = .ok (c, s₀)) :
    Entered hashV1 candidate target args c ∧ MineOk c args.liveHashes False s₀ := by
  simp only [mineStart, Outcome.bind_ok, Outcome.pure_ok, validate_ok, Prod.mk.injEq,
    exists_const] at h
  rcases h with ⟨hheaded, ranges, hranges, rfl, rfl⟩
  rcases partitionNonceRange_ok _ _ _ _ hranges with ⟨_, htiles, _⟩
  refine ⟨⟨rfl, rfl, rfl, rfl, hheaded, htiles⟩, ?_⟩
  have hcount : (ranges.map fun range =>
      (⟨.refreshBefore range.rangeBegin 0, []⟩ : Worker).hashed.length).sum = 0 :=
    List.sum_eq_zero fun x hx => by
      rcases List.mem_map.mp hx with ⟨_, _, rfl⟩
      rfl
  refine ⟨List.length_map _, fun i range w hr hw => ?_, fun hstop => ?_, ?_, rfl, trivial⟩
  · simp only [List.getElem?_map] at hw hr
    rw [hr, Option.map_some, Option.some.injEq] at hw
    have hspan : range.span ∈ ranges.map NonceRange.span :=
      List.mem_map_of_mem (List.mem_of_getElem? hr)
    rcases tiles_bounds _ _ _ htiles range.span hspan with ⟨_, hlt, _⟩
    rw [← hw]
    exact ⟨Progress.nil _ range, Nat.le_of_lt_succ hlt, rfl⟩
  · exact absurd hstop Bool.false_ne_true
  · simp only [MineState.hashCount, List.map_map, Function.comp_def]
    rw [hcount]
    cases args.liveHashes with
    | none => rfl
    | some n => exact congrArg some (UInt64.add_zero n).symm

/-- At some point of a run one of the caller's flags was up. -/
def ExternalSeen (c : MineContext) (s₀ : MineState) (acts : List MineAction) : Prop :=
  ∃ pre t, pre <+: acts ∧ run (mineStep c) s₀ pre = some t ∧ External t.shared

/-- Every reachable state of a call satisfies the invariant. -/
theorem mine_reachable_ok (hashV1 : Bytes → UInt256) (candidate : BlockCandidate)
    (target : UInt256) (args : MineArguments) (c : MineContext) (s₀ : MineState)
    (hstart : mineStart hashV1 candidate target args = .ok (c, s₀)) (acts : List MineAction)
    (s : MineState) (hrun : run (mineStep c) s₀ acts = some s) :
    Entered hashV1 candidate target args c ∧
    MineOk c args.liveHashes (ExternalSeen c s₀ acts) s := by
  rcases mineStart_ok hashV1 candidate target args c s₀ hstart with ⟨hentered, hok⟩
  have hcovered := tiles_covered _ _ _ hentered.tiles
  have hend := args.nonceEnd.toNat_lt
  refine ⟨hentered, ?_⟩
  refine run_trace_invariant (mineStep c)
    (fun tr t => MineOk c args.liveHashes (ExternalSeen c s₀ tr) t) s₀
    (hok.later c args.liveHashes False _ s₀ False.elim) (fun tr t a t' htr ht ha => ?_)
    acts s hrun
  have hgrow : ExternalSeen c s₀ tr → ExternalSeen c s₀ (tr ++ [a]) := by
    rintro ⟨pre, u, hpre, hu, hup⟩
    exact ⟨pre, u, hpre.trans (List.prefix_append tr [a]), hu, hup⟩
  exact mineStep_ok c args.liveHashes _ (by omega) t a t' (ht.later c args.liveHashes _ _ t hgrow)
    (fun hup => ⟨tr, t, List.prefix_append tr [a], htr, hup⟩) ha

end MercaMiner
