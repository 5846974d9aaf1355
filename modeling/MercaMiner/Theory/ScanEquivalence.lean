import MercaMiner.Theory.MineProgress
import MercaMiner.Theory.PadIndependence

/-!
# Chunks and Threads Do Not Change the Scan

The parallel miner's workers compute what plain scans would.

A worker of a call meets the shared flags at moments the schedule picks. What
it read can be written down afterwards, one value for each reading, and run
alone against these values the worker does the same. So what holds of a worker
run alone holds of every worker of every call. A call with one worker whose
flags stay down is then one scan of the whole range, which is what mining a
candidate with a single scanner does.

## Main definitions

* `WorkerPc.reads`: The flag a worker reads next.
* `WorkerReadings.until`: Readings replaced from some moment on.
* `SeenBy`: The shared variables a worker met.

## Theorems

* `worker_driven`: A worker of a call is a worker run alone.
* `scan_of_rest`: What is left of a scan that has just begun is the scan.
* `worker_scan`: A worker recorded what one scan of its range returns.
* `single_worker_result`: A call with one worker returns what a scan does.
* `chunked_scan_equiv`: The equivalence.
-/

namespace MercaMiner

open Tiling Transition

/-- The flag a worker reads next. -/
def WorkerPc.reads (pc : WorkerPc) (shared : Shared) : Bool :=
  match pc with
  | .refreshBefore _ _ => raised shared.refreshRequested
  | .refreshAfter _ _ => raised shared.refreshRequested
  | .scanning .readCancelled _ _ => shared.stop
  | .scanning .readCancelledSecondary _ _ => raised shared.cancelled
  | .scanning .readCancelledTertiary _ _ => raised shared.cancelledSecondary
  | _ => false

/-- Readings up to a moment, and from then on what one state shows. -/
def WorkerReadings.until (readings : WorkerReadings) (t : Nat) (shared : Shared) :
    WorkerReadings where
  refreshAfter i := if 6 * i < t then readings.refreshAfter i else shared.refreshRequested
  refreshBefore i := if 6 * i + 1 < t then readings.refreshBefore i else shared.refreshRequested
  stop i := if 6 * i + 2 < t then readings.stop i else shared.stop
  cancelled i := if 6 * i + 3 < t then readings.cancelled i else shared.cancelled
  cancelledSecondary i :=
    if 6 * i + 4 < t then readings.cancelledSecondary i else shared.cancelledSecondary

/-- Every reading is what its flag held in one of some states. -/
structure WorkerReadings.From (readings : WorkerReadings) (P : Shared → Prop) : Prop where
  stop : ∀ i, ∃ shared, P shared ∧ readings.stop i = shared.stop
  cancelled : ∀ i, ∃ shared, P shared ∧ readings.cancelled i = shared.cancelled
  cancelledSecondary : ∀ i, ∃ shared, P shared ∧
    readings.cancelledSecondary i = shared.cancelledSecondary
  refreshBefore : ∀ i, ∃ shared, P shared ∧
    readings.refreshBefore i = shared.refreshRequested
  refreshAfter : ∀ i, ∃ shared, P shared ∧ readings.refreshAfter i = shared.refreshRequested

/-- The shared variables in the states of a run in which a worker was still
    running. -/
def SeenBy (c : MineContext) (s₀ : MineState) (acts : List MineAction) (i : Nat)
    (shared : Shared) : Prop :=
  ∃ pre t v, pre <+: acts ∧ run (mineStep c) s₀ pre = some t ∧ t.shared = shared ∧
    t.workers[i]? = some v ∧ v.pc.result = none

section

variable (c : MineContext) (range : NonceRange)

/-- A worker's step depends on the flag it reads. -/
theorem workerStep_reads (shared other : Shared) (w : Worker)
    (h : w.pc.reads shared = w.pc.reads other) :
    (workerStep c range shared w).map Prod.fst = (workerStep c range other w).map Prod.fst := by
  -- The variables a step changes do not enter the worker it leaves.
  have hread (workerHashes : UInt64) (frame : ScanFrame) (seen : Bool) (next : ScanPoint) :
      (w.readFlag range workerHashes frame seen next shared).1
        = (w.readFlag range workerHashes frame seen next other).1 := by
    cases seen with
    | true => rfl
    | false => rfl
  cases hpc : w.pc with
  | refreshBefore chunkBegin workerHashes =>
      rw [hpc] at h
      have hraised : raised shared.refreshRequested = raised other.refreshRequested := h
      simp only [workerStep, hpc, hraised]
      split
      · rfl
      · rfl
  | scanning point workerHashes frame =>
      rw [hpc] at h
      cases point with
      | readCancelled =>
          have hstop : shared.stop = other.stop := h
          simp only [workerStep, hpc, hstop, Option.map_some, hread]
      | readCancelledSecondary =>
          have hraised : raised shared.cancelled = raised other.cancelled := h
          simp only [workerStep, hpc, hraised, Option.map_some, hread]
      | readCancelledTertiary =>
          have hraised : raised shared.cancelledSecondary = raised other.cancelledSecondary := h
          simp only [workerStep, hpc, hraised, Option.map_some, hread]
      | hash =>
          simp only [workerStep, hpc, Option.map_some, Worker.hashNonce]
          cases frame.conclude c.target (c.hashOf frame.nonce) with
          | inr chunk => rfl
          | inl next => rfl
  | storeStop result => simp only [workerStep, hpc, Option.map_some, Worker.goto]
  | refreshAfter chunkEnd workerHashes =>
      rw [hpc] at h
      have hraised : raised shared.refreshRequested = raised other.refreshRequested := h
      simp only [workerStep, hpc, hraised]
      split
      · rfl
      · rfl
  | done result => simp only [workerStep, hpc]
  | threw => simp only [workerStep, hpc]

/-- Before the moment a worker reads as it did, and from then on it reads the
    state. -/
theorem until_reads (readings : WorkerReadings) (t : Nat) (shared : Shared) (w : Worker) :
    w.pc.reads ((readings.until t shared).shared w) =
      if w.clock < t then w.pc.reads (readings.shared w) else w.pc.reads shared := by
  unfold Worker.clock
  cases hpc : w.pc with
  | refreshBefore chunkBegin workerHashes =>
      simp only [WorkerPc.reads, WorkerReadings.shared, hpc]
      exact apply_ite raised _ _ _
  | scanning point workerHashes frame =>
      cases point with
      | readCancelled => exact rfl
      | readCancelledSecondary => exact apply_ite raised _ _ _
      | readCancelledTertiary => exact apply_ite raised _ _ _
      | hash => exact (ite_self false).symm
  | storeStop result => exact (ite_self false).symm
  | refreshAfter chunkEnd workerHashes =>
      simp only [WorkerPc.reads, WorkerReadings.shared, hpc]
      exact apply_ite raised _ _ _
  | done result => exact (ite_self false).symm
  | threw => exact (ite_self false).symm

theorem workerRun_clock (readings : WorkerReadings) (n : Nat) :
    ∀ v w, workerRun c range readings n v = some w → v.clock ≤ w.clock :=
  fun v w => workerRun_invariant c range readings (fun u => v.clock ≤ u.clock)
    (fun u u' shared' hle h => Nat.le_trans hle
      (Nat.le_of_lt (workerStep_clock c range _ u u' shared' h))) n v w (Nat.le_refl _)

/-- A run up to some moment is not changed by what is read from then on. -/
theorem workerRun_until (readings : WorkerReadings) (t : Nat) (shared : Shared) (n : Nat) :
    ∀ v w, workerRun c range readings n v = some w → w.clock ≤ t →
      workerRun c range (readings.until t shared) n v = some w := by
  induction n with
  | zero => exact fun v w hrun _ => hrun
  | succ k ih =>
      intro v w hrun hle
      rw [workerRun] at hrun ⊢
      cases hstep : workerStep c range (readings.shared v) v with
      | none =>
          rw [hstep] at hrun
          exact absurd hrun (by simp only [reduceCtorEq, not_false_eq_true])
      | some after =>
          rw [hstep] at hrun
          -- The step was taken before the run ended, so before the moment.
          have hclock := workerStep_clock c range _ v after.1 after.2 hstep
          have hlater := workerRun_clock c range readings k after.1 w hrun
          have hsame := workerStep_reads c range ((readings.until t shared).shared v)
            (readings.shared v) v (by rw [until_reads, if_pos (by omega)])
          rw [hstep, Option.map_some, Option.map_eq_some_iff] at hsame
          rcases hsame with ⟨after', hstep', hworker⟩
          rw [hstep']
          simp only [hworker]
          exact ih after.1 w hrun hle

theorem workerRun_snoc (readings : WorkerReadings) (n : Nat) :
    ∀ v w w', workerRun c range readings n v = some w →
      (workerStep c range (readings.shared w) w).map Prod.fst = some w' →
      workerRun c range readings (n + 1) v = some w' := by
  induction n with
  | zero =>
      intro v w w' hrun hstep
      rw [workerRun, Option.some.injEq] at hrun
      rcases Option.map_eq_some_iff.mp hstep with ⟨after, hafter, rfl⟩
      simp only [workerRun, hrun, hafter]
  | succ k ih =>
      intro v w w' hrun hstep
      rw [workerRun] at hrun ⊢
      cases hfirst : workerStep c range (readings.shared v) v with
      | none =>
          rw [hfirst] at hrun
          exact absurd hrun (by simp only [reduceCtorEq, not_false_eq_true])
      | some after =>
          rw [hfirst] at hrun
          exact ih after.1 w w' hrun hstep

/-- One more step of a run, taken in a state that shows anything at all. -/
theorem workerRun_extend (readings : WorkerReadings) (n : Nat) (v w w' : Worker)
    (shared shared' : Shared) (hrun : workerRun c range readings n v = some w)
    (hstep : workerStep c range shared w = some (w', shared')) :
    workerRun c range (readings.until w.clock shared) (n + 1) v = some w' := by
  refine workerRun_snoc c range _ n v w w'
    (workerRun_until c range readings w.clock shared n v w hrun (Nat.le_refl _)) ?_
  rw [workerStep_reads c range _ shared w (by rw [until_reads, if_neg (Nat.lt_irrefl _)]), hstep]
  rfl

theorem WorkerReadings.From.mono (readings : WorkerReadings) (P Q : Shared → Prop)
    (h : readings.From P) (hPQ : ∀ shared, P shared → Q shared) : readings.From Q := by
  have hsome (R : Shared → Prop) (hR : ∃ shared, P shared ∧ R shared) :
      ∃ shared, Q shared ∧ R shared :=
    Exists.imp (fun shared hs => ⟨hPQ shared hs.1, hs.2⟩) hR
  exact ⟨fun i => hsome _ (h.stop i), fun i => hsome _ (h.cancelled i),
    fun i => hsome _ (h.cancelledSecondary i), fun i => hsome _ (h.refreshBefore i),
    fun i => hsome _ (h.refreshAfter i)⟩

theorem WorkerReadings.From.until (readings : WorkerReadings) (P : Shared → Prop) (t : Nat)
    (shared : Shared) (h : readings.From P) (hshared : P shared) :
    (readings.until t shared).From P := by
  have hfield {α : Type} (field : Shared → α) (b : Prop) [Decidable b] (old : α)
      (hold : ∃ s, P s ∧ old = field s) :
      ∃ s, P s ∧ (if b then old else field shared) = field s := by
    by_cases hb : b
    · rw [if_pos hb]
      exact hold
    · rw [if_neg hb]
      exact ⟨shared, hshared, rfl⟩
  exact ⟨fun i => hfield Shared.stop _ _ (h.stop i),
    fun i => hfield Shared.cancelled _ _ (h.cancelled i),
    fun i => hfield Shared.cancelledSecondary _ _ (h.cancelledSecondary i),
    fun i => hfield Shared.refreshRequested _ _ (h.refreshBefore i),
    fun i => hfield Shared.refreshRequested _ _ (h.refreshAfter i)⟩

theorem workerStep_running (shared : Shared) (w : Worker) (after : Worker × Shared)
    (h : workerStep c range shared w = some after) : w.pc.result = none := by
  cases hpc : w.pc with
  | done result => simp only [workerStep, hpc, reduceCtorEq] at h
  | refreshBefore chunkBegin workerHashes => rfl
  | scanning point workerHashes frame => rfl
  | storeStop result => rfl
  | refreshAfter chunkEnd workerHashes => rfl
  | threw => rfl

theorem mainStep_workers (s s' : MineState) (h : mainStep c s = some s') :
    s'.workers = s.workers := by
  cases hresults : s.results with
  | none => simp only [mainStep, hresults, reduceCtorEq] at h
  | some results =>
      simp only [mainStep, hresults] at h
      cases hpc : s.main with
      | joining =>
          simp only [hpc, Option.some.injEq] at h
          rw [← h]
      | readCancelled total =>
          simp only [hpc] at h
          split at h
          · rw [← Option.some.inj h]
          · rw [← Option.some.inj h]
      | readCancelledSecondary total =>
          simp only [hpc] at h
          split at h
          · rw [← Option.some.inj h]
          · rw [← Option.some.inj h]
      | returned result after => simp only [hpc, reduceCtorEq] at h

theorem SeenBy.snoc (s₀ : MineState) (tr : List MineAction) (a : MineAction) (i : Nat)
    (shared : Shared) (h : SeenBy c s₀ tr i shared) : SeenBy c s₀ (tr ++ [a]) i shared := by
  rcases h with ⟨pre, t, v, hpre, hmet⟩
  exact ⟨pre, t, v, hpre.trans (List.prefix_append tr [a]), hmet⟩

/-- A worker of a call is a worker run alone, against readings of flags as
    they were in states of the call. -/
theorem worker_driven (s₀ : MineState) (hstart : s₀.workers = c.ranges.map Worker.start)
    (acts : List MineAction) (s : MineState) (hrun : run (mineStep c) s₀ acts = some s) (i : Nat)
    (hrange : c.ranges[i]? = some range) (w : Worker) (hw : s.workers[i]? = some w) :
    ∃ readings n, WorkerReadings.From readings (SeenBy c s₀ acts i) ∧
      workerRun c range readings n (Worker.start range) = some w := by
  refine run_trace_invariant (mineStep c)
    (fun tr t => ∀ w, t.workers[i]? = some w → ∃ readings n,
      WorkerReadings.From readings (SeenBy c s₀ tr i) ∧
        workerRun c range readings n (Worker.start range) = some w)
    s₀ (fun w hw => ?_) (fun tr t a t' htr ih ha w hw => ?_) acts s hrun w hw
  · rw [hstart, List.getElem?_map, hrange, Option.map_some, Option.some.injEq] at hw
    -- A worker that has not moved has read nothing.
    have hmet : SeenBy c s₀ [] i s₀.shared := by
      refine ⟨[], s₀, Worker.start range, List.prefix_refl _, rfl, rfl, ?_, rfl⟩
      rw [hstart, List.getElem?_map, hrange, Option.map_some]
    exact ⟨⟨fun _ => s₀.shared.stop, fun _ => s₀.shared.cancelled,
      fun _ => s₀.shared.cancelledSecondary, fun _ => s₀.shared.refreshRequested,
      fun _ => s₀.shared.refreshRequested⟩, 0,
      ⟨fun _ => ⟨_, hmet, rfl⟩, fun _ => ⟨_, hmet, rfl⟩, fun _ => ⟨_, hmet, rfl⟩,
        fun _ => ⟨_, hmet, rfl⟩, fun _ => ⟨_, hmet, rfl⟩⟩, congrArg some hw⟩
  -- A step of another thread leaves the worker where it was.
  have hkept (hworkers : t'.workers[i]? = t.workers[i]?) : ∃ readings n,
      WorkerReadings.From readings (SeenBy c s₀ (tr ++ [a]) i) ∧
        workerRun c range readings n (Worker.start range) = some w := by
    rw [hworkers] at hw
    rcases ih w hw with ⟨readings, n, hfrom, hreach⟩
    exact ⟨readings, n, hfrom.mono readings _ _ fun shared h => h.snoc c s₀ tr a i shared, hreach⟩
  cases a with
  | worker j =>
      simp only [mineStep, Option.bind_eq_bind, Option.bind_eq_some_iff, Option.pure_def,
        Option.some.injEq] at ha
      rcases ha with ⟨range', hrange', v, hv, ⟨v', shared⟩, hstep, rfl⟩
      by_cases hij : j = i
      · subst hij
        rw [hrange, Option.some.injEq] at hrange'
        subst hrange'
        have hw' : v' = w := by
          rw [List.getElem?_set_self (List.getElem?_eq_some_iff.mp hv).1,
            Option.some.injEq] at hw
          exact hw
        subst hw'
        rcases ih v hv with ⟨readings, n, hfrom, hreach⟩
        -- From this step on the readings are those of the state it was taken in.
        have hmet : SeenBy c s₀ (tr ++ [.worker j]) j t.shared :=
          ⟨tr, t, v, List.prefix_append tr _, htr, rfl, hv,
            workerStep_running c range t.shared v _ hstep⟩
        exact ⟨readings.until v.clock t.shared, n + 1,
          (hfrom.mono readings _ _ fun shared h => h.snoc c s₀ tr _ j shared).until readings _ _ _
            hmet,
          workerRun_extend c range readings n _ v v' t.shared shared hreach hstep⟩
      · exact hkept (List.getElem?_set_ne hij)
  | main => exact hkept (by rw [mainStep_workers c t t' ha])
  | storeCancelled value =>
      simp only [mineStep, Option.some.injEq] at ha
      exact hkept (by rw [← ha])
  | storeCancelledSecondary value =>
      simp only [mineStep, Option.some.injEq] at ha
      exact hkept (by rw [← ha])
  | storeRefreshRequested value =>
      simp only [mineStep, Option.some.injEq] at ha
      exact hkept (by rw [← ha])

/-- The readings of a scan enter through whether any flag is up. -/
theorem restScan_congr (flags flags' : Nat → FlagReadings)
    (hany : ∀ i, (flags i).any = (flags' i).any) (f : ScanFrame) (h : Nat) :
    restScan c flags f h = restScan c flags' f h :=
  scanLoop_congr _ _ _ _ (fun _ _ _ => rfl) _ _ _ (fun i => hany (h + i)) f () ()

/-- What is left of a scan that has just begun is the scan, with any function
    that computes the hashes in a scratchpad. -/
theorem scan_of_rest {Pad : Type} (hashV1 : Bytes → Pad → UInt256 × Pad)
    (hhash : ∀ nonce pad, (hashV1 (headerBytes c.candidate.header nonce) pad).1 = c.hashOf nonce)
    (readings : Nat → FlagReadings) (nonceBegin nonceEnd : UInt32)
    (hle : nonceBegin.toNat ≤ nonceEnd.toNat) (pad : Pad) (result : ScanResult)
    (h : restScan c readings (ScanFrame.start nonceBegin nonceEnd) 0 = some result) :
    ∃ final, scan hashV1 c.candidate.header c.target readings nonceBegin nonceEnd pad
      = .ok (some (result, final)) := by
  have horder : ¬nonceBegin > nonceEnd := by
    rw [gt_iff_lt, UInt32.lt_iff_toNat_lt]
    omega
  have hfuel : (nonceEnd - nonceBegin).toNat = nonceEnd.toNat - nonceBegin.toNat :=
    UInt32.toNat_sub_of_le _ _ (UInt32.le_iff_toNat_le.mpr hle)
  -- The scratchpad plays no part in the hashes.
  have hloop := scanLoop_congr hashV1 c.candidate.header c.target
    (fun bytes (_ : Unit) => (c.hashV1 bytes, ())) (fun nonce pad _ => hhash nonce pad)
    (nonceEnd.toNat - nonceBegin.toNat + 1) readings (fun i => readings (0 + i))
    (fun i => by rw [Nat.zero_add]) (ScanFrame.start nonceBegin nonceEnd) pad ()
  have hresult := hloop.trans h
  rcases Option.map_eq_some_iff.mp hresult with ⟨⟨r, final⟩, hr, heq⟩
  refine ⟨final, ?_⟩
  rw [scan, if_neg horder, hfuel, hr]
  simp only at heq
  rw [heq]

/-- Flags that are never up. -/
def quietReadings : WorkerReadings :=
  ⟨fun _ => false, fun _ => none, fun _ => none, fun _ => none, fun _ => none⟩

/-- A scan that nobody cancels returns. -/
theorem quiet_scan (hle : range.rangeBegin.toNat ≤ range.rangeEnd.toNat) :
    ∃ result, ∀ flags : Nat → FlagReadings, (∀ i, (flags i).any = false) →
      restScan c flags (ScanFrame.start range.rangeBegin range.rangeEnd) 0 = some result := by
  rcases workerRun_finishes c range quietReadings _ (Worker.start range)
    (workerOk_start c range True _ hle) (Nat.lt_succ_self _) with ⟨n, w, result, hrun, hdone⟩
  have hrest := workerRun_rest c range quietReadings hle (fun _ => rfl) (fun _ => rfl) n w hrun
  simp only [uninterrupted, hdone] at hrest
  refine ⟨result, fun flags hquiet => ?_⟩
  rw [hrest]
  exact restScan_congr c flags quietReadings.flags (fun i => hquiet i) _ _

end

section

variable (hashV1 : Bytes → UInt256) (candidate : BlockCandidate) (target : UInt256)
  (args : MineArguments) (c : MineContext) (s₀ : MineState)

theorem mineStart_ranges (h : mineStart hashV1 candidate target args = .ok (c, s₀)) :
    partitionNonceRange args.nonceBegin args.nonceEnd args.workerCount = .ok c.ranges ∧
    s₀.workers = c.ranges.map Worker.start := by
  simp only [mineStart, Outcome.bind_ok, Outcome.pure_ok, Prod.mk.injEq] at h
  rcases h with ⟨_, _, ranges, hranges, rfl, rfl⟩
  exact ⟨hranges, rfl⟩

/-- One worker gets the whole range. -/
theorem partition_single (nonceBegin nonceEnd : UInt32) (ranges : List NonceRange)
    (h : partitionNonceRange nonceBegin nonceEnd 1 = .ok ranges) :
    ranges = [⟨nonceBegin, nonceEnd⟩] := by
  rcases partitionNonceRange_ok nonceBegin nonceEnd 1 ranges h with ⟨hle, htiles, hlength⟩
  have hone : ranges.length = 1 := by
    rw [hlength, UInt64.toNat_one]
    omega
  rcases List.length_eq_one_iff.mp hone with ⟨r, rfl⟩
  rcases r with ⟨rangeBegin, rangeEnd⟩
  rcases htiles with ⟨hbegin, _, hend⟩
  have hbegin : rangeBegin = nonceBegin := UInt32.toNat_inj.mp hbegin
  have hend : rangeEnd = nonceEnd := UInt32.toNat_inj.mp (Nat.succ.inj hend)
  rw [hbegin, hend]

/-- While a lone worker runs, the stop flag is down, and so are the caller's
    flags if nobody sets them. -/
theorem seenBy_quiet (hstart : mineStart hashV1 candidate target args = .ok (c, s₀))
    (hone : c.ranges.length = 1) (acts : List MineAction) (shared : Shared)
    (hexternal : ¬ExternalSeen c s₀ acts) (h : SeenBy c s₀ acts 0 shared) :
    shared.stop = false ∧ raised shared.cancelled = false ∧
      raised shared.cancelledSecondary = false ∧ raised shared.refreshRequested = false := by
  rcases h with ⟨pre, t, v, hpre, hrun, rfl, hv, hrunning⟩
  have hok := (mine_reachable_ok hashV1 candidate target args c s₀ hstart pre t hrun).2
  have hdown : ¬External t.shared := fun hup => hexternal ⟨pre, t, hpre, hrun, hup⟩
  simp only [External, not_or, Bool.not_eq_true] at hdown
  refine ⟨Bool.eq_false_of_not_eq_true fun hup => ?_, hdown⟩
  -- Whoever raised it has finished, and there is only this worker.
  rcases hok.stop hup with ⟨i, w, result, hw, hdone, _⟩
  have hi := (List.getElem?_eq_some_iff.mp hw).1
  have hlen := hok.length
  have hzero : i = 0 := by omega
  rw [hzero, hv, Option.some.injEq] at hw
  rw [hw, hdone] at hrunning
  exact absurd hrunning (by simp only [WorkerPc.result, reduceCtorEq, not_false_eq_true])

/-- In a call in which no refresh is ever seen, a worker that has finished
    recorded what one scan of its range returns against the flags it saw. -/
theorem worker_scan (hstart : mineStart hashV1 candidate target args = .ok (c, s₀))
    (acts : List MineAction) (s : MineState) (hrun : run (mineStep c) s₀ acts = some s) (i : Nat)
    (range : NonceRange) (hrange : c.ranges[i]? = some range) (w : Worker) (result : ScanResult)
    (hw : s.workers[i]? = some w) (hdone : w.pc = .done result)
    (hrefresh : ∀ shared, SeenBy c s₀ acts i shared → raised shared.refreshRequested = false) :
    ∃ readings : WorkerReadings, readings.From (SeenBy c s₀ acts i) ∧
      restScan c readings.flags (ScanFrame.start range.rangeBegin range.rangeEnd) 0
        = some result := by
  rcases mineStart_ranges hashV1 candidate target args c s₀ hstart with ⟨hpartition, hworkers⟩
  rcases partitionNonceRange_ok _ _ _ _ hpartition with ⟨_, htiles, _⟩
  have hle := (tiles_bounds _ _ _ htiles range.span
    (List.mem_map_of_mem (List.mem_of_getElem? hrange))).2.1
  rcases worker_driven c range s₀ hworkers acts s hrun i hrange w hw with
    ⟨readings, n, hfrom, hreach⟩
  have hquiet (field : Nat → Flag)
      (h : ∀ i', ∃ shared, SeenBy c s₀ acts i shared ∧ field i' = shared.refreshRequested)
      (i' : Nat) : raised (field i') = false := by
    rcases h i' with ⟨shared, hseen, heq⟩
    rw [heq]
    exact hrefresh shared hseen
  have hrest := workerRun_rest c range readings (Nat.le_of_lt_succ hle)
    (hquiet _ hfrom.refreshBefore) (hquiet _ hfrom.refreshAfter) n w hreach
  simp only [uninterrupted, hdone] at hrest
  exact ⟨readings, hfrom, hrest.symm⟩

/-- A scan by a lone worker reads no flag that is up, if nobody sets one. -/
theorem lone_worker_flags (hstart : mineStart hashV1 candidate target args = .ok (c, s₀))
    (hone : c.ranges.length = 1) (acts : List MineAction) (hexternal : ¬ExternalSeen c s₀ acts)
    (readings : WorkerReadings) (hfrom : readings.From (SeenBy c s₀ acts 0)) (i : Nat) :
    (readings.flags i).any = false := by
  have hseen (shared : Shared) (h : SeenBy c s₀ acts 0 shared) :=
    seenBy_quiet hashV1 candidate target args c s₀ hstart hone acts shared hexternal h
  rcases hfrom.stop i with ⟨_, hstop, heq⟩
  rcases hfrom.cancelled i with ⟨_, hcancelled, heq'⟩
  rcases hfrom.cancelledSecondary i with ⟨_, hsecondary, heq''⟩
  rw [FlagReadings.any, WorkerReadings.flags, heq, heq', heq'', raised_some,
    (hseen _ hstop).1, (hseen _ hcancelled).2.1, (hseen _ hsecondary).2.2.1]
  rfl

/-- A lone worker has the only result. -/
theorem results_single (s : MineState) (results : List ScanResult)
    (hresults : s.results = some results) (w : Worker) (hworkers : s.workers = [w]) :
    ∃ r, results = [r] ∧ w.pc = .done r := by
  have hw : s.workers[0]? = some w := by rw [hworkers, List.getElem?_cons_zero]
  have hlength := results_length s results hresults
  rw [hworkers] at hlength
  rcases results_entry s results hresults 0 w hw with ⟨r, hr, hdone⟩
  rcases List.length_eq_one_iff.mp hlength with ⟨q, rfl⟩
  rw [List.getElem?_cons_zero, Option.some.injEq] at hr
  exact ⟨r, by rw [hr], hdone⟩

/-- What a call with a single worker returns, when nobody sets a flag. -/
theorem single_worker_result (hstart : mineStart hashV1 candidate target args = .ok (c, s₀))
    (hone : c.ranges = [⟨args.nonceBegin, args.nonceEnd⟩]) (result : ScanResult)
    (hscan : ∀ flags : Nat → FlagReadings, (∀ i, (flags i).any = false) →
      restScan c flags (ScanFrame.start args.nonceBegin args.nonceEnd) 0 = some result)
    (acts : List MineAction) (s : MineState) (hrun : run (mineStep c) s₀ acts = some s)
    (hexternal : ¬ExternalSeen c s₀ acts) (r : ParallelMineResult) (after : BlockCandidate)
    (hmain : s.main = .returned r after) :
    r.status = result.status ∧ r.hashesChecked = result.hashesChecked ∧
      (r.status = .found → r.nonce = result.nonce ∧ r.hash = result.hash) ∧
      after = if result.status ≠ .found then candidate
        else applySolvedNonce candidate result.nonce := by
  rcases mine_reachable_ok hashV1 candidate target args c s₀ hstart acts s hrun with
    ⟨hentered, hok⟩
  have hmainOk := hok.main
  rw [MainOk, hmain] at hmainOk
  rcases hmainOk with ⟨results, hresults, hcount, _, hconcluded⟩
  have hranges : c.ranges.length = 1 := by rw [hone, List.length_singleton]
  rcases List.length_eq_one_iff.mp (hok.length.trans hranges) with ⟨w, hworkers⟩
  have hw : s.workers[0]? = some w := by rw [hworkers, List.getElem?_cons_zero]
  have hrange : c.ranges[0]? = some ⟨args.nonceBegin, args.nonceEnd⟩ := by
    rw [hone, List.getElem?_cons_zero]
  rcases results_single s results hresults w hworkers with ⟨recorded, hsingle, hdone⟩
  -- The lone worker recorded what the scan returns.
  rcases worker_scan hashV1 candidate target args c s₀ hstart acts s hrun 0 _ hrange w recorded hw
    hdone (fun shared h => (seenBy_quiet hashV1 candidate target args c s₀ hstart hranges acts
      shared hexternal h).2.2.2) with ⟨readings, hfrom, hrest⟩
  rw [hscan readings.flags (lone_worker_flags hashV1 candidate target args c s₀ hstart hranges acts
    hexternal readings hfrom), Option.some.injEq] at hrest
  rw [hrest]
  -- It counted the nonces it hashed, and the call adds up these counts.
  have hchecked : r.hashesChecked = recorded.hashesChecked := by
    have hwok := hok.workers 0 _ w hrange hw
    rw [WorkerOk, hdone] at hwok
    refine UInt64.toNat_inj.mp ?_
    rw [hcount, hwok.2, MineState.hashCount, hworkers, List.map_singleton, List.sum_singleton]
  have hcandidate := hentered.candidate_eq
  cases hstatus : r.status with
  | found =>
      rw [hstatus] at hconcluded
      rcases hconcluded with ⟨i, best, _, ⟨hbest, hfound, _⟩, hnonce, hhash, hafter⟩
      rw [hsingle, List.getElem?_singleton] at hbest
      split at hbest
      · rw [Option.some.injEq] at hbest
        rw [hbest, hfound]
        refine ⟨rfl, hbest ▸ hchecked, fun _ => ⟨hnonce, hhash⟩, ?_⟩
        rw [hafter, hcandidate, if_neg (not_not.mpr rfl)]
      · exact absurd hbest (by simp only [reduceCtorEq, not_false_eq_true])
  | exhausted =>
      rw [hstatus] at hconcluded
      rcases hconcluded with ⟨hall, _, _, hafter⟩
      have hexhausted := hall recorded (hsingle ▸ List.mem_singleton_self recorded)
      rw [hexhausted, if_pos (by decide), hafter, hcandidate]
      exact ⟨rfl, hchecked, fun h => absurd h (by decide), rfl⟩
  | cancelled =>
      rw [hstatus] at hconcluded
      exact absurd hconcluded.1 hexternal

end

/-- The hash of some bytes, as a scanner just constructed computes it. -/
def freshHashV1 (sha3_512 : Bytes → Vector UInt8 64) (sha3_256 : Bytes → UInt256)
    (bytes : Bytes) : UInt256 :=
  (Mercahash.scannerHash sha3_512 sha3_256 bytes Mercahash.freshScratchpad).1

section

variable (sha3_512 : Bytes → Vector UInt8 64) (sha3_256 : Bytes → UInt256)

/-- One scan of a range returns a result, whatever its scratchpad holds. -/
def ScanReturns (header : BlockHeader) (target : UInt256) (readings : Nat → FlagReadings)
    (range : NonceRange) (result : ScanResult) : Prop :=
  ∀ pad, ∃ final, scan (Mercahash.scannerHash sha3_512 sha3_256) header target readings
    range.rangeBegin range.rangeEnd pad = .ok (some (result, final))

/-- A worker never sees a refresh. -/
def WorkerReadings.NoRefresh (readings : WorkerReadings) : Prop :=
  ∀ i, raised (readings.refreshBefore i) = false ∧ raised (readings.refreshAfter i) = false

theorem scanReturns_of_rest (c : MineContext) (hhash : c.hashV1 = freshHashV1 sha3_512 sha3_256)
    (readings : Nat → FlagReadings) (range : NonceRange)
    (hle : range.rangeBegin.toNat ≤ range.rangeEnd.toNat) (result : ScanResult)
    (h : restScan c readings (ScanFrame.start range.rangeBegin range.rangeEnd) 0 = some result) :
    ScanReturns sha3_512 sha3_256 c.candidate.header c.target readings range result := by
  intro pad
  refine scan_of_rest c (Mercahash.scannerHash sha3_512 sha3_256) (fun nonce pad => ?_) readings _ _
    hle pad result h
  rw [MineContext.hashOf, hhash, Mercahash.scannerHash_forgets sha3_512 sha3_256 _ nonce pad
    Mercahash.freshScratchpad]
  rfl

theorem worker_records (c : MineContext) (range : NonceRange) (readings : WorkerReadings)
    (hhash : c.hashV1 = freshHashV1 sha3_512 sha3_256)
    (hle : range.rangeBegin.toNat ≤ range.rangeEnd.toNat) (n : Nat) (w : Worker)
    (result : ScanResult) (hrun : workerRun c range readings n (Worker.start range) = some w)
    (hdone : w.pc = .done result) :
    (readings.NoRefresh → ScanReturns sha3_512 sha3_256 c.candidate.header c.target
      readings.flags range result) ∧
    w.hashed.map UInt32.toNat = List.range' range.rangeBegin.toNat w.hashed.length ∧
    range.rangeBegin.toNat + w.hashed.length ≤ range.rangeEnd.toNat + 1 ∧
    Ended range readings w result := by
  have hok := workerRun_ok c range readings hle n w hrun
  have hchunk := workerRun_chunks c range readings hle n w hrun
  have hscanned := hok.scanned c range True _ w
  rw [ChunkOk, hdone] at hchunk
  refine ⟨fun hrefresh => ?_, hscanned.1, hscanned.2, hchunk⟩
  have hrest := workerRun_rest c range readings hle (fun i => (hrefresh i).1)
    (fun i => (hrefresh i).2) n w hrun
  simp only [uninterrupted, hdone] at hrest
  exact scanReturns_of_rest sha3_512 sha3_256 c hhash readings.flags range hle result hrest.symm

/-- Mining a candidate with one scanner, on a scan that returns. -/
theorem mineBlockCandidate_eq (candidate : BlockCandidate) (target : UInt256)
    (range : NonceRange) (cancelled : Nat → Flag) (result : ScanResult)
    (hvalid : validateBlockCandidateForMining candidate = .ok ())
    (hscan : ScanReturns sha3_512 sha3_256 candidate.header target
      (fun i => ⟨cancelled i, none, none⟩) range result) (pad : Mercahash.Scratchpad) :
    ∃ final, mineBlockCandidate (Mercahash.scannerHash sha3_512 sha3_256) candidate target
      range.rangeBegin range.rangeEnd cancelled pad = .ok (some (result,
        if result.status ≠ .found then candidate else applySolvedNonce candidate result.nonce,
        final)) := by
  rcases hscan pad with ⟨final, hfinal⟩
  refine ⟨final, ?_⟩
  rw [mineBlockCandidate, hvalid, hfinal]
  by_cases hfound : result.status ≠ .found
  · simp only [if_pos hfound, Except.mapError, Option.map_some, bind, Except.bind, pure,
      Except.pure]
  · simp only [if_neg hfound, Except.mapError, Option.map_some, bind, Except.bind, pure,
      Except.pure]

/-- A call with one worker, beside mining with one scanner. -/
theorem single_worker_equiv (candidate : BlockCandidate) (target : UInt256)
    (args : MineArguments) (cancelled : Nat → Flag) (pad : Mercahash.Scratchpad)
    (hvalid : validateBlockCandidateForMining candidate = .ok ())
    (horder : args.nonceBegin ≤ args.nonceEnd) (hone : args.workerCount = 1)
    (hcancelled : ∀ i, raised (cancelled i) = false) :
    ∃ c s₀ result after final,
      mineStart (freshHashV1 sha3_512 sha3_256) candidate target args = .ok (c, s₀) ∧
      mineBlockCandidate (Mercahash.scannerHash sha3_512 sha3_256) candidate target
        args.nonceBegin args.nonceEnd cancelled pad = .ok (some (result, after, final)) ∧
      ∀ acts s, run (mineStep c) s₀ acts = some s →
        (∃ more s', (∀ a ∈ more, a.Own) ∧ run (mineStep c) s more = some s' ∧
          ∃ r after', s'.main = .returned r after') ∧
        (¬ExternalSeen c s₀ acts → ∀ r after', s.main = .returned r after' →
          r.status = result.status ∧ r.hashesChecked = result.hashesChecked ∧
          (r.status = .found → r.nonce = result.nonce ∧ r.hash = result.hash) ∧
          after' = after) := by
  have hle : args.nonceBegin.toNat ≤ args.nonceEnd.toNat := UInt32.le_iff_toNat_le.mp horder
  rcases mineStart_isOk (freshHashV1 sha3_512 sha3_256) candidate target args hvalid horder
    (by rw [hone]; decide) with ⟨c, s₀, hstart⟩
  rcases mineStart_ok _ candidate target args c s₀ hstart with ⟨hentered, _⟩
  have hpartition := (mineStart_ranges _ candidate target args c s₀ hstart).1
  rw [hone] at hpartition
  have hranges := partition_single args.nonceBegin args.nonceEnd c.ranges hpartition
  rcases quiet_scan c ⟨args.nonceBegin, args.nonceEnd⟩ hle with ⟨result, hscan⟩
  have hplain := scanReturns_of_rest sha3_512 sha3_256 c hentered.hashV1_eq
    (fun i => ⟨cancelled i, none, none⟩) ⟨args.nonceBegin, args.nonceEnd⟩ hle result
    (hscan _ fun i => by rw [FlagReadings.any, hcancelled]; rfl)
  rw [hentered.candidate_eq, hentered.target_eq] at hplain
  rcases mineBlockCandidate_eq sha3_512 sha3_256 candidate target _ cancelled result hvalid hplain
    pad with ⟨final, hmined⟩
  refine ⟨c, s₀, result, _, final, hstart, hmined, fun acts s hrun => ⟨?_, fun hexternal r after'
    hmain => single_worker_result _ candidate target args c s₀ hstart hranges result hscan acts s
      hrun hexternal r after' hmain⟩⟩
  have hcovered := tiles_covered _ _ _ hentered.tiles
  have hend := args.nonceEnd.toNat_lt
  have hok := (mine_reachable_ok _ candidate target args c s₀ hstart acts s hrun).2
  exact mine_returns c args.liveHashes (by omega) _ s
    (hok.later c args.liveHashes _ _ s fun _ => trivial) (Nat.le_refl _)

end

/-- The parallel miner's chunks and threads do not change the scan.

    A worker run against any readings finishes. Without a refresh it records
    what one scan of its range returns against the same readings; in any case it
    hashed an initial part of its range, and ended for one of the expected
    reasons. Every worker of every call is such a run, against what it saw. A
    call with one worker returns, and if nobody sets a flag it returns what
    mining the candidate with one scanner does. -/
theorem chunked_scan_equiv (sha3_512 : Bytes → Vector UInt8 64) (sha3_256 : Bytes → UInt256) :
    (∀ (c : MineContext) (range : NonceRange) (readings : WorkerReadings),
      c.hashV1 = freshHashV1 sha3_512 sha3_256 → range.rangeBegin ≤ range.rangeEnd →
      (∃ n w result, workerRun c range readings n (Worker.start range) = some w ∧
        w.pc = .done result) ∧
      ∀ n w result, workerRun c range readings n (Worker.start range) = some w →
        w.pc = .done result →
        (readings.NoRefresh → ScanReturns sha3_512 sha3_256 c.candidate.header c.target
          readings.flags range result) ∧
        w.hashed.map UInt32.toNat = List.range' range.rangeBegin.toNat w.hashed.length ∧
        range.rangeBegin.toNat + w.hashed.length ≤ range.rangeEnd.toNat + 1 ∧
        Ended range readings w result) ∧
    (∀ hashV1 candidate target args c s₀,
      mineStart hashV1 candidate target args = .ok (c, s₀) →
      ∀ acts s, run (mineStep c) s₀ acts = some s →
      ∀ (i : Nat) range w, c.ranges[i]? = some range → s.workers[i]? = some w →
        ∃ readings n, WorkerReadings.From readings (SeenBy c s₀ acts i) ∧
          workerRun c range readings n (Worker.start range) = some w) ∧
    ∀ candidate target args cancelled pad,
      validateBlockCandidateForMining candidate = .ok () → args.nonceBegin ≤ args.nonceEnd →
      args.workerCount = 1 → (∀ i, raised (cancelled i) = false) →
      ∃ c s₀ result after final,
        mineStart (freshHashV1 sha3_512 sha3_256) candidate target args = .ok (c, s₀) ∧
        mineBlockCandidate (Mercahash.scannerHash sha3_512 sha3_256) candidate target
          args.nonceBegin args.nonceEnd cancelled pad = .ok (some (result, after, final)) ∧
        ∀ acts s, run (mineStep c) s₀ acts = some s →
          (∃ more s', (∀ a ∈ more, a.Own) ∧ run (mineStep c) s more = some s' ∧
            ∃ r after', s'.main = .returned r after') ∧
          (¬ExternalSeen c s₀ acts → ∀ r after', s.main = .returned r after' →
            r.status = result.status ∧ r.hashesChecked = result.hashesChecked ∧
            (r.status = .found → r.nonce = result.nonce ∧ r.hash = result.hash) ∧
            after' = after) := by
  refine ⟨fun c range readings hhash horder => ?_, ?_, ?_⟩
  · have hle : range.rangeBegin.toNat ≤ range.rangeEnd.toNat := UInt32.le_iff_toNat_le.mp horder
    exact ⟨workerRun_finishes c range readings _ (Worker.start range)
      (workerOk_start c range True _ hle) (Nat.lt_succ_self _),
      worker_records sha3_512 sha3_256 c range readings hhash hle⟩
  · intro hashV1 candidate target args c s₀ hstart acts s hrun i range w hrange hw
    exact worker_driven c range s₀ (mineStart_ranges hashV1 candidate target args c s₀ hstart).2
      acts s hrun i hrange w hw
  · intro candidate target args cancelled pad
    exact single_worker_equiv sha3_512 sha3_256 candidate target args cancelled pad

/-- Twelve nonces, a chunk and a half, with one worker. -/
theorem chunked_scan_equiv_twelve :
    ∃ c s₀ result after final,
      mineStart (freshHashV1 (fun _ => Vector.replicate 64 0) fun _ => UInt256.zero) bareCandidate
        UInt256.zero ⟨0, 11, 1, none, none, none, none⟩ = .ok (c, s₀) ∧
      mineBlockCandidate (Mercahash.scannerHash (fun _ => Vector.replicate 64 0)
        fun _ => UInt256.zero) bareCandidate UInt256.zero 0 11 (fun _ => none)
        Mercahash.freshScratchpad = .ok (some (result, after, final)) ∧
      ∃ more s' r after', run (mineStep c) s₀ more = some s' ∧ s'.main = .returned r after' := by
  rcases (chunked_scan_equiv (fun _ => Vector.replicate 64 0) fun _ => UInt256.zero).2.2
    bareCandidate UInt256.zero ⟨0, 11, 1, none, none, none, none⟩ (fun _ => none)
    Mercahash.freshScratchpad (by decide +kernel) (by decide) rfl (fun _ => rfl) with
    ⟨c, s₀, result, after, final, hstart, hmined, hall⟩
  rcases (hall [] s₀ rfl).1 with ⟨more, s', _, hrun, r, after', hmain⟩
  exact ⟨c, s₀, result, after, final, hstart, hmined, more, s', r, after', hrun, hmain⟩

end MercaMiner
