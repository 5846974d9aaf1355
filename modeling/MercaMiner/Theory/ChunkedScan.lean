import MercaMiner.Theory.MineInvariant

/-!
# Scanning in Chunks

A worker that walks its range in chunks of eight nonces records what one scan
over the whole range would.

The worker is run alone against given readings of the flags: those a scan
makes before each nonce, listed by the number of nonces hashed so far, and
those of the refresh flag around each chunk. `uninterrupted` is what a single
scan from the worker's position to the end of its range would return with the
same readings. A step that sees no refresh leaves it unchanged, so it is the
same at the end of the run, where it is the recorded result, as at the start,
where it is the scan of the range.

A worker does not run forever. Its `clock` counts nonces first and positions
within a nonce second, goes up with every step and is bounded by the range.

## Main definitions

* `WorkerReadings`: What a worker reads.
* `workerRun`: A worker's steps against its readings.
* `restScan`, `uninterrupted`: The scan that remains.
* `Worker.clock`: How far a worker has come.
* `ChunkOk`: Where the chunks of a worker end.

## Theorems

* `workerStep_clock`: Every step is progress.
* `workerRun_invariant`: What a worker's steps keep holds along its run.
* `workerRun_finishes`: A worker finishes.
* `workerStep_rest`: A step leaves the remaining scan alone.
* `workerStep_chunks`: A step keeps the chunks whole.
* `workerRun_rest`, `workerRun_chunks`: The same over a run.
-/

namespace MercaMiner

/-- What a worker reads from the flags. The refresh flag is read before and
    after a chunk, the others before every nonce. -/
structure WorkerReadings where
  stop : Nat → Bool
  cancelled : Nat → Flag
  cancelledSecondary : Nat → Flag
  refreshBefore : Nat → Flag
  refreshAfter : Nat → Flag

/-- The readings of a scan that is given the stop flag and the caller's two. -/
def WorkerReadings.flags (readings : WorkerReadings) (i : Nat) : FlagReadings :=
  ⟨some (readings.stop i), readings.cancelled i, readings.cancelledSecondary i⟩

/-- The shared variables as a worker finds them. -/
def WorkerReadings.shared (readings : WorkerReadings) (w : Worker) : Shared where
  stop := readings.stop w.hashed.length
  cancelled := readings.cancelled w.hashed.length
  cancelledSecondary := readings.cancelledSecondary w.hashed.length
  refreshRequested := match w.pc with
    | .refreshAfter _ _ => readings.refreshAfter w.hashed.length
    | _ => readings.refreshBefore w.hashed.length
  liveHashes := none
  saturated := false

/-- A worker that has just been created. -/
def Worker.start (range : NonceRange) : Worker :=
  ⟨.refreshBefore range.rangeBegin 0, []⟩

/-- Take a number of steps, or `none` if the worker finishes before. -/
def workerRun (c : MineContext) (range : NonceRange) (readings : WorkerReadings) :
    Nat → Worker → Option Worker
  | 0, w => some w
  | n + 1, w => match workerStep c range (readings.shared w) w with
    | none => none
    | some (w', _) => workerRun c range readings n w'

/-- The order of the points of one nonce. -/
def ScanPoint.rank : ScanPoint → Nat
  | .readCancelled => 0
  | .readCancelledSecondary => 1
  | .readCancelledTertiary => 2
  | .hash => 3

/-- The order of a worker's positions between two nonces. -/
def WorkerPc.rank : WorkerPc → Nat
  | .refreshAfter _ _ => 0
  | .storeStop _ => 0
  | .refreshBefore _ _ => 1
  | .scanning point _ _ => 2 + point.rank
  | .done _ => 6
  | .threw => 6

/-- How far a worker has come. -/
def Worker.clock (w : Worker) : Nat :=
  6 * w.hashed.length + w.pc.rank

/-- What a scan returns that starts with the variables of a frame, when `h`
    nonces have been hashed before it. -/
def restScan (c : MineContext) (flags : Nat → FlagReadings) (f : ScanFrame) (h : Nat) :
    Option ScanResult :=
  (scanLoop (fun bytes (_ : Unit) => (c.hashV1 bytes, ())) c.candidate.header c.target
    (f.nonceEnd.toNat - f.nonce.toNat + 1) (fun i => flags (h + i)) f ()).map Prod.fst

/-- The frame of a scan that is not cut into chunks. -/
def wholeFrame (range : NonceRange) (nonce : UInt32) (workerHashes : UInt64) : ScanFrame :=
  ⟨nonce, range.rangeEnd, workerHashes⟩

/-- What one scan to the end of the range would return from a worker's
    position. -/
def uninterrupted (c : MineContext) (range : NonceRange) (flags : Nat → FlagReadings)
    (w : Worker) : Option ScanResult :=
  match w.pc with
  | .refreshBefore chunkBegin workerHashes =>
      restScan c flags (wholeFrame range chunkBegin workerHashes) w.hashed.length
  | .scanning _ workerHashes frame =>
      restScan c flags (wholeFrame range frame.nonce (workerHashes + frame.hashesChecked))
        w.hashed.length
  | .storeStop result => some result
  | .refreshAfter chunkEnd workerHashes =>
      restScan c flags (wholeFrame range (chunkEnd + 1) workerHashes) w.hashed.length
  | .done result => some result
  | .threw => none

/-- The flags a scan has read before it reaches a point. -/
def ScanPoint.Cleared (r : FlagReadings) : ScanPoint → Prop
  | .readCancelled => True
  | .readCancelledSecondary => raised r.cancelled = false
  | .readCancelledTertiary => raised r.cancelled = false ∧ raised r.cancelledSecondary = false
  | .hash => r.any = false

/-- A worker in the middle of a nonce has seen no flag up. -/
def Worker.Cleared (flags : Nat → FlagReadings) (w : Worker) : Prop :=
  match w.pc with
  | .scanning point _ _ => point.Cleared (flags w.hashed.length)
  | _ => True

/-- The shared variables show what a scan reads. -/
structure Shows (shared : Shared) (r : FlagReadings) : Prop where
  stop : raised r.cancelled = shared.stop
  cancelled : raised r.cancelledSecondary = raised shared.cancelled
  cancelledSecondary : raised r.cancelledTertiary = raised shared.cancelledSecondary

theorem raised_some (value : Bool) : raised (some value) = value := by
  cases value <;> rfl

theorem WorkerReadings.shows (readings : WorkerReadings) (w : Worker) :
    Shows (readings.shared w) (readings.flags w.hashed.length) :=
  ⟨raised_some _, rfl, rfl⟩

theorem Shows.any (shared : Shared) (r : FlagReadings) (h : Shows shared r) :
    r.any = (shared.stop || raised shared.cancelled || raised shared.cancelledSecondary) := by
  rw [FlagReadings.any, h.stop, h.cancelled, h.cancelledSecondary]

theorem ScanFrame.conclude_found (f : ScanFrame) (target hash : UInt256)
    (hmeets : meetsTarget hash target = true) :
    f.conclude target hash = .inr ⟨.found, f.nonce, hash, f.hashesChecked + 1⟩ :=
  if_pos hmeets

theorem ScanFrame.conclude_exhausted (f : ScanFrame) (target hash : UInt256)
    (hmiss : meetsTarget hash target = false) (hend : f.nonce = f.nonceEnd) :
    f.conclude target hash = .inr ⟨.exhausted, f.nonce, hash, f.hashesChecked + 1⟩ := by
  simp only [conclude, hmiss, Bool.false_eq_true, if_false, if_pos hend]

theorem ScanFrame.conclude_next (f : ScanFrame) (target hash : UInt256)
    (hmiss : meetsTarget hash target = false) (hend : f.nonce ≠ f.nonceEnd) :
    f.conclude target hash = .inl ⟨f.nonce + 1, f.nonceEnd, f.hashesChecked + 1⟩ := by
  simp only [conclude, hmiss, Bool.false_eq_true, if_false, if_neg hend]

section

variable (c : MineContext) (range : NonceRange)

theorem ScanPoint.rank_le (point : ScanPoint) : point.rank ≤ 3 := by
  cases point <;> decide

theorem enterScan_rank (chunkBegin : UInt32) (workerHashes : UInt64) :
    1 < (enterScan range chunkBegin workerHashes).rank := by
  unfold enterScan
  by_cases h : chunkBegin > chunkEndOf range chunkBegin
  · simp only [if_pos h, WorkerPc.rank]
    omega
  · simp only [if_neg h, WorkerPc.rank]
    omega

/-- Reading a flag moves a worker on within its nonce. -/
theorem readFlag_clock (w : Worker) (workerHashes : UInt64) (frame : ScanFrame) (seen : Bool)
    (point next : ScanPoint) (shared : Shared) (hpc : w.pc = .scanning point workerHashes frame)
    (hnext : point.rank < next.rank) (hlast : next.rank ≤ 3) :
    w.clock < (w.readFlag range workerHashes frame seen next shared).1.clock := by
  unfold Worker.clock
  rw [hpc]
  cases seen with
  | true =>
      simp only [Worker.readFlag, if_true, Worker.returnScan, leaveScan, ScanFrame.interrupt,
        WorkerPc.rank]
      omega
  | false =>
      simp only [Worker.readFlag, Bool.false_eq_true, if_false, Worker.goto, WorkerPc.rank]
      omega

theorem hashNonce_hashed (w : Worker) (workerHashes : UInt64) (frame : ScanFrame)
    (shared : Shared) :
    (w.hashNonce c range workerHashes frame shared).1.hashed = w.hashed ++ [frame.nonce] := by
  unfold Worker.hashNonce
  cases frame.conclude c.target (c.hashOf frame.nonce) with
  | inr chunk => rfl
  | inl next => rfl

/-- Every step of a worker is progress. -/
theorem workerStep_clock (shared : Shared) (w w' : Worker) (shared' : Shared)
    (h : workerStep c range shared w = some (w', shared')) : w.clock < w'.clock := by
  have hgoto (pc : WorkerPc) (hrank : w.pc.rank < pc.rank) :
      w.clock < (w.goto pc shared).1.clock := by
    simp only [Worker.clock, Worker.goto]
    omega
  cases hpc : w.pc with
  | refreshBefore chunkBegin workerHashes =>
      rw [hpc] at hgoto
      simp only [workerStep, hpc] at h
      by_cases hrefresh : raised shared.refreshRequested = true
      · rw [if_pos hrefresh, Option.some.injEq] at h
        have hclock := hgoto (.done ⟨.cancelled, chunkBegin, UInt256.zero, workerHashes⟩)
          (show 1 < 6 by omega)
        rwa [h] at hclock
      · rw [if_neg hrefresh, Option.some.injEq] at h
        have hclock := hgoto _ (enterScan_rank range chunkBegin workerHashes)
        rwa [h] at hclock
  | scanning point workerHashes frame =>
      cases point with
      | readCancelled =>
          simp only [workerStep, hpc, Option.some.injEq] at h
          have hclock := readFlag_clock range w workerHashes frame shared.stop _
            .readCancelledSecondary shared hpc (by decide) (by decide)
          rwa [h] at hclock
      | readCancelledSecondary =>
          simp only [workerStep, hpc, Option.some.injEq] at h
          have hclock := readFlag_clock range w workerHashes frame (raised shared.cancelled) _
            .readCancelledTertiary shared hpc (by decide) (by decide)
          rwa [h] at hclock
      | readCancelledTertiary =>
          simp only [workerStep, hpc, Option.some.injEq] at h
          have hclock := readFlag_clock range w workerHashes frame
            (raised shared.cancelledSecondary) _ .hash shared hpc (by decide) (by decide)
          rwa [h] at hclock
      | hash =>
          -- The next nonce outweighs every position within this one.
          simp only [workerStep, hpc, Option.some.injEq] at h
          have hlen := congrArg List.length (hashNonce_hashed c range w workerHashes frame shared)
          rw [h, List.length_append, List.length_singleton] at hlen
          simp only [Worker.clock, hpc, hlen, WorkerPc.rank, ScanPoint.rank]
          omega
  | storeStop result =>
      simp only [workerStep, hpc, Worker.goto, Option.some.injEq, Prod.mk.injEq] at h
      rw [← h.1]
      simp only [Worker.clock, hpc, WorkerPc.rank]
      omega
  | refreshAfter chunkEnd workerHashes =>
      rw [hpc] at hgoto
      simp only [workerStep, hpc] at h
      by_cases hrefresh : raised shared.refreshRequested = true
      · rw [if_pos hrefresh, Option.some.injEq] at h
        have hclock := hgoto (.done ⟨.cancelled, chunkEnd, UInt256.zero, workerHashes⟩)
          (show 0 < 6 by omega)
        rwa [h] at hclock
      · rw [if_neg hrefresh, Option.some.injEq] at h
        have hclock := hgoto (.refreshBefore (chunkEnd + 1) workerHashes) (show 0 < 1 by omega)
        rwa [h] at hclock
  | done result => simp only [workerStep, hpc, reduceCtorEq] at h
  | threw => simp only [workerStep, hpc, reduceCtorEq] at h

/-- A worker that has not finished can move. -/
theorem workerStep_isSome (ext : Prop) (shared : Shared) (w : Worker)
    (hok : WorkerOk c range ext shared w) (hrunning : w.pc.result = none) :
    ∃ w' shared', workerStep c range shared w = some (w', shared') := by
  rw [WorkerOk] at hok
  cases hpc : w.pc with
  | refreshBefore chunkBegin workerHashes =>
      simp only [workerStep, hpc]
      by_cases hrefresh : raised shared.refreshRequested = true
      · exact ⟨_, _, if_pos hrefresh⟩
      · exact ⟨_, _, if_neg hrefresh⟩
  | scanning point workerHashes frame =>
      simp only [workerStep, hpc]
      cases point <;> exact ⟨_, _, rfl⟩
  | storeStop result =>
      simp only [workerStep, hpc]
      exact ⟨_, _, rfl⟩
  | refreshAfter chunkEnd workerHashes =>
      simp only [workerStep, hpc]
      by_cases hrefresh : raised shared.refreshRequested = true
      · exact ⟨_, _, if_pos hrefresh⟩
      · exact ⟨_, _, if_neg hrefresh⟩
  | done result =>
      rw [hpc] at hrunning
      exact absurd hrunning (by simp only [WorkerPc.result, reduceCtorEq, not_false_eq_true])
  | threw =>
      rw [hpc] at hok
      exact absurd hok not_false

/-- The clock cannot pass the end of the largest range. -/
theorem clock_le (ext : Prop) (shared : Shared) (w : Worker)
    (hok : WorkerOk c range ext shared w) : w.clock ≤ 6 * 2 ^ 32 + 6 := by
  have hlen := (hok.scanned c range ext shared w).2
  have hend := range.rangeEnd.toNat_lt
  have hrank : w.pc.rank ≤ 6 := by
    cases w.pc with
    | scanning point workerHashes frame =>
        have hpoint := point.rank_le
        exact (show 2 + point.rank ≤ 6 by omega)
    | refreshBefore chunkBegin workerHashes => exact (show 1 ≤ 6 by omega)
    | storeStop result => exact Nat.zero_le 6
    | refreshAfter chunkEnd workerHashes => exact Nat.zero_le 6
    | done result => exact Nat.le_refl 6
    | threw => exact Nat.le_refl 6
  unfold Worker.clock
  omega

theorem workerOk_start (ext : Prop) (shared : Shared)
    (hle : range.rangeBegin.toNat ≤ range.rangeEnd.toNat) :
    WorkerOk c range ext shared (Worker.start range) :=
  ⟨Progress.nil c range, hle, rfl⟩

/-- A worker's own step keeps its invariant, when it is not asked for a reason
    to have stopped. -/
theorem workerStep_own (shared other : Shared) (w w' : Worker) (shared' : Shared)
    (hok : WorkerOk c range True shared w)
    (h : workerStep c range shared w = some (w', shared')) : WorkerOk c range True other w' :=
  workerOk_mono c range True True shared' other w' (fun _ => Or.inr trivial)
    (workerStep_ok c range True shared w w' shared' hok (fun _ => trivial) h).1

/-- A property kept by a worker's steps holds at the end of its run. -/
theorem workerRun_invariant (readings : WorkerReadings) (I : Worker → Prop)
    (hstep : ∀ w w' shared', I w →
      workerStep c range (readings.shared w) w = some (w', shared') → I w') (n : Nat) :
    ∀ v w, I v → workerRun c range readings n v = some w → I w := by
  induction n with
  | zero =>
      intro v w hv hrun
      rw [workerRun, Option.some.injEq] at hrun
      rwa [← hrun]
  | succ k ih =>
      intro v w hv hrun
      rw [workerRun] at hrun
      cases h : workerStep c range (readings.shared v) v with
      | none =>
          rw [h] at hrun
          exact absurd hrun (by simp only [reduceCtorEq, not_false_eq_true])
      | some after =>
          rw [h] at hrun
          exact ih after.1 w (hstep v after.1 after.2 hv h) hrun

/-- A worker run alone finishes. The induction is on what the clock has
    left. -/
theorem workerRun_finishes (readings : WorkerReadings) (left : Nat) :
    ∀ w, WorkerOk c range True (readings.shared w) w → 6 * 2 ^ 32 + 6 - w.clock < left →
      ∃ n w' result, workerRun c range readings n w = some w' ∧ w'.pc = .done result := by
  induction left with
  | zero => exact fun w _ hleft => absurd hleft (Nat.not_lt_zero _)
  | succ k ih =>
      intro w hok hleft
      cases hresult : w.pc.result with
      | some result => exact ⟨0, w, result, rfl, (w.pc.result_done result).mp hresult⟩
      | none =>
          rcases workerStep_isSome c range True _ w hok hresult with ⟨w', shared', h⟩
          have hok' := workerStep_own c range _ (readings.shared w') w w' shared' hok h
          have hclock := workerStep_clock c range _ w w' shared' h
          have hle := clock_le c range True _ w' hok'
          rcases ih w' hok' (by omega) with ⟨n, v, result, hrun, hdone⟩
          refine ⟨n + 1, v, result, ?_, hdone⟩
          simp only [workerRun, h, hrun]

/-- What remains of a scan, by its next iteration. -/
theorem restScan_eq (flags : Nat → FlagReadings) (f : ScanFrame) (h : Nat)
    (hle : f.nonce.toNat ≤ f.nonceEnd.toNat) :
    restScan c flags f h =
      if (flags h).any = true then some f.interrupt
      else match f.conclude c.target (c.hashOf f.nonce) with
        | .inr result => some result
        | .inl next => restScan c flags next (h + 1) := by
  rw [restScan, scanLoop, Nat.add_zero]
  by_cases hany : (flags h).any = true
  · rw [if_pos hany, if_pos hany]
    rfl
  rw [if_neg hany, if_neg hany]
  simp only [MineContext.hashOf]
  cases hmeets : meetsTarget (c.hashV1 (headerBytes c.candidate.header f.nonce)) c.target with
  | true =>
      rw [f.conclude_found _ _ hmeets]
      rfl
  | false =>
      by_cases hend : f.nonce = f.nonceEnd
      · rw [f.conclude_exhausted _ _ hmeets hend]
        rfl
      -- The scan goes on, and a nonce is left for its next iteration.
      have hne : f.nonce.toNat ≠ f.nonceEnd.toNat := fun heq => hend (UInt32.toNat_inj.mp heq)
      have hnonce := toNat_succ f.nonce f.nonceEnd (by omega)
      have hfuel : f.nonceEnd.toNat - (f.nonce + 1).toNat + 1
          = f.nonceEnd.toNat - f.nonce.toNat := by omega
      have hreadings : (fun i => flags (h + (i + 1))) = fun i => flags (h + 1 + i) :=
        funext fun i => by rw [Nat.add_right_comm, Nat.add_assoc]
      rw [f.conclude_next _ _ hmeets hend]
      simp only [restScan, hfuel, hreadings]

theorem saturatingAdd_add (left right : UInt64) (n : Nat)
    (hsum : left.toNat + right.toNat = n) (hn : n < 2 ^ 64) :
    saturatingAdd left right = left + right := by
  rw [saturatingAdd, (saturatingAdd_exact left right n hsum hn).1, if_neg Bool.false_ne_true]

/-- A scan that was interrupted, or not, while it read a flag. -/
theorem readFlag_rest (flags : Nat → FlagReadings) (w w' : Worker) (workerHashes : UInt64)
    (frame : ScanFrame) (seen : Bool) (point next : ScanPoint) (shared shared' : Shared)
    (hpc : w.pc = .scanning point workerHashes frame)
    (hle : frame.nonce.toNat ≤ range.rangeEnd.toNat)
    (hsum : workerHashes.toNat + frame.hashesChecked.toNat = w.hashed.length)
    (hlen : w.hashed.length ≤ 2 ^ 32)
    (hseen : seen = true → (flags w.hashed.length).any = true)
    (hnext : seen = false → next.Cleared (flags w.hashed.length))
    (h : w.readFlag range workerHashes frame seen next shared = (w', shared')) :
    w'.Cleared flags ∧ uninterrupted c range flags w' = uninterrupted c range flags w := by
  cases seen with
  | true =>
      simp only [Worker.readFlag, if_true, Worker.returnScan, leaveScan, ScanFrame.interrupt,
        Prod.mk.injEq] at h
      rw [← h.1]
      refine ⟨trivial, ?_⟩
      simp only [uninterrupted, hpc]
      -- The whole scan would be interrupted here too, with the sum of the counts.
      rw [restScan_eq c flags _ _ hle, if_pos (hseen rfl),
        saturatingAdd_add _ _ _ hsum (by omega)]
      rfl
  | false =>
      simp only [Worker.readFlag, Bool.false_eq_true, if_false, Worker.goto, Prod.mk.injEq] at h
      rw [← h.1]
      exact ⟨hnext rfl, by simp only [uninterrupted, hpc]⟩

/-- Hashing a nonce of a chunk is hashing it in the scan of the range, and a
    chunk that ends here is followed by the next one. -/
theorem hashNonce_rest (flags : Nat → FlagReadings) (w w' : Worker) (workerHashes : UInt64)
    (frame : ScanFrame) (shared shared' : Shared)
    (hpc : w.pc = .scanning .hash workerHashes frame)
    (hle : frame.nonce.toNat ≤ frame.nonceEnd.toNat)
    (hend : frame.nonceEnd.toNat ≤ range.rangeEnd.toNat)
    (hsum : workerHashes.toNat + frame.hashesChecked.toNat = w.hashed.length)
    (hlen : w.hashed.length ≤ 2 ^ 32) (hquiet : (flags w.hashed.length).any = false)
    (h : w.hashNonce c range workerHashes frame shared = (w', shared')) :
    w'.Cleared flags ∧ uninterrupted c range flags w' = uninterrupted c range flags w := by
  have hchecked : (frame.hashesChecked + 1).toNat = frame.hashesChecked.toNat + 1 := by
    rw [UInt64.toNat_add, UInt64.toNat_one]
    omega
  have hadd : saturatingAdd workerHashes (frame.hashesChecked + 1)
      = workerHashes + frame.hashesChecked + 1 := by
    rw [saturatingAdd_add _ _ (w.hashed.length + 1) (by omega) (by omega), UInt64.add_assoc]
  -- The frame the whole scan would have at this nonce.
  let whole : ScanFrame := wholeFrame range frame.nonce (workerHashes + frame.hashesChecked)
  have hwhole : uninterrupted c range flags w =
      match whole.conclude c.target (c.hashOf frame.nonce) with
      | .inr result => some result
      | .inl next => restScan c flags next (w.hashed.length + 1) := by
    simp only [uninterrupted, hpc]
    rw [restScan_eq c flags whole _ (Nat.le_trans hle hend), hquiet, if_neg Bool.false_ne_true]
    rfl
  rw [hwhole]
  simp only [Worker.hashNonce] at h
  cases hmeets : meetsTarget (c.hashOf frame.nonce) c.target with
  | true =>
      rw [whole.conclude_found _ _ hmeets]
      rw [frame.conclude_found _ _ hmeets] at h
      simp only [Worker.returnScan, leaveScan, hadd, Prod.mk.injEq] at h
      rw [← h.1]
      exact ⟨trivial, rfl⟩
  | false =>
      by_cases hlast : frame.nonce = frame.nonceEnd
      · rw [frame.conclude_exhausted _ _ hmeets hlast] at h
        simp only [Worker.returnScan, leaveScan, hadd, Prod.mk.injEq] at h
        by_cases hrange : frame.nonceEnd = range.rangeEnd
        · -- The last chunk ends where the range does.
          rw [whole.conclude_exhausted _ _ hmeets (hlast.trans hrange)]
          rw [if_pos hrange] at h
          rw [← h.1]
          exact ⟨trivial, rfl⟩
        · rw [whole.conclude_next _ _ hmeets fun heq => hrange (hlast.symm.trans heq)]
          rw [if_neg hrange] at h
          rw [← h.1]
          refine ⟨trivial, ?_⟩
          simp only [uninterrupted, List.length_append, List.length_singleton, whole, wholeFrame,
            hlast]
      · -- Inside a chunk the range cannot end.
        have hne : frame.nonce ≠ range.rangeEnd := by
          intro heq
          have hnat : frame.nonce.toNat = range.rangeEnd.toNat := by rw [heq]
          exact hlast (UInt32.toNat_inj.mp (by omega))
        rw [whole.conclude_next _ _ hmeets hne]
        rw [frame.conclude_next _ _ hmeets hlast] at h
        simp only [Worker.goto, Prod.mk.injEq] at h
        rw [← h.1]
        refine ⟨trivial, ?_⟩
        simp only [uninterrupted, List.length_append, List.length_singleton, whole, wholeFrame,
          UInt64.add_assoc]

/-- A step that sees no refresh leaves the remaining scan alone. -/
theorem workerStep_rest (flags : Nat → FlagReadings) (ext : Prop) (shared : Shared)
    (w w' : Worker) (shared' : Shared) (hok : WorkerOk c range ext shared w)
    (hcleared : w.Cleared flags) (hshows : Shows shared (flags w.hashed.length))
    (hrefresh : raised shared.refreshRequested = false)
    (h : workerStep c range shared w = some (w', shared')) :
    w'.Cleared flags ∧ uninterrupted c range flags w' = uninterrupted c range flags w := by
  have hlen := (hok.scanned c range ext shared w).2
  have hend := range.rangeEnd.toNat_lt
  rw [WorkerOk] at hok
  cases hpc : w.pc with
  | refreshBefore chunkBegin workerHashes =>
      rw [hpc] at hok
      rcases hok with ⟨_, hle, _⟩
      simp only [workerStep, hpc, hrefresh, Bool.false_eq_true, if_false, Worker.goto,
        enterScan_eq range chunkBegin workerHashes hle, Option.some.injEq, Prod.mk.injEq] at h
      rw [← h.1]
      refine ⟨trivial, ?_⟩
      -- The chunk starts at the nonce where the whole scan goes on.
      simp only [uninterrupted, hpc, ScanFrame.start, UInt64.add_zero]
  | scanning point workerHashes frame =>
      rw [hpc] at hok
      rcases hok with ⟨_, hle, hhigh, hsum⟩
      rw [Worker.Cleared, hpc] at hcleared
      -- Three of the points read a flag and differ only in which.
      have hread (seen : Bool) (next : ScanPoint)
          (hseen : seen = true → (flags w.hashed.length).any = true)
          (hnext : seen = false → next.Cleared (flags w.hashed.length)) :=
        readFlag_rest c range flags w w' workerHashes frame seen point next shared shared' hpc
          (Nat.le_trans hle hhigh) hsum (by omega) hseen hnext
      cases point with
      | readCancelled =>
          simp only [workerStep, hpc, Option.some.injEq] at h
          refine hread _ _ (fun hup => ?_) (fun hdown => ?_) h
          · rw [hshows.any, hup, Bool.true_or, Bool.true_or]
          · exact hshows.stop.trans hdown
      | readCancelledSecondary =>
          simp only [workerStep, hpc, Option.some.injEq] at h
          refine hread _ _ (fun hup => ?_) (fun hdown => ?_) h
          · rw [hshows.any, hup, Bool.or_true, Bool.true_or]
          · exact ⟨hcleared, hshows.cancelled.trans hdown⟩
      | readCancelledTertiary =>
          simp only [workerStep, hpc, Option.some.injEq] at h
          refine hread _ _ (fun hup => ?_) (fun hdown => ?_) h
          · rw [hshows.any, hup, Bool.or_true]
          · have htertiary := hshows.cancelledSecondary.trans hdown
            show (flags w.hashed.length).any = false
            rw [FlagReadings.any, hcleared.1, hcleared.2, htertiary, Bool.or_false, Bool.or_false]
      | hash =>
          simp only [workerStep, hpc, Option.some.injEq] at h
          exact hashNonce_rest c range flags w w' workerHashes frame shared shared' hpc hle hhigh
            hsum (by omega) hcleared h
  | storeStop result =>
      simp only [workerStep, hpc, Worker.goto, Option.some.injEq, Prod.mk.injEq] at h
      rw [← h.1]
      exact ⟨trivial, by simp only [uninterrupted, hpc]⟩
  | refreshAfter chunkEnd workerHashes =>
      simp only [workerStep, hpc, hrefresh, Bool.false_eq_true, if_false, Worker.goto,
        Option.some.injEq, Prod.mk.injEq] at h
      rw [← h.1]
      exact ⟨trivial, by simp only [uninterrupted, hpc]⟩
  | done result => simp only [workerStep, hpc, reduceCtorEq] at h
  | threw => simp only [workerStep, hpc, reduceCtorEq] at h

/-- A worker has hashed whole chunks. -/
def WholeChunks (w : Worker) : Prop :=
  w.hashed.length % softRefreshChunkNonces.toNat = 0

/-- Why a worker ended: it found a nonce, or saw one of a scan's flags before
    the next one, or came to the end of its range, or saw the refresh flag
    between two chunks. -/
def Ended (range : NonceRange) (readings : WorkerReadings) (w : Worker) (result : ScanResult) :
    Prop :=
  match result.status with
  | .found => True
  | .exhausted => range.rangeBegin.toNat + w.hashed.length = range.rangeEnd.toNat + 1
  | .cancelled => (readings.flags w.hashed.length).any = true ∨
      (raised (readings.refreshBefore w.hashed.length) = true ∨
        raised (readings.refreshAfter w.hashed.length) = true) ∧ WholeChunks w

/-- The chunks of a worker end after a multiple of eight nonces, the last one
    possibly before that with the range. -/
def ChunkOk (range : NonceRange) (readings : WorkerReadings) (w : Worker) : Prop :=
  match w.pc with
  | .refreshBefore _ _ => WholeChunks w
  | .scanning _ _ frame => frame.nonceEnd = range.rangeEnd ∨
      (frame.nonceEnd.toNat + 1 - range.rangeBegin.toNat) % softRefreshChunkNonces.toNat = 0
  | .storeStop result => result.status = .found
  | .refreshAfter _ _ => WholeChunks w
  | .done result => Ended range readings w result
  | .threw => False

/-- Reading a flag in the middle of a chunk. -/
theorem readFlag_chunks (readings : WorkerReadings) (w w' : Worker) (workerHashes : UInt64)
    (frame : ScanFrame) (seen : Bool) (point next : ScanPoint) (shared shared' : Shared)
    (hpc : w.pc = .scanning point workerHashes frame) (hchunk : ChunkOk range readings w)
    (hseen : seen = true → (readings.flags w.hashed.length).any = true)
    (h : w.readFlag range workerHashes frame seen next shared = (w', shared')) :
    ChunkOk range readings w' := by
  rw [ChunkOk, hpc] at hchunk
  cases seen with
  | true =>
      simp only [Worker.readFlag, if_true, Worker.returnScan, leaveScan, ScanFrame.interrupt,
        Prod.mk.injEq] at h
      rw [← h.1]
      exact Or.inl (hseen rfl)
  | false =>
      simp only [Worker.readFlag, Bool.false_eq_true, if_false, Worker.goto, Prod.mk.injEq] at h
      rw [← h.1]
      exact hchunk

/-- Hashing the last nonce of a chunk completes it. -/
theorem hashNonce_chunks (readings : WorkerReadings) (w w' : Worker) (workerHashes : UInt64)
    (frame : ScanFrame) (shared shared' : Shared)
    (hpc : w.pc = .scanning .hash workerHashes frame) (hchunk : ChunkOk range readings w)
    (hnext : range.rangeBegin.toNat + w.hashed.length = frame.nonce.toNat)
    (h : w.hashNonce c range workerHashes frame shared = (w', shared')) :
    ChunkOk range readings w' := by
  rw [ChunkOk, hpc] at hchunk
  simp only [Worker.hashNonce] at h
  cases hmeets : meetsTarget (c.hashOf frame.nonce) c.target with
  | true =>
      rw [frame.conclude_found _ _ hmeets] at h
      simp only [Worker.returnScan, leaveScan, Prod.mk.injEq] at h
      rw [← h.1]
      exact rfl
  | false =>
      by_cases hlast : frame.nonce = frame.nonceEnd
      · rw [frame.conclude_exhausted _ _ hmeets hlast] at h
        simp only [Worker.returnScan, leaveScan, Prod.mk.injEq] at h
        by_cases hrange : frame.nonceEnd = range.rangeEnd
        · rw [if_pos hrange] at h
          rw [← h.1]
          simp only [ChunkOk, Ended, List.length_append, List.length_singleton]
          rw [← hrange, ← hlast]
          omega
        · rw [if_neg hrange] at h
          rw [← h.1]
          -- A chunk before the last one ends after a multiple of eight.
          have hwhole := hchunk.resolve_left hrange
          rw [← hlast, ← hnext] at hwhole
          simp only [ChunkOk, WholeChunks, List.length_append, List.length_singleton]
          rwa [Nat.add_assoc, Nat.add_sub_cancel_left] at hwhole
      · rw [frame.conclude_next _ _ hmeets hlast] at h
        simp only [Worker.goto, Prod.mk.injEq] at h
        rw [← h.1]
        exact hchunk

/-- A step keeps the chunks whole, whatever the refresh flag shows. -/
theorem workerStep_chunks (readings : WorkerReadings) (ext : Prop) (w w' : Worker)
    (shared' : Shared) (hok : WorkerOk c range ext (readings.shared w) w)
    (hchunk : ChunkOk range readings w)
    (h : workerStep c range (readings.shared w) w = some (w', shared')) :
    ChunkOk range readings w' := by
  have hshows := readings.shows w
  rw [WorkerOk] at hok
  cases hpc : w.pc with
  | refreshBefore chunkBegin workerHashes =>
      rw [hpc] at hok
      rcases hok with ⟨hprogress, hle, _⟩
      rw [ChunkOk, hpc] at hchunk
      simp only [workerStep, hpc] at h
      by_cases hrefresh : raised (readings.shared w).refreshRequested = true
      · rw [if_pos hrefresh, Worker.goto, Option.some.injEq, Prod.mk.injEq] at h
        simp only [WorkerReadings.shared, hpc] at hrefresh
        rw [← h.1]
        exact Or.inr ⟨Or.inl hrefresh, hchunk⟩
      · rw [if_neg hrefresh, Worker.goto, Option.some.injEq, Prod.mk.injEq,
          enterScan_eq range chunkBegin workerHashes hle] at h
        rw [← h.1]
        -- A whole chunk, or what is left of the range.
        have hend := chunkEndOf_toNat range chunkBegin
        have hnext := hprogress.next_eq
        have hsize : softRefreshChunkNonces.toNat = 8 := rfl
        by_cases hshort : (chunkEndOf range chunkBegin).toNat = range.rangeEnd.toNat
        · exact Or.inl (UInt32.toNat_inj.mp hshort)
        · refine Or.inr ?_
          rw [WholeChunks, hsize] at hchunk
          rw [hsize, ScanFrame.start, hend]
          omega
  | scanning point workerHashes frame =>
      rw [hpc] at hok
      rcases hok with ⟨hprogress, _⟩
      have hread (seen : Bool) (next : ScanPoint)
          (hseen : seen = true → (readings.flags w.hashed.length).any = true) :=
        readFlag_chunks range readings w w' workerHashes frame seen point next
          (readings.shared w) shared' hpc hchunk hseen
      cases point with
      | readCancelled =>
          simp only [workerStep, hpc, Option.some.injEq] at h
          exact hread _ _ (fun hup => by rw [hshows.any, hup, Bool.true_or, Bool.true_or]) h
      | readCancelledSecondary =>
          simp only [workerStep, hpc, Option.some.injEq] at h
          exact hread _ _ (fun hup => by rw [hshows.any, hup, Bool.or_true, Bool.true_or]) h
      | readCancelledTertiary =>
          simp only [workerStep, hpc, Option.some.injEq] at h
          exact hread _ _ (fun hup => by rw [hshows.any, hup, Bool.or_true]) h
      | hash =>
          simp only [workerStep, hpc, Option.some.injEq] at h
          exact hashNonce_chunks c range readings w w' workerHashes frame _ shared' hpc hchunk
            hprogress.next_eq h
  | storeStop result =>
      rw [ChunkOk, hpc] at hchunk
      simp only [workerStep, hpc, Worker.goto, Option.some.injEq, Prod.mk.injEq] at h
      rw [← h.1]
      simp only [ChunkOk, Ended, hchunk]
  | refreshAfter chunkEnd workerHashes =>
      rw [ChunkOk, hpc] at hchunk
      simp only [workerStep, hpc] at h
      by_cases hrefresh : raised (readings.shared w).refreshRequested = true
      · rw [if_pos hrefresh, Worker.goto, Option.some.injEq, Prod.mk.injEq] at h
        simp only [WorkerReadings.shared, hpc] at hrefresh
        rw [← h.1]
        exact Or.inr ⟨Or.inr hrefresh, hchunk⟩
      · rw [if_neg hrefresh, Worker.goto, Option.some.injEq, Prod.mk.injEq] at h
        rw [← h.1]
        exact hchunk
  | done result => simp only [workerStep, hpc, reduceCtorEq] at h
  | threw => simp only [workerStep, hpc, reduceCtorEq] at h

theorem workerRun_ok (readings : WorkerReadings)
    (hle : range.rangeBegin.toNat ≤ range.rangeEnd.toNat) (n : Nat) (w : Worker)
    (hrun : workerRun c range readings n (Worker.start range) = some w) :
    WorkerOk c range True (readings.shared w) w :=
  workerRun_invariant c range readings (fun w => WorkerOk c range True (readings.shared w) w)
    (fun w w' shared' hok h => workerStep_own c range _ _ w w' shared' hok h) n _ w
    (workerOk_start c range True _ hle) hrun

/-- A worker that never sees a refresh always has the scan of its range in
    front of it. -/
theorem workerRun_rest (readings : WorkerReadings)
    (hle : range.rangeBegin.toNat ≤ range.rangeEnd.toNat)
    (hbefore : ∀ i, raised (readings.refreshBefore i) = false)
    (hafter : ∀ i, raised (readings.refreshAfter i) = false) (n : Nat) (w : Worker)
    (hrun : workerRun c range readings n (Worker.start range) = some w) :
    uninterrupted c range readings.flags w =
      restScan c readings.flags (ScanFrame.start range.rangeBegin range.rangeEnd) 0 := by
  have hquiet (w : Worker) : raised (readings.shared w).refreshRequested = false := by
    simp only [WorkerReadings.shared]
    split
    · exact hafter _
    · exact hbefore _
  have hinvariant := workerRun_invariant c range readings
    (fun w => WorkerOk c range True (readings.shared w) w ∧ w.Cleared readings.flags ∧
      uninterrupted c range readings.flags w
        = restScan c readings.flags (ScanFrame.start range.rangeBegin range.rangeEnd) 0)
    (fun w w' shared' hI h => by
      rcases hI with ⟨hok, hcleared, hrest⟩
      rcases workerStep_rest c range readings.flags True _ w w' shared' hok hcleared
        (readings.shows w) (hquiet w) h with ⟨hcleared', hrest'⟩
      exact ⟨workerStep_own c range _ _ w w' shared' hok h, hcleared', hrest'.trans hrest⟩)
    n _ w ⟨workerOk_start c range True _ hle, trivial, rfl⟩ hrun
  exact hinvariant.2.2

/-- A worker that may see a refresh at any moment keeps its chunks whole. -/
theorem workerRun_chunks (readings : WorkerReadings)
    (hle : range.rangeBegin.toNat ≤ range.rangeEnd.toNat) (n : Nat) (w : Worker)
    (hrun : workerRun c range readings n (Worker.start range) = some w) :
    ChunkOk range readings w := by
  have hinvariant := workerRun_invariant c range readings
    (fun w => WorkerOk c range True (readings.shared w) w ∧ ChunkOk range readings w)
    (fun w w' shared' hI h => ⟨workerStep_own c range _ _ w w' shared' hI.1 h,
      workerStep_chunks c range readings True w w' shared' hI.1 hI.2 h⟩)
    n _ w ⟨workerOk_start c range True _ hle, rfl⟩ hrun
  exact hinvariant.2

end

end MercaMiner
