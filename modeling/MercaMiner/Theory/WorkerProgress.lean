import MercaMiner.Theory.NoncePartition

/-!
# What a Worker Has Done

The invariant of one worker of the parallel miner, whatever the other threads
do.

A worker always has hashed an initial part of its range, in order, and its
two counters together count exactly that part. `Progress` says so for the
nonce it would hash next. A worker that finished has a result that `Reported`
relates to what it hashed. Both are properties of the worker's own variables
and of the stop flag, which is never lowered, so a step of another thread
keeps them. The caller's flags may be stored to at any time, so the invariant
does not mention their values: its argument `ext` is any proposition that
holds whenever one of them is up.

## Main definitions

* `Progress`: The worker hashed the nonces before the next one in vain.
* `External`: One of the caller's flags is up.
* `Reported`: A result agrees with what was hashed.
* `WorkerOk`: The invariant of a worker.
* `WorkerEffect`: What a step of a worker does to the shared variables.

## Theorems

* `workerStep_ok`: A worker's step keeps its invariant.
* `workerOk_mono`: The steps of the others keep it too.
-/

namespace MercaMiner

/-- The worker hashed the nonces of its range that come before `next`, in
    order, and none met the target. -/
structure Progress (c : MineContext) (range : NonceRange) (hashed : List UInt32) (next : Nat) :
    Prop where
  inOrder : hashed.map UInt32.toNat = List.range' range.rangeBegin.toNat hashed.length
  next_eq : range.rangeBegin.toNat + hashed.length = next
  missed : ∀ nonce ∈ hashed, meetsTarget (c.hashOf nonce) c.target = false

/-- One of the caller's flags is up. -/
def External (shared : Shared) : Prop :=
  raised shared.cancelled = true ∨ raised shared.cancelledSecondary = true ∨
    raised shared.refreshRequested = true

/-- A result agrees with the nonces hashed, when the search was to end with
    the nonce `last`. -/
def Reported (c : MineContext) (range : NonceRange) (last : UInt32) (ext : Prop)
    (shared : Shared) (hashed : List UInt32) (result : ScanResult) : Prop :=
  match result.status with
  | .found => ∃ before, hashed = before ++ [result.nonce] ∧
      Progress c range before result.nonce.toNat ∧ result.nonce.toNat ≤ last.toNat ∧
      result.hash = c.hashOf result.nonce ∧ meetsTarget result.hash c.target = true
  | .exhausted => Progress c range hashed (last.toNat + 1)
  | .cancelled => (shared.stop = true ∨ ext) ∧
      ∃ next, Progress c range hashed next ∧ next ≤ last.toNat + 1

/-- The invariant of a worker with the given range. -/
def WorkerOk (c : MineContext) (range : NonceRange) (ext : Prop) (shared : Shared)
    (w : Worker) : Prop :=
  match w.pc with
  | .refreshBefore chunkBegin workerHashes =>
      Progress c range w.hashed chunkBegin.toNat ∧
      chunkBegin.toNat ≤ range.rangeEnd.toNat ∧ workerHashes.toNat = w.hashed.length
  | .scanning _ workerHashes frame =>
      Progress c range w.hashed frame.nonce.toNat ∧
      frame.nonce.toNat ≤ frame.nonceEnd.toNat ∧
      frame.nonceEnd.toNat ≤ range.rangeEnd.toNat ∧
      workerHashes.toNat + frame.hashesChecked.toNat = w.hashed.length
  | .storeStop result => result.status = .found ∧
      Reported c range range.rangeEnd ext shared w.hashed result ∧
      result.hashesChecked.toNat = w.hashed.length
  | .refreshAfter chunkEnd workerHashes =>
      Progress c range w.hashed (chunkEnd.toNat + 1) ∧
      chunkEnd.toNat < range.rangeEnd.toNat ∧ workerHashes.toNat = w.hashed.length
  | .done result => Reported c range range.rangeEnd ext shared w.hashed result ∧
      result.hashesChecked.toNat = w.hashed.length
  | .threw => False

/-- What a step of a worker does to the shared variables. -/
structure WorkerEffect (w w' : Worker) (shared shared' : Shared) : Prop where
  cancelled : shared'.cancelled = shared.cancelled
  cancelledSecondary : shared'.cancelledSecondary = shared.cancelledSecondary
  refreshRequested : shared'.refreshRequested = shared.refreshRequested
  saturated : shared'.saturated = shared.saturated
  stopKept : shared.stop = true → shared'.stop = true
  stopRaised : shared'.stop = true → shared.stop = true ∨
    ∃ result, w'.pc = .done result ∧ result.status = .found
  counted : ∃ k, w'.hashed.length = w.hashed.length + k ∧
    shared'.liveHashes = shared.liveHashes.map (· + UInt64.ofNat k)
  wasRunning : w.pc.result = none

section

variable (c : MineContext) (range : NonceRange) (ext ext' : Prop)

theorem Progress.nil : Progress c range [] range.rangeBegin.toNat :=
  ⟨rfl, Nat.add_zero _, fun _ h => absurd h (List.not_mem_nil)⟩

/-- Hashing the next nonce in vain is progress. -/
theorem Progress.snoc (hashed : List UInt32) (nonce : UInt32)
    (h : Progress c range hashed nonce.toNat)
    (hmiss : meetsTarget (c.hashOf nonce) c.target = false) :
    Progress c range (hashed ++ [nonce]) (nonce.toNat + 1) := by
  refine ⟨?_, ?_, ?_⟩
  · rw [List.map_append, h.inOrder, List.map_singleton, List.length_append, List.length_singleton,
      List.range'_concat, Nat.one_mul, h.next_eq]
  · rw [List.length_append, List.length_singleton, ← Nat.add_assoc, h.next_eq]
  · intro n hn
    rcases List.mem_append.mp hn with hold | hnew
    · exact h.missed n hold
    · rw [List.mem_singleton.mp hnew]
      exact hmiss

theorem reported_mono (last : UInt32) (shared shared' : Shared) (hashed : List UInt32)
    (result : ScanResult) (hcause : shared.stop = true ∨ ext → shared'.stop = true ∨ ext')
    (h : Reported c range last ext shared hashed result) :
    Reported c range last ext' shared' hashed result := by
  rw [Reported] at h ⊢
  cases hstatus : result.status with
  | found =>
      rw [hstatus] at h
      exact h
  | exhausted =>
      rw [hstatus] at h
      exact h
  | cancelled =>
      rw [hstatus] at h
      exact ⟨hcause h.1, h.2⟩

/-- A worker's invariant survives what the other threads do, which never take
    back a reason to have stopped. -/
theorem workerOk_mono (shared shared' : Shared) (w : Worker)
    (hcause : shared.stop = true ∨ ext → shared'.stop = true ∨ ext')
    (h : WorkerOk c range ext shared w) : WorkerOk c range ext' shared' w := by
  rw [WorkerOk] at h ⊢
  cases hpc : w.pc with
  | storeStop result =>
      rw [hpc] at h
      exact ⟨h.1, reported_mono c range ext ext' _ shared shared' _ _ hcause h.2.1, h.2.2⟩
  | done result =>
      rw [hpc] at h
      exact ⟨reported_mono c range ext ext' _ shared shared' _ _ hcause h.1, h.2⟩
  | refreshBefore chunkBegin workerHashes =>
      rw [hpc] at h
      exact h
  | scanning point workerHashes frame =>
      rw [hpc] at h
      exact h
  | refreshAfter chunkEnd workerHashes =>
      rw [hpc] at h
      exact h
  | threw =>
      rw [hpc] at h
      exact h

/-- A chunk holds eight nonces unless the range ends before. -/
theorem chunkEndOf_toNat (chunkBegin : UInt32) :
    (chunkEndOf range chunkBegin).toNat = min (chunkBegin.toNat + 7) range.rangeEnd.toNat := by
  have hlt := chunkBegin.toNat_lt
  have hchunk : softRefreshChunkNonces.toNat = 8 := rfl
  have hproposed : (chunkBegin.toUInt64 + softRefreshChunkNonces - 1).toNat
      = chunkBegin.toNat + 7 := by
    rw [UInt64.toNat_sub_of_le _ _ (by
      rw [UInt64.le_iff_toNat_le, UInt64.toNat_add, UInt32.toNat_toUInt64, hchunk,
        UInt64.toNat_one]
      omega), UInt64.toNat_add, UInt32.toNat_toUInt64, hchunk, UInt64.toNat_one]
    omega
  have hcmp : chunkBegin.toUInt64 + softRefreshChunkNonces - 1 < range.rangeEnd.toUInt64 ↔
      chunkBegin.toNat + 7 < range.rangeEnd.toNat := by
    rw [UInt64.lt_iff_toNat_lt, hproposed, UInt32.toNat_toUInt64]
  have hend := range.rangeEnd.toNat_lt
  simp only [chunkEndOf, hcmp]
  by_cases h : chunkBegin.toNat + 7 < range.rangeEnd.toNat
  · rw [if_pos h, UInt64.toNat_toUInt32, hproposed]
    omega
  · rw [if_neg h]
    omega

theorem chunkEnd_bounds (chunkBegin : UInt32) (h : chunkBegin.toNat ≤ range.rangeEnd.toNat) :
    chunkBegin.toNat ≤ (chunkEndOf range chunkBegin).toNat ∧
    (chunkEndOf range chunkBegin).toNat ≤ range.rangeEnd.toNat := by
  rw [chunkEndOf_toNat]
  omega

/-- A chunk inside the range is not empty, so its scan starts. -/
theorem enterScan_eq (chunkBegin : UInt32) (workerHashes : UInt64)
    (h : chunkBegin.toNat ≤ range.rangeEnd.toNat) :
    enterScan range chunkBegin workerHashes =
      .scanning .readCancelled workerHashes
        (ScanFrame.start chunkBegin (chunkEndOf range chunkBegin)) := by
  have hlow := (chunkEnd_bounds range chunkBegin h).1
  have hscan : ¬chunkBegin > chunkEndOf range chunkBegin := by
    rw [gt_iff_lt, UInt32.lt_iff_toNat_lt]
    omega
  rw [enterScan, if_neg hscan]

/-- Two counters that together count nonces do not saturate. -/
theorem saturatingAdd_exact (left right : UInt64) (n : Nat) (hsum : left.toNat + right.toNat = n)
    (hn : n < 2 ^ 64) :
    saturates left right = false ∧ (saturatingAdd left right).toNat = n := by
  have hno : saturates left right = false := by
    have hmax : (0xffffffffffffffff : UInt64).toNat = 2 ^ 64 - 1 := rfl
    have hsub : ((0xffffffffffffffff : UInt64) - left).toNat = 2 ^ 64 - 1 - left.toNat := by
      have hleft := left.toNat_lt
      rw [UInt64.toNat_sub_of_le _ _ (by
        rw [UInt64.le_iff_toNat_le, hmax]
        omega), hmax]
    simp only [saturates, gt_iff_lt, decide_eq_false_iff_not, UInt64.lt_iff_toNat_lt, hsub]
    omega
  refine ⟨hno, ?_⟩
  rw [saturatingAdd, hno, if_neg Bool.false_ne_true, UInt64.toNat_add]
  omega

theorem Progress.length_lt (hashed : List UInt32) (next : Nat) (last : UInt32)
    (h : Progress c range hashed next) (hle : next ≤ last.toNat + 1) :
    hashed.length ≤ 2 ^ 32 := by
  have hlast := last.toNat_lt
  have heq := h.next_eq
  omega

theorem Reported.length_lt (last : UInt32) (shared : Shared) (hashed : List UInt32)
    (result : ScanResult) (h : Reported c range last ext shared hashed result) :
    hashed.length ≤ 2 ^ 32 := by
  rw [Reported] at h
  cases hstatus : result.status with
  | found =>
      rw [hstatus] at h
      rcases h with ⟨before, rfl, hprogress, hle, _⟩
      have hlast := last.toNat_lt
      have heq := hprogress.next_eq
      rw [List.length_append, List.length_singleton]
      omega
  | exhausted =>
      rw [hstatus] at h
      exact h.length_lt c range hashed _ last (Nat.le_refl _)
  | cancelled =>
      rw [hstatus] at h
      rcases h with ⟨_, next, hprogress, hle⟩
      exact hprogress.length_lt c range hashed next last hle

/-- A scan that returned leaves the worker with a result, or before its next
    chunk. Its counts were added exactly. -/
theorem returnScan_ok (shared : Shared) (w : Worker) (workerHashes : UInt64) (frame : ScanFrame)
    (chunk : ScanResult) (hend : frame.nonceEnd.toNat ≤ range.rangeEnd.toNat)
    (hcount : workerHashes.toNat + chunk.hashesChecked.toNat = w.hashed.length)
    (hreport : Reported c range frame.nonceEnd ext shared w.hashed chunk) :
    let after := w.returnScan range workerHashes frame chunk shared
    WorkerOk c range ext shared after.1 ∧ after.1.hashed = w.hashed ∧ after.2 = shared := by
  have hlen := hreport.length_lt c range ext _ shared _ _
  rcases saturatingAdd_exact workerHashes chunk.hashesChecked _ hcount (by omega) with ⟨hno, hsum⟩
  simp only [Worker.returnScan, hno, Bool.or_false, and_true]
  rw [Reported] at hreport
  rw [WorkerOk, leaveScan]
  cases hstatus : chunk.status with
  | found =>
      rw [hstatus] at hreport
      rcases hreport with ⟨before, hhashed, hprogress, hle, hhash⟩
      refine ⟨rfl, ?_, hsum⟩
      exact ⟨before, hhashed, hprogress, Nat.le_trans hle hend, hhash⟩
  | exhausted =>
      rw [hstatus] at hreport
      by_cases hlast : frame.nonceEnd = range.rangeEnd
      · rw [if_pos hlast]
        refine ⟨?_, hsum⟩
        rw [Reported, ← hlast]
        exact hreport
      · have hne : frame.nonceEnd.toNat ≠ range.rangeEnd.toNat :=
          fun h => hlast (UInt32.toNat_inj.mp h)
        rw [if_neg hlast]
        exact ⟨hreport, by omega, hsum⟩
  | cancelled =>
      rw [hstatus] at hreport
      rcases hreport with ⟨hstop, next, hprogress, hle⟩
      refine ⟨?_, hsum⟩
      exact ⟨hstop, next, hprogress, by omega⟩

/-- A step that touches no shared variable and hashes nothing. -/
theorem WorkerEffect.silent (w w' : Worker) (shared : Shared) (hhashed : w'.hashed = w.hashed)
    (hrunning : w.pc.result = none) : WorkerEffect w w' shared shared := by
  refine ⟨rfl, rfl, rfl, rfl, id, Or.inl, ⟨0, ?_, ?_⟩, hrunning⟩
  · rw [hhashed, Nat.add_zero]
  · cases shared.liveHashes with
    | none => rfl
    | some n => exact congrArg some (UInt64.add_zero n).symm

/-- A move that touches no shared variable has its effect, once the new point
    is justified. -/
theorem goto_ok (shared : Shared) (w w' : Worker) (shared' : Shared) (pc : WorkerPc)
    (hrunning : w.pc.result = none) (h : w.goto pc shared = (w', shared'))
    (hok : WorkerOk c range ext shared { w with pc := pc }) :
    WorkerOk c range ext shared' w' ∧ WorkerEffect w w' shared shared' := by
  rw [Worker.goto, Prod.mk.injEq] at h
  rcases h with ⟨rfl, rfl⟩
  exact ⟨hok, WorkerEffect.silent w _ _ rfl hrunning⟩

theorem readFlag_ok (shared : Shared) (w w' : Worker) (shared' : Shared)
    (point next : ScanPoint) (workerHashes : UInt64) (frame : ScanFrame) (seen : Bool)
    (hseen : seen = true → shared.stop = true ∨ ext)
    (hpc : w.pc = .scanning point workerHashes frame) (hok : WorkerOk c range ext shared w)
    (h : w.readFlag range workerHashes frame seen next shared = (w', shared')) :
    WorkerOk c range ext shared' w' ∧ WorkerEffect w w' shared shared' := by
  have hrunning : w.pc.result = none := by
    rw [hpc]
    rfl
  rw [WorkerOk, hpc] at hok
  rcases hok with ⟨hprogress, hle, hend, hcount⟩
  rw [Worker.readFlag] at h
  cases seen with
  | true =>
      -- The scan is interrupted before the next nonce is hashed.
      rw [if_pos rfl] at h
      have hreport : Reported c range frame.nonceEnd ext shared w.hashed frame.interrupt :=
        ⟨hseen rfl, frame.nonce.toNat, hprogress, Nat.le_succ_of_le hle⟩
      have hafter := returnScan_ok c range ext shared w workerHashes frame frame.interrupt hend
        hcount hreport
      rw [h] at hafter
      rcases hafter with ⟨hok', hhashed, rfl⟩
      exact ⟨hok', WorkerEffect.silent w w' _ hhashed hrunning⟩
  | false =>
      rw [if_neg Bool.false_ne_true] at h
      exact goto_ok c range ext shared w w' shared' _ hrunning h ⟨hprogress, hle, hend, hcount⟩

/-- A number below another one can be incremented. -/
theorem toNat_succ (n m : UInt32) (h : n.toNat < m.toNat) : (n + 1).toNat = n.toNat + 1 := by
  have hbound := m.toNat_lt
  rw [UInt32.toNat_add, UInt32.toNat_one]
  omega

/-- Hashing a nonce: the count goes up by one everywhere it is kept. -/
theorem hashNonce_ok (shared : Shared) (w w' : Worker) (shared' : Shared)
    (workerHashes : UInt64) (frame : ScanFrame)
    (hpc : w.pc = .scanning .hash workerHashes frame) (hok : WorkerOk c range ext shared w)
    (h : w.hashNonce c range workerHashes frame shared = (w', shared')) :
    WorkerOk c range ext shared' w' ∧ WorkerEffect w w' shared shared' := by
  have hrunning : w.pc.result = none := by
    rw [hpc]
    rfl
  rw [WorkerOk, hpc] at hok
  rcases hok with ⟨hprogress, hle, hend, hcount⟩
  have hlen := hprogress.length_lt c range w.hashed _ frame.nonceEnd (by omega)
  have hchecked : (frame.hashesChecked + 1).toNat = frame.hashesChecked.toNat + 1 := by
    rw [UInt64.toNat_add, UInt64.toNat_one]
    omega
  let counted : Shared := { shared with liveHashes := shared.liveHashes.map (· + 1) }
  let more : Worker := { w with hashed := w.hashed ++ [frame.nonce] }
  have hmore : more.hashed.length = w.hashed.length + 1 := List.length_append
  have heffect (v : Worker) (hv : v.hashed = more.hashed) : WorkerEffect w v shared counted :=
    ⟨rfl, rfl, rfl, rfl, id, Or.inl, ⟨1, by rw [hv, hmore], rfl⟩, hrunning⟩
  -- A scan that ends with this nonce returns its count, which is exact.
  have hreturn (chunk : ScanResult)
      (hafter : more.returnScan range workerHashes frame chunk counted = (w', shared'))
      (hchecks : chunk.hashesChecked = frame.hashesChecked + 1)
      (hreport : Reported c range frame.nonceEnd ext counted more.hashed chunk) :
      WorkerOk c range ext shared' w' ∧ WorkerEffect w w' shared shared' := by
    have hreturned := returnScan_ok c range ext counted more workerHashes frame chunk hend
      (by rw [hchecks, hchecked, hmore]; omega) hreport
    rw [hafter] at hreturned
    rcases hreturned with ⟨hok', hhashed, rfl⟩
    exact ⟨hok', heffect w' hhashed⟩
  simp only [Worker.hashNonce, ScanFrame.conclude] at h
  cases hmeets : meetsTarget (c.hashOf frame.nonce) c.target with
  | true =>
      rw [if_pos hmeets] at h
      exact hreturn _ h rfl ⟨w.hashed, rfl, hprogress, hle, rfl, hmeets⟩
  | false =>
      have hnot : ¬meetsTarget (c.hashOf frame.nonce) c.target = true := by
        rw [hmeets]
        exact Bool.false_ne_true
      have hsnoc := hprogress.snoc c range w.hashed frame.nonce hmeets
      rw [if_neg hnot] at h
      by_cases hlast : frame.nonce = frame.nonceEnd
      · -- The last nonce of the chunk, hashed in vain.
        rw [if_pos hlast] at h
        exact hreturn _ h rfl (by rw [Reported]; simp only [← hlast]; exact hsnoc)
      · -- The scan goes on with the next nonce, which exists.
        rw [if_neg hlast] at h
        simp only [Worker.goto, Prod.mk.injEq] at h
        rcases h with ⟨rfl, rfl⟩
        refine ⟨?_, heffect _ rfl⟩
        have hne : frame.nonce.toNat ≠ frame.nonceEnd.toNat :=
          fun h => hlast (UInt32.toNat_inj.mp h)
        have hnext := toNat_succ frame.nonce frame.nonceEnd (by omega)
        simp only [WorkerOk, hnext, hchecked, List.length_append, List.length_singleton]
        exact ⟨hsnoc, by omega, hend, by omega⟩

/-- A step of a worker keeps its invariant, and its effect on the shared
    variables is the expected one. -/
theorem workerStep_ok (shared : Shared) (w w' : Worker) (shared' : Shared)
    (hok : WorkerOk c range ext shared w) (hext : External shared → ext)
    (h : workerStep c range shared w = some (w', shared')) :
    WorkerOk c range ext shared' w' ∧ WorkerEffect w w' shared shared' := by
  cases hpc : w.pc with
  | refreshBefore chunkBegin workerHashes =>
      have hrunning : w.pc.result = none := by
        rw [hpc]
        rfl
      rw [WorkerOk, hpc] at hok
      rcases hok with ⟨hprogress, hle, hcount⟩
      simp only [workerStep, hpc] at h
      by_cases hrefresh : raised shared.refreshRequested = true
      · rw [if_pos hrefresh, Option.some.injEq] at h
        refine goto_ok c range ext shared w w' shared' _ hrunning h ⟨?_, hcount⟩
        exact ⟨Or.inr (hext (Or.inr (Or.inr hrefresh))), _, hprogress, by omega⟩
      · rw [if_neg hrefresh, Option.some.injEq] at h
        refine goto_ok c range ext shared w w' shared' _ hrunning h ?_
        rcases chunkEnd_bounds range chunkBegin hle with ⟨hlow, hhigh⟩
        simp only [WorkerOk, enterScan_eq range chunkBegin workerHashes hle]
        exact ⟨hprogress, hlow, hhigh, by rw [hcount]; rfl⟩
  | scanning point workerHashes frame =>
      cases point with
      | readCancelled =>
          simp only [workerStep, hpc, Option.some.injEq] at h
          exact readFlag_ok c range ext shared w w' shared' _ _ _ _ _ Or.inl hpc hok h
      | readCancelledSecondary =>
          simp only [workerStep, hpc, Option.some.injEq] at h
          exact readFlag_ok c range ext shared w w' shared' _ _ _ _ _
            (fun hs => Or.inr (hext (Or.inl hs))) hpc hok h
      | readCancelledTertiary =>
          simp only [workerStep, hpc, Option.some.injEq] at h
          exact readFlag_ok c range ext shared w w' shared' _ _ _ _ _
            (fun hs => Or.inr (hext (Or.inr (Or.inl hs)))) hpc hok h
      | hash =>
          simp only [workerStep, hpc, Option.some.injEq] at h
          exact hashNonce_ok c range ext shared w w' shared' _ _ hpc hok h
  | storeStop result =>
      -- The only step that raises the stop flag, by a worker that has won.
      simp only [workerStep, hpc, Worker.goto, Option.some.injEq, Prod.mk.injEq] at h
      rcases h with ⟨rfl, rfl⟩
      rw [WorkerOk, hpc] at hok
      rcases hok with ⟨hfound, hreport, hcount⟩
      refine ⟨⟨reported_mono c range ext ext _ shared _ _ _ (fun _ => Or.inl rfl) hreport, hcount⟩,
        ?_⟩
      have hsilent := WorkerEffect.silent w { w with pc := .done result } shared rfl
        (by rw [hpc]; rfl)
      exact ⟨rfl, rfl, rfl, rfl, fun _ => rfl, fun _ => Or.inr ⟨result, rfl, hfound⟩,
        hsilent.counted, hsilent.wasRunning⟩
  | refreshAfter chunkEnd workerHashes =>
      have hrunning : w.pc.result = none := by
        rw [hpc]
        rfl
      rw [WorkerOk, hpc] at hok
      rcases hok with ⟨hprogress, hlt, hcount⟩
      simp only [workerStep, hpc] at h
      by_cases hrefresh : raised shared.refreshRequested = true
      · rw [if_pos hrefresh, Option.some.injEq] at h
        refine goto_ok c range ext shared w w' shared' _ hrunning h ⟨?_, hcount⟩
        exact ⟨Or.inr (hext (Or.inr (Or.inr hrefresh))), _, hprogress, by omega⟩
      · rw [if_neg hrefresh, Option.some.injEq] at h
        refine goto_ok c range ext shared w w' shared' _ hrunning h ?_
        have hnext := toNat_succ chunkEnd range.rangeEnd hlt
        simp only [WorkerOk, hnext]
        exact ⟨hprogress, by omega, hcount⟩
  | done result => simp only [workerStep, hpc, reduceCtorEq] at h
  | threw => simp only [workerStep, hpc, reduceCtorEq] at h

end

end MercaMiner
