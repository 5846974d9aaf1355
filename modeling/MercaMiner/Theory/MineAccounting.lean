import MercaMiner.Theory.MineOutcome

/-!
# Counting Hashes

The bookkeeping of a mining call: which nonces are hashed, and how the counts
that reach the caller relate to them.

The nonces a worker has hashed are an initial part of its range, and the
ranges tile the requested interval, so no nonce occurs twice. The number of
nonces hashed is at most the size of the interval, which leaves every
saturating addition far from its bound.

## Theorems

* `hashed_nodup`: No nonce is hashed twice, by one worker or by two.
* `mine_accounting`: Coverage and counting for every schedule.
-/

namespace MercaMiner

open Tiling Transition

/-- All nonces hashed so far, worker by worker. -/
def MineState.hashed (s : MineState) : List UInt32 :=
  s.workers.flatMap fun w => w.hashed

theorem MineState.length_hashed (s : MineState) : s.hashed.length = s.hashCount := by
  rw [MineState.hashed, MineState.hashCount, List.length_flatMap]

/-- The nonces a worker has hashed are in its range. -/
theorem WorkerOk.hashed_bounds (c : MineContext) (range : NonceRange) (ext : Prop)
    (shared : Shared) (w : Worker) (h : WorkerOk c range ext shared w) (nonce : UInt32)
    (hmem : nonce ∈ w.hashed) :
    range.span.1 ≤ nonce.toNat ∧ nonce.toNat < range.span.2 := by
  rcases h.scanned c range ext shared w with ⟨horder, hle⟩
  have hrange : nonce.toNat ∈ List.range' range.rangeBegin.toNat w.hashed.length := by
    rw [← horder]
    exact List.mem_map_of_mem hmem
  rw [List.mem_range'_1] at hrange
  simp only [NonceRange.span]
  omega

theorem WorkerOk.hashed_nodup (c : MineContext) (range : NonceRange) (ext : Prop)
    (shared : Shared) (w : Worker) (h : WorkerOk c range ext shared w) : w.hashed.Nodup := by
  have hnodup : (w.hashed.map UInt32.toNat).Nodup := by
    rw [(h.scanned c range ext shared w).1]
    exact List.nodup_range'
  exact hnodup.of_map _

section

variable (hashV1 : Bytes → UInt256) (candidate : BlockCandidate) (target : UInt256)
  (args : MineArguments) (c : MineContext) (ext : Prop) (s : MineState)

/-- No nonce is hashed by two workers or twice by one. -/
theorem hashed_nodup (hentered : Entered hashV1 candidate target args c)
    (hok : MineOk c args.liveHashes ext s) : s.hashed.Nodup := by
  rw [MineState.hashed, List.nodup_flatMap]
  refine ⟨fun w hw => ?_, ?_⟩
  · rcases List.getElem?_of_mem hw with ⟨i, hi⟩
    rcases hok.range_of_worker c _ ext s i w hi with ⟨range, _, hwok⟩
    exact hwok.hashed_nodup c range ext s.shared w
  · -- An earlier worker's range ends before a later one's begins.
    rw [List.pairwise_iff_getElem]
    intro i j hi hj hij nonce hleft hright
    rcases hok.range_of_worker c _ ext s i _ (List.getElem?_eq_getElem hi) with ⟨left, hl, hlok⟩
    rcases hok.range_of_worker c _ ext s j _ (List.getElem?_eq_getElem hj) with ⟨right, hr, hrok⟩
    rcases List.getElem?_eq_some_iff.mp hl with ⟨hil, hleq⟩
    rcases List.getElem?_eq_some_iff.mp hr with ⟨hjl, hreq⟩
    have hordered := List.pairwise_iff_getElem.mp (tiles_ordered _ _ _ hentered.tiles) i j
      (by rw [List.length_map]; exact hil) (by rw [List.length_map]; exact hjl) hij
    rw [List.getElem_map, List.getElem_map, hleq, hreq] at hordered
    have hlb := hlok.hashed_bounds c left ext s.shared _ nonce hleft
    have hrb := hrok.hashed_bounds c right ext s.shared _ nonce hright
    omega

theorem hashed_inRange (hentered : Entered hashV1 candidate target args c)
    (hok : MineOk c args.liveHashes ext s) (nonce : UInt32) (hmem : nonce ∈ s.hashed) :
    args.nonceBegin ≤ nonce ∧ nonce ≤ args.nonceEnd := by
  rcases List.mem_flatMap.mp hmem with ⟨w, hw, hn⟩
  rcases List.getElem?_of_mem hw with ⟨i, hi⟩
  rcases hok.range_of_worker c _ ext s i w hi with ⟨range, hrange, hwok⟩
  have hbounds := hwok.hashed_bounds c range ext s.shared w nonce hn
  have hspan := tiles_bounds _ _ _ hentered.tiles range.span (span_mem c.ranges i range hrange)
  rw [UInt32.le_iff_toNat_le, UInt32.le_iff_toNat_le]
  omega

/-- When every worker exhausted its range, as many nonces were hashed as there
    are. -/
theorem exhausted_count (hentered : Entered hashV1 candidate target args c)
    (hok : MineOk c args.liveHashes ext s) (results : List ScanResult)
    (hresults : s.results = some results) (hall : ∀ r ∈ results, r.status = .exhausted) :
    args.nonceBegin.toNat + s.hashCount = args.nonceEnd.toNat + 1 := by
  have hcovered := tiles_covered _ _ _ hentered.tiles
  have hle := hashCount_le c ext s hok.length hok.workers
  -- Each worker hashed at least as many nonces as its range holds.
  suffices hge : covered (c.ranges.map NonceRange.span) ≤ s.hashCount by omega
  rw [MineState.hashCount, covered, List.map_map]
  refine sum_le_of_entries _ _ (by rw [List.length_map, List.length_map, hok.length]) ?_
  intro i x y hx hy
  rw [List.getElem?_map] at hx hy
  rcases Option.map_eq_some_iff.mp hx with ⟨range, hrange, rfl⟩
  rcases Option.map_eq_some_iff.mp hy with ⟨w, hw, rfl⟩
  have hnext := (hok.exhausted_progress c ext _ s results hresults hall i range hrange w hw).next_eq
  simp only [Function.comp_apply, NonceRange.span]
  omega

end

/-- The accounting of a mining call, for every schedule of the workers and of
    the flags. At any time the nonces hashed are distinct and in range and no
    addition has saturated. On return the count is the number of nonces hashed
    and what the live counter was raised by, and an exhausted call has counted
    the whole range. -/
theorem mine_accounting (hashV1 : Bytes → UInt256) (candidate : BlockCandidate)
    (target : UInt256) (args : MineArguments)
    (hvalid : validateBlockCandidateForMining candidate = .ok ())
    (horder : args.nonceBegin ≤ args.nonceEnd) (hworkers : args.workerCount ≠ 0) :
    ∃ c s₀, mineStart hashV1 candidate target args = .ok (c, s₀) ∧
      ∀ acts s, run (mineStep c) s₀ acts = some s →
        s.hashed.Nodup ∧
        (∀ nonce ∈ s.hashed, args.nonceBegin ≤ nonce ∧ nonce ≤ args.nonceEnd) ∧
        s.shared.saturated = false ∧
        ∀ result after, s.main = .returned result after →
          result.hashesChecked.toNat = s.hashed.length ∧
          s.shared.liveHashes = args.liveHashes.map (· + result.hashesChecked) ∧
          (result.status = .exhausted →
            result.hashesChecked.toNat = args.nonceEnd.toNat - args.nonceBegin.toNat + 1) := by
  rcases mineStart_isOk hashV1 candidate target args hvalid horder hworkers with ⟨c, s₀, hstart⟩
  refine ⟨c, s₀, hstart, fun acts s hrun => ?_⟩
  rcases mine_reachable_ok hashV1 candidate target args c s₀ hstart acts s hrun with
    ⟨hentered, hok⟩
  refine ⟨hashed_nodup hashV1 candidate target args c _ s hentered hok,
    hashed_inRange hashV1 candidate target args c _ s hentered hok, hok.unsaturated,
    fun result after hmain => ?_⟩
  have hmainOk := hok.main
  rw [MainOk, hmain] at hmainOk
  rcases hmainOk with ⟨results, hresults, hcount, _, hconcluded⟩
  refine ⟨by rw [hcount, s.length_hashed], ?_, fun hexhausted => ?_⟩
  · rw [hok.live, ← hcount, UInt64.ofNat_toNat]
  · rw [hexhausted] at hconcluded
    have htotal := exhausted_count hashV1 candidate target args c _ s hentered hok results hresults
      hconcluded.1
    have hle := UInt32.le_iff_toNat_le.mp horder
    omega

/-- Two workers exhaust three nonces. -/
theorem mine_accounting_three_nonces :
    ∃ s result after,
      mineRun doubleSha256 bareCandidate UInt256.zero ⟨0, 2, 2, none, none, some 5, none⟩
        (List.replicate 9 (.worker 0) ++ List.replicate 5 (.worker 1) ++ List.replicate 3 .main)
        = some s ∧
      s.main = .returned result after ∧ result.status = .exhausted ∧
      result.hashesChecked.toNat = 3 ∧ s.hashed.Nodup ∧
      s.shared.liveHashes = some (5 + result.hashesChecked) := by
  have hfacts : ((mineRun doubleSha256 bareCandidate UInt256.zero
      ⟨0, 2, 2, none, none, some 5, none⟩
      (List.replicate 9 (.worker 0) ++ List.replicate 5 (.worker 1)
        ++ List.replicate 3 .main)).bind MineState.returned).map
      (fun p => p.1.status) = some .exhausted := by decide +kernel
  rcases Option.map_eq_some_iff.mp hfacts with ⟨⟨result, after⟩, hreturned, hstatus⟩
  rcases Option.bind_eq_some_iff.mp hreturned with ⟨s, hrun, hmain⟩
  rw [MineState.returned_eq] at hmain
  rcases mine_accounting doubleSha256 bareCandidate UInt256.zero
    ⟨0, 2, 2, none, none, some 5, none⟩ (by decide +kernel) (by decide) (by decide) with
    ⟨c, s₀, hstart, hall⟩
  have hrun' := hrun
  rw [mineRun_eq _ _ _ _ _ c s₀ hstart] at hrun'
  rcases hall _ s hrun' with ⟨hnodup, _, _, hreturn⟩
  rcases hreturn result after hmain with ⟨_, hlive, hexhausted⟩
  exact ⟨s, result, after, hrun, hmain, hstatus, hexhausted hstatus, hnodup, hlive⟩

end MercaMiner
