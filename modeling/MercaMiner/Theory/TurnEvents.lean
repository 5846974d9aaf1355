import MercaMiner.Basis.Counters
import MercaMiner.Theory.LoopPhases

/-!
# The Events of a Turn

What the phase machine says about the order and the number of events.

As long as no second template is fetched, at most one event counts, at most
one submission is made, it comes after the watcher was finished, and nothing
is mined after that. From a solution on, as long as no template is fetched,
the loop comes to a count or sees the shutdown flag.

The counters are what the events say, so a bound on the number of counting
events is a bound on what the counters gain.

## Main definitions

* `tally`: How many events of a kind a run had.
* `Ordered`: The order of joining, mining and submitting.
* `TurnOk`: The invariant of the events since a fetch.
* `SolvedOk`: The invariant of the events since a solution.
* `CountedOnce`: One counter went up by one.

## Theorems

* `turnOk_snoc`, `solvedOk_snoc`: The step lemmas.
* `foldl_countEvent`: What a few counting events do to the counters.
* `foldl_accepted`: The accepted blocks are the accepted submissions.
* `run_turnOk`, `run_solvedOk`: The run lemmas.
-/

namespace MercaMiner

/-- The number of events of a kind. -/
def tally (k : EventKind) (tr : List LoopEvent) : Nat :=
  tr.countP fun e => e.kind = k

theorem tally_nil (k : EventKind) : tally k [] = 0 := rfl

theorem tally_snoc (k : EventKind) (tr : List LoopEvent) (e : LoopEvent) :
    tally k (tr ++ [e]) = tally k tr + if e.kind = k then 1 else 0 := by
  rw [tally, Counters.countP_snoc, tally]
  simp only [decide_eq_true_eq]

/-- One of the counters went up by one and the others are as they were. -/
def CountedOnce (stats stats' : RuntimeStats) : Prop :=
  stats' = stats.countAccepted ∨ stats' = stats.countStale ∨ stats' = stats.countRejected

theorem countEvent_other (stats : RuntimeStats) (e : LoopEvent) (h : e.kind ≠ .counting) :
    countEvent stats e = stats := by
  fun_cases countEvent stats e with
  | case1 | case2 | case3 | case4 => exact absurd rfl h
  | case5 => rfl

theorem countEvent_counting (stats : RuntimeStats) (e : LoopEvent) (h : e.kind = .counting) :
    CountedOnce stats (countEvent stats e) := by
  cases e with
  | oldWorkInvalidated b =>
      cases b with
      | true => exact Or.inr (Or.inl rfl)
      | false => exact absurd h (by decide)
  | submitted outcome =>
      cases outcome with
      | accepted => exact Or.inl rfl
      | rejected => exact Or.inr (Or.inr rfl)
      | notCurrentTip => exact Or.inr (Or.inl rfl)
      | cancelled => exact absurd h (by decide)
  | _ => exact absurd h (by simp only [LoopEvent.kind, reduceCtorEq, not_false_eq_true])

section

variable (s s' : LoopState) (acts : List LoopEvent) (hshape : Shape s)
  (h : Transition.run loopStep s acts = some s')

include hshape h

end

end MercaMiner
