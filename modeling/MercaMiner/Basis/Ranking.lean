import MercaMiner.Basis.Transition

/-!
# Ranking Functions

Termination of a system given by a partial step function, and projections of
one system onto another.

A rank is a number that every step lowers, as long as an invariant holds. It
bounds the length of every run. Together with progress, which says that a
state that is not final has an enabled step, it gives completion: every run
can be continued to a final state, and no run avoids one for longer than the
rank allows.

A view maps the states of a composed system to those of a component. If every
step of the whole is a step of the component, or one it does not notice, then
what the component can reach bounds what the whole can reach.

## Main definitions

* `Ranked`: Every step keeps the invariant and lowers the rank.
* `Stuck`: No action is enabled.

## Theorems

* `Ranked.length_le`: A run is no longer than the rank at its start.
* `Ranked.completes`: Every state can reach a final one.
* `Ranked.final_of_stuck`: A run that cannot go on has reached one.
* `run_project`: A run of the whole is a run of the component.
-/

namespace Transition

variable {σ : Type*} {α : Type*} (step : σ → α → Option σ)

/-- From a state of the invariant, every step leads to one of lower rank. -/
structure Ranked (P : σ → Prop) (rank : σ → Nat) : Prop where
  keep : ∀ s a s', P s → step s a = some s' → P s'
  lower : ∀ s a s', P s → step s a = some s' → rank s' < rank s

/-- No action is enabled. -/
def Stuck (s : σ) : Prop :=
  ∀ a, step s a = none

section

variable {step} {P : σ → Prop} {rank : σ → Nat}

/-- Each step of a run is paid for by the rank. -/
theorem Ranked.length_add_le (h : Ranked step P rank) (s t : σ) (acts : List α) (hs : P s)
    (hrun : run step s acts = some t) : acts.length + rank t ≤ rank s := by
  induction acts generalizing s with
  | nil =>
      rw [run_nil, Option.some.injEq] at hrun
      rw [hrun, List.length_nil]
      omega
  | cons a acts ih =>
      rcases run_cons_some step s t a acts hrun with ⟨s', hstep, hrest⟩
      have htail := ih s' (h.keep s a s' hs hstep) hrest
      have hhead := h.lower s a s' hs hstep
      rw [List.length_cons]
      omega

theorem Ranked.length_le (h : Ranked step P rank) (s t : σ) (acts : List α) (hs : P s)
    (hrun : run step s acts = some t) : acts.length ≤ rank s :=
  Nat.le_of_add_right_le (h.length_add_le s t acts hs hrun)

/-- With progress, a final state can be reached. -/
theorem Ranked.completes (h : Ranked step P rank) (Final : σ → Prop)
    (hprogress : ∀ s, P s → ¬Final s → ∃ a s', step s a = some s') (s : σ) (hs : P s) :
    ∃ acts t, run step s acts = some t ∧ Final t := by
  -- The induction is on the rank, which the enabled step lowers.
  induction hrank : rank s using Nat.strongRecOn generalizing s with
  | ind n ih =>
      by_cases hfinal : Final s
      · exact ⟨[], s, rfl, hfinal⟩
      rcases hprogress s hs hfinal with ⟨a, s', hstep⟩
      have hless := h.lower s a s' hs hstep
      rcases ih (rank s') (by omega) s' (h.keep s a s' hs hstep) rfl with ⟨acts, t, hrun, ht⟩
      refine ⟨a :: acts, t, ?_, ht⟩
      rw [run_cons step s s' a acts hstep, hrun]

/-- With progress, a run ends only at a final state. -/
theorem Ranked.final_of_stuck (h : Ranked step P rank) (Final : σ → Prop)
    (hprogress : ∀ s, P s → ¬Final s → ∃ a s', step s a = some s') (s t : σ) (acts : List α)
    (hs : P s) (hrun : run step s acts = some t) (hstuck : Stuck step t) : Final t := by
  by_contra hfinal
  rcases hprogress t (run_invariant step P h.keep s hs acts t hrun) hfinal with ⟨a, t', hstep⟩
  exact absurd ((hstuck a).symm.trans hstep) (by simp only [reduceCtorEq, not_false_eq_true])

end

/-- Steps of the whole are steps of the component, or it does not notice
    them. -/
theorem run_project {τ β : Type*} (step' : τ → β → Option τ) (view : σ → τ)
    (h : ∀ s a s', step s a = some s' →
      view s' = view s ∨ ∃ b, step' (view s) b = some (view s'))
    (s t : σ) (acts : List α) (hrun : run step s acts = some t) :
    ∃ acts', run step' (view s) acts' = some (view t) := by
  induction acts generalizing s with
  | nil =>
      rw [run_nil, Option.some.injEq] at hrun
      exact ⟨[], by rw [hrun]; rfl⟩
  | cons a acts ih =>
      rcases run_cons_some step s t a acts hrun with ⟨s', hstep, hrest⟩
      rcases ih s' hrest with ⟨acts', hacts⟩
      rcases h s a s' hstep with hsame | ⟨b, hb⟩
      · exact ⟨acts', by rw [← hsame, hacts]⟩
      · refine ⟨b :: acts', ?_⟩
        rw [run_cons step' _ _ b acts' hb, hacts]

end Transition
