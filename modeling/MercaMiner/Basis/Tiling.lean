import Mathlib.Algebra.Ring.Nat
import Mathlib.Data.List.Basic

/-!
# Tilings

Lists of spans that cover an interval of numbers without gap or overlap.

A span is half open. `Tiles lo spans hi` says the spans, in order, start at
`lo`, each at the end of the one before it, and stop at `hi`. Dividing work
into such spans is what makes the parts disjoint and the whole complete, and
both facts are read off the predicate here.

## Main definitions

* `Tiles`: The spans cover an interval in order.
* `covered`: The total size of a list of spans.

## Theorems

* `tiles_bounds`: Every span is non-empty and inside the interval.
* `tiles_cover`: Every number of the interval is in a span.
* `tiles_ordered`: A later span starts after an earlier one ends.
* `tiles_covered`: The sizes add up to the size of the interval.
-/

namespace Tiling

/-- The spans cover the numbers from `lo` up to `hi`, in order. -/
def Tiles : Nat → List (Nat × Nat) → Nat → Prop
  | lo, [], hi => lo = hi
  | lo, span :: rest, hi => span.1 = lo ∧ span.1 < span.2 ∧ Tiles span.2 rest hi

/-- The total size of the spans. -/
def covered (spans : List (Nat × Nat)) : Nat :=
  (spans.map fun span => span.2 - span.1).sum

theorem tiles_le (spans : List (Nat × Nat)) (lo hi : Nat) (h : Tiles lo spans hi) : lo ≤ hi := by
  induction spans generalizing lo with
  | nil => exact Nat.le_of_eq h
  | cons span rest ih =>
      rcases h with ⟨hlo, hlt, hrest⟩
      have hle := ih span.2 hrest
      omega

theorem tiles_bounds (spans : List (Nat × Nat)) (lo hi : Nat) (h : Tiles lo spans hi)
    (span : Nat × Nat) (hmem : span ∈ spans) :
    lo ≤ span.1 ∧ span.1 < span.2 ∧ span.2 ≤ hi := by
  induction spans generalizing lo with
  | nil => exact absurd hmem (List.not_mem_nil)
  | cons first rest ih =>
      rcases h with ⟨hlo, hlt, hrest⟩
      have hle := tiles_le rest first.2 hi hrest
      rcases List.mem_cons.mp hmem with rfl | htail
      · omega
      · rcases ih first.2 hrest htail with ⟨h1, h2, h3⟩
        omega

theorem tiles_cover (spans : List (Nat × Nat)) (lo hi x : Nat) (h : Tiles lo spans hi)
    (hlo : lo ≤ x) (hhi : x < hi) : ∃ span ∈ spans, span.1 ≤ x ∧ x < span.2 := by
  induction spans generalizing lo with
  | nil =>
      have heq : lo = hi := h
      omega
  | cons first rest ih =>
      rcases h with ⟨hfirst, hlt, hrest⟩
      by_cases hx : x < first.2
      · exact ⟨first, List.mem_cons_self, by omega, hx⟩
      · rcases ih first.2 hrest (by omega) with ⟨span, hmem, hin⟩
        exact ⟨span, List.mem_cons_of_mem _ hmem, hin⟩

theorem tiles_ordered (spans : List (Nat × Nat)) (lo hi : Nat) (h : Tiles lo spans hi) :
    spans.Pairwise fun a b => a.2 ≤ b.1 := by
  induction spans generalizing lo with
  | nil => exact List.Pairwise.nil
  | cons first rest ih =>
      rcases h with ⟨_, _, hrest⟩
      refine List.pairwise_cons.mpr ⟨fun b hb => ?_, ih first.2 hrest⟩
      exact (tiles_bounds rest first.2 hi hrest b hb).1

theorem tiles_covered (spans : List (Nat × Nat)) (lo hi : Nat) (h : Tiles lo spans hi) :
    lo + covered spans = hi := by
  induction spans generalizing lo with
  | nil => exact h
  | cons first rest ih =>
      rcases h with ⟨hfirst, hlt, hrest⟩
      have htail := ih first.2 hrest
      simp only [covered, List.map_cons, List.sum_cons] at htail ⊢
      omega

end Tiling
