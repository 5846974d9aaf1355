import Mathlib.Data.List.Nodup
import Mathlib.Data.Fin.Basic

/-!
# Moving Words Around a Cycle in Place

A loop that permutes an array in place by carrying one word.

Each step stores a function of the word it carries at its own position and
carries on with the word it found there. When no position is visited twice,
every position ends with what was stored at its visit, and that was computed
from the word the array held, before the loop, at the position of the visit
before. No temporary array is needed, which is why programs permute this way.

## Main definitions

* `walkStep`: One visit.
* `walk`: The visits of a list.

## Theorems

* `getElem_walk_of_notMem`: A position without a visit keeps its word.
* `getElem_walk_head`, `getElem_walk_next`: What a visit leaves behind.
* `getElem_walk_succ`: The same by the number of the visit.
-/

namespace CycleWalk

variable {α : Type*} {n : Nat}

/-- Store a function of the carried word, and carry the word found there. -/
def walkStep (p : Vector α n × α) (step : Fin n × (α → α)) : Vector α n × α :=
  (p.1.set step.1.val (step.2 p.2), p.1[step.1.val])

def walk (steps : List (Fin n × (α → α))) (p : Vector α n × α) : Vector α n × α :=
  steps.foldl walkStep p

theorem getElem_walk_of_notMem (steps : List (Fin n × (α → α))) (p : Vector α n × α) (i : Nat)
    (hi : i < n) (h : ∀ step ∈ steps, step.1.val ≠ i) : (walk steps p).1[i] = p.1[i] := by
  induction steps generalizing p with
  | nil => rfl
  | cons step rest ih =>
      unfold walk
      rw [List.foldl_cons]
      refine (ih (walkStep p step) fun s hs => h s (List.mem_cons_of_mem _ hs)).trans ?_
      exact Vector.getElem_set_ne step.1.isLt hi (h step List.mem_cons_self)

/-- The first position takes the word the walk came with. -/
theorem getElem_walk_head (step : Fin n × (α → α)) (rest : List (Fin n × (α → α)))
    (p : Vector α n × α) (h : ∀ s ∈ rest, s.1 ≠ step.1) :
    (walk (step :: rest) p).1[step.1.val] = step.2 p.2 := by
  have hrest := getElem_walk_of_notMem rest (walkStep p step) step.1.val step.1.isLt
    fun s hs heq => h s hs (Fin.ext heq)
  exact hrest.trans (Vector.getElem_set_self _)

/-- Two consecutive visits: the second position takes the word the array held
    at the first one. -/
theorem getElem_walk_next (before : List (Fin n × (α → α))) (first second : Fin n × (α → α))
    (after : List (Fin n × (α → α))) (p : Vector α n × α)
    (h : ((before ++ first :: second :: after).map Prod.fst).Nodup) :
    (walk (before ++ first :: second :: after) p).1[second.1.val] =
      second.2 p.1[first.1.val] := by
  rw [List.map_append, List.map_cons, List.map_cons, List.nodup_append] at h
  have hfirst (s : Fin n × (α → α)) (hs : s ∈ before) : s.1.val ≠ first.1.val := fun heq =>
    h.2.2 s.1 (List.mem_map_of_mem hs) first.1 List.mem_cons_self (Fin.ext heq)
  have hsecond (s : Fin n × (α → α)) (hs : s ∈ after) : s.1 ≠ second.1 := fun heq =>
    (List.nodup_cons.mp (List.nodup_cons.mp h.2.1).2).1 (heq ▸ List.mem_map_of_mem hs)
  have hkeep := getElem_walk_of_notMem before p first.1.val first.1.isLt hfirst
  unfold walk at hkeep ⊢
  rw [List.foldl_append, List.foldl_cons, ← hkeep]
  exact getElem_walk_head second after _ hsecond

theorem getElem_walk_succ (steps : List (Fin n × (α → α))) (p : Vector α n × α)
    (h : (steps.map Prod.fst).Nodup) (k : Nat) (first second : Fin n × (α → α))
    (hfirst : steps[k]? = some first) (hsecond : steps[k + 1]? = some second) :
    (walk steps p).1[second.1.val] = second.2 p.1[first.1.val] := by
  rcases List.getElem?_eq_some_iff.mp hfirst with ⟨hk, rfl⟩
  rcases List.getElem?_eq_some_iff.mp hsecond with ⟨hk', rfl⟩
  have hsplit : steps = steps.take k ++ steps[k] :: steps[k + 1] :: steps.drop (k + 2) := by
    rw [← List.drop_eq_getElem_cons hk', ← List.drop_eq_getElem_cons hk,
      List.take_append_drop]
  have hnodup := h
  rw [hsplit] at hnodup
  have hnext := getElem_walk_next _ _ _ _ p hnodup
  rwa [← hsplit] at hnext

end CycleWalk
