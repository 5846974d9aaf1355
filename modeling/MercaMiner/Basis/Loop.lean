import Mathlib.Data.List.Perm.Basic
import Mathlib.Data.Nat.Init

/-!
# Counted Loops

A loop over consecutive indices whose body can fail, and its induction rules.

The body receives the index and the loop's variables and returns the new
variables, or `none` where the program would stop. `total_of_invariant` is
the rule for one run: an invariant under which the body succeeds makes the
whole loop succeed. `total_of_relation` is the rule for two runs side by side
from different variables, which is what a statement about independence of
some variable needs.

A loop is a sweep over the list of its indices, and a sweep can go over them
in any order: `sweep_perm` says that steps which commute give the same
variables in every order. `entries` lists the variables each step starts
from, and `invariant_of_entries` relates them to the variables at the end.

## Main definitions

* `loop`: The body at `count` consecutive indices.
* `sweep`: The body at the indices of a list.
* `entries`: The indices with the variables the body finds there.

## Theorems

* `total_of_invariant`: An invariant carries a loop to its end.
* `total_of_relation`: A relation carries two loops to their ends.
* `loop_total`: A body that always succeeds makes a loop that does.
* `bind_total`: So does one step after another.
* `sweep_perm`: Commuting steps can be taken in any order.
* `entries_index`: A loop enters its body once for each index, in order.
* `invariant_of_entries`: An invariant of the entries so far and the
  variables holds at the end of a loop.
-/

namespace Loop

variable {σ τ : Type*}

/-- Run the body at the indices `first`, `first + 1`, …, `count` of them. -/
def loop (body : Nat → σ → Option σ) : (count first : Nat) → σ → Option σ
  | 0, _, s => some s
  | count + 1, first, s => match body first s with
    | none => none
    | some s' => loop body count (first + 1) s'

theorem loop_succ_eq (body : Nat → σ → Option σ) (count first : Nat) (s : σ) :
    loop body (count + 1) first s =
      (body first s).bind fun s' => loop body count (first + 1) s' := by
  change (match body first s with
    | none => none
    | some s' => loop body count (first + 1) s') = _
  cases body first s <;> rfl

theorem loop_succ (body : Nat → σ → Option σ) (count first : Nat) (s s' : σ)
    (h : body first s = some s') :
    loop body (count + 1) first s = loop body count (first + 1) s' := by
  rw [loop_succ_eq, h, Option.bind_some]

theorem loop_succ_some (body : Nat → σ → Option σ) (count first : Nat) (s s' : σ)
    (h : loop body (count + 1) first s = some s') :
    ∃ next, body first s = some next ∧ loop body count (first + 1) next = some s' := by
  rw [loop_succ_eq] at h
  exact Option.bind_eq_some_iff.mp h

/-- The indices of two loops advance together, so a relation of the two
    bodies' variables is carried along. -/
theorem total_of_relation (body : Nat → σ → Option σ) (body' : Nat → τ → Option τ)
    (R : Nat → σ → τ → Prop) (count first : Nat) (s : σ) (t : τ) (h0 : R first s t)
    (hstep : ∀ i s t, first ≤ i → i < first + count → R i s t →
      ∃ s' t', body i s = some s' ∧ body' i t = some t' ∧ R (i + 1) s' t') :
    ∃ s' t', loop body count first s = some s' ∧ loop body' count first t = some t' ∧
      R (first + count) s' t' := by
  induction count generalizing first s t with
  | zero => exact ⟨s, t, rfl, rfl, h0⟩
  | succ k ih =>
      rcases hstep first s t (Nat.le_refl _) (by omega) h0 with ⟨s', t', hs, ht, hR⟩
      rcases ih (first + 1) s' t' hR fun i s t hi hlt =>
        hstep i s t (by omega) (by omega) with ⟨s'', t'', hs', ht', hR'⟩
      refine ⟨s'', t'', ?_, ?_, ?_⟩
      · rw [loop_succ body k first s s' hs, hs']
      · rw [loop_succ body' k first t t' ht, ht']
      · rwa [show first + (k + 1) = first + 1 + k by omega]

theorem total_of_invariant (body : Nat → σ → Option σ) (I : Nat → σ → Prop) (count first : Nat)
    (s : σ) (h0 : I first s)
    (hstep : ∀ i s, first ≤ i → i < first + count → I i s →
      ∃ s', body i s = some s' ∧ I (i + 1) s') :
    ∃ s', loop body count first s = some s' ∧ I (first + count) s' := by
  rcases total_of_relation body body (fun i s t => s = t ∧ I i s) count first s s ⟨rfl, h0⟩
    (by
      rintro i s t hi hlt ⟨rfl, hI⟩
      rcases hstep i s hi hlt hI with ⟨s', hs, hI'⟩
      exact ⟨s', s', hs, hs, rfl, hI'⟩) with ⟨s', _, hs, _, _, hI⟩
  exact ⟨s', hs, hI⟩

theorem loop_total (body : Nat → σ → Option σ) (count first : Nat) (s : σ)
    (hstep : ∀ i s, first ≤ i → i < first + count → ∃ s', body i s = some s') :
    ∃ s', loop body count first s = some s' := by
  rcases total_of_invariant body (fun _ _ => True) count first s trivial
    (fun i s hi hlt _ => by
      rcases hstep i s hi hlt with ⟨s', hs⟩
      exact ⟨s', hs, trivial⟩) with ⟨s', hs, _⟩
  exact ⟨s', hs⟩

/-- A sequence of two steps succeeds when both do. -/
theorem bind_total {α β : Type*} (x : Option α) (f : α → Option β) (hx : ∃ a, x = some a)
    (hf : ∀ a, x = some a → ∃ b, f a = some b) : ∃ b, x.bind f = some b := by
  rcases hx with ⟨a, ha⟩
  rcases hf a ha with ⟨b, hb⟩
  exact ⟨b, by rw [ha, Option.bind_some, hb]⟩

/-- Run the body at the indices of a list. -/
def sweep {ι : Type*} (body : ι → σ → Option σ) : List ι → σ → Option σ
  | [], s => some s
  | i :: rest, s => (body i s).bind (sweep body rest)

theorem sweep_cons {ι : Type*} (body : ι → σ → Option σ) (i : ι) (rest : List ι) (s : σ) :
    sweep body (i :: rest) s = (body i s).bind (sweep body rest) :=
  rfl

theorem loop_eq_sweep (body : Nat → σ → Option σ) (count first : Nat) (s : σ) :
    loop body count first s = sweep body (List.range' first count) s := by
  induction count generalizing first s with
  | zero => rfl
  | succ k ih =>
      rw [loop_succ_eq, List.range'_succ, sweep_cons]
      cases body first s with
      | none => rfl
      | some s' => exact ih (first + 1) s'

theorem sweep_perm {ι : Type*} (body : ι → σ → Option σ) (order order' : List ι)
    (h : order.Perm order')
    (hcomm : ∀ i ∈ order, ∀ j ∈ order, i ≠ j → ∀ s,
      (body i s).bind (body j) = (body j s).bind (body i)) (s : σ) :
    sweep body order s = sweep body order' s := by
  induction h generalizing s with
  | nil => rfl
  | cons i _ ih =>
      rw [sweep_cons, sweep_cons]
      refine congrArg (Option.bind _) (funext fun s' => ih (fun a ha b hb => ?_) s')
      exact hcomm a (List.mem_cons_of_mem i ha) b (List.mem_cons_of_mem i hb)
  | swap i j rest =>
      simp only [sweep_cons]
      by_cases hij : i = j
      · rw [hij]
      · -- The two steps in front change places.
        have hswap := hcomm i (List.mem_cons_of_mem j List.mem_cons_self) j List.mem_cons_self hij s
        have hassoc (a b : ι) : (body a s).bind (sweep body (b :: rest)) =
            ((body a s).bind (body b)).bind (sweep body rest) := (Option.bind_assoc _ _ _).symm
        rw [hassoc j i, hassoc i j, hswap]
  | trans hfirst _ ih ih' =>
      rw [ih hcomm s]
      exact ih' (fun a ha b hb => hcomm a (hfirst.mem_iff.mpr ha) b (hfirst.mem_iff.mpr hb)) s

/-- The indices of a loop with the variables its body starts from. -/
def entries (body : Nat → σ → Option σ) : (count first : Nat) → σ → List (Nat × σ)
  | 0, _, _ => []
  | count + 1, first, s => (first, s) :: match body first s with
    | none => []
    | some s' => entries body count (first + 1) s'

theorem entries_succ (body : Nat → σ → Option σ) (count first : Nat) (s next : σ)
    (h : body first s = some next) :
    entries body (count + 1) first s = (first, s) :: entries body count (first + 1) next := by
  change (first, s) :: (match body first s with
    | none => []
    | some s' => entries body count (first + 1) s') = _
  rw [h]

/-- A loop that comes to its end has entered its body at each index. -/
theorem entries_index (body : Nat → σ → Option σ) (count first : Nat) (s s' : σ)
    (h : loop body count first s = some s') :
    (entries body count first s).map Prod.fst = List.range' first count := by
  induction count generalizing first s with
  | zero => rfl
  | succ k ih =>
      rcases loop_succ_some body k first s s' h with ⟨next, hbody, hrest⟩
      rw [entries_succ body k first s next hbody, List.map_cons, List.range'_succ]
      exact congrArg (first :: ·) (ih (first + 1) next hrest)

theorem length_entries (body : Nat → σ → Option σ) (count first : Nat) (s s' : σ)
    (h : loop body count first s = some s') : (entries body count first s).length = count := by
  rw [← List.length_map (f := Prod.fst), entries_index body count first s s' h,
    List.length_range']

theorem mem_entries (body : Nat → σ → Option σ) (count first : Nat) (s : σ) (e : Nat × σ)
    (h : e ∈ entries body count first s) : first ≤ e.1 ∧ e.1 < first + count := by
  induction count generalizing first s with
  | zero => exact absurd h List.not_mem_nil
  | succ k ih =>
      rw [entries] at h
      rcases List.mem_cons.mp h with rfl | hrest
      · exact ⟨Nat.le_refl _, by omega⟩
      · cases hbody : body first s with
        | none =>
            rw [hbody] at hrest
            exact absurd hrest List.not_mem_nil
        | some next =>
            rw [hbody] at hrest
            have hrange := ih (first + 1) next hrest
            omega

/-- The entries so far are known to an invariant, so that it can say what the
    variables have recorded about them. -/
theorem invariant_of_entries (body : Nat → σ → Option σ) (I : List (Nat × σ) → σ → Prop)
    (count first : Nat) (s s' : σ) (h : loop body count first s = some s') (h0 : I [] s)
    (hstep : ∀ seen i t t', i = first + seen.length → seen.length < count → I seen t →
      body i t = some t' → I (seen ++ [(i, t)]) t') :
    I (entries body count first s) s' := by
  -- The induction is on the iterations left, after some were made.
  have hfrom : ∀ (left : Nat) (seen : List (Nat × σ)) (t : σ), seen.length + left = count →
      I seen t → loop body left (first + seen.length) t = some s' →
      I (seen ++ entries body left (first + seen.length) t) s' := by
    intro left
    induction left with
    | zero =>
        intro seen t _ ht hloop
        cases hloop
        exact (List.append_nil seen).symm ▸ ht
    | succ k ih =>
        intro seen t hcount ht hloop
        rcases loop_succ_some body k _ t s' hloop with ⟨next, hbody, hrest⟩
        rw [entries_succ body k _ t next hbody]
        have hnext := hstep seen (first + seen.length) t next rfl (by omega) ht hbody
        have hall := ih (seen ++ [(first + seen.length, t)]) next
          (by rw [List.length_append, List.length_singleton]; omega) hnext
        simp only [List.length_append, List.length_singleton, List.append_assoc,
          List.singleton_append, ← Nat.add_assoc] at hall
        exact hall hrest
  have hall := hfrom count [] s (Nat.zero_add count) h0 (by rw [List.length_nil]; exact h)
  rwa [List.nil_append, List.length_nil, Nat.add_zero] at hall

end Loop
