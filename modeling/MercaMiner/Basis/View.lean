import Mathlib.Logic.Function.Basic

/-!
# Views of a State

A part of a state that can be read and replaced, and operations that work on
one part at a time.

A `View` carries the three laws that make it a part: what was put is what is
read, putting back what was read changes nothing, and a second put forgets the
first. `modify` applies a function to the part in place. Reading a different
part is unaffected when the two views are `Apart`, and a `sweep` over views
that are pairwise apart therefore acts on every part as if it were alone.

Undoing works part by part too: if `g` undoes `f` on the part, then `modify g`
undoes `modify f` on the state, and sweeping `g` over the views in reverse order
undoes sweeping `f`, whether or not the views are apart.

## Main definitions

* `View`: A part of a state.
* `View.modify`: Applying a function to the part in place.
* `View.Apart`: Replacing one part leaves another as it was.
* `View.sweep`: Applying a function to the parts of a list, one after another.

## Theorems

* `modify_leftInverse`: Undoing an operation in place.
* `sweep_leftInverse`: Undoing a sweep in reverse order.
* `get_modify_apart`, `get_sweep_apart`: What lies apart stays.
* `get_sweep`: A sweep over parts that lie apart acts on each alone.
-/

structure View (σ : Type*) (α : Type*) where
  get : σ → α
  put : σ → α → σ
  get_put : ∀ s x, get (put s x) = x
  put_get : ∀ s, put s (get s) = s
  put_put : ∀ s x y, put (put s x) y = put s y

namespace View

variable {σ : Type*} {α : Type*} {β : Type*}

/-- Apply a function to the part in place. -/
def modify (v : View σ α) (f : α → α) (s : σ) : σ :=
  v.put s (f (v.get s))

theorem get_modify (v : View σ α) (f : α → α) (s : σ) : v.get (v.modify f s) = f (v.get s) :=
  v.get_put s (f (v.get s))

/-- What undoes a function on the part undoes it in place. -/
theorem modify_leftInverse (v : View σ α) (f g : α → α) (h : Function.LeftInverse g f) :
    Function.LeftInverse (v.modify g) (v.modify f) := by
  intro s
  unfold modify
  rw [v.get_put, v.put_put, h (v.get s), v.put_get]

/-- Replacing the part behind `v` leaves the one behind `w` as it was. -/
def Apart (v : View σ α) (w : View σ β) : Prop :=
  ∀ s x, w.get (v.put s x) = w.get s

theorem get_modify_apart (v : View σ α) (w : View σ β) (h : v.Apart w) (f : α → α) (s : σ) :
    w.get (v.modify f s) = w.get s :=
  h s (f (v.get s))

/-- Apply a function to the parts of a list, one after another. -/
def sweep (f : α → α) (views : List (View σ α)) (s : σ) : σ :=
  views.foldl (fun s v => v.modify f s) s

theorem sweep_cons (f : α → α) (v : View σ α) (views : List (View σ α)) (s : σ) :
    sweep f (v :: views) s = sweep f views (v.modify f s) := rfl

theorem sweep_concat (f : α → α) (v : View σ α) (views : List (View σ α)) (s : σ) :
    sweep f (views ++ [v]) s = v.modify f (sweep f views s) := by
  unfold sweep
  rw [List.foldl_append, List.foldl_cons, List.foldl_nil]

/-- The last part a sweep worked on is the first one to be undone, so the
    reverse order undoes the whole sweep. The parts may overlap. -/
theorem sweep_leftInverse (f g : α → α) (h : Function.LeftInverse g f)
    (views : List (View σ α)) :
    Function.LeftInverse (sweep g views.reverse) (sweep f views) := by
  intro s
  induction views generalizing s with
  | nil => rfl
  | cons v views ih =>
      rw [List.reverse_cons, sweep_concat, sweep_cons, ih]
      exact modify_leftInverse v f g h s

/-- What lies apart from every part of a sweep stays as it was. -/
theorem get_sweep_apart (f : α → α) (w : View σ β) (views : List (View σ α))
    (h : ∀ v ∈ views, v.Apart w) (s : σ) : w.get (sweep f views s) = w.get s := by
  induction views generalizing s with
  | nil => rfl
  | cons v views ih =>
      rw [sweep_cons, ih (fun u hu => h u (List.mem_cons_of_mem v hu))]
      exact get_modify_apart v w (h v List.mem_cons_self) f s

/-- A sweep over parts that lie apart acts on each of them as if it were
    alone. -/
theorem get_sweep (f : α → α) (views : List (View σ α))
    (hapart : views.Pairwise (fun v w => v.Apart w ∧ w.Apart v)) (v : View σ α)
    (hv : v ∈ views) (s : σ) : v.get (sweep f views s) = f (v.get s) := by
  induction views generalizing s with
  | nil => exact absurd hv List.not_mem_nil
  | cons u views ih =>
      rw [List.pairwise_cons] at hapart
      rw [sweep_cons]
      rcases List.mem_cons.mp hv with rfl | hin
      · -- The part in question comes first; the rest of the sweep lies apart from it.
        rw [get_sweep_apart f v views (fun w hw => (hapart.1 w hw).2), get_modify]
      · -- It comes later, and what came first lies apart from it.
        rw [ih hapart.2 hin, get_modify_apart u v (hapart.1 v hin).1]

end View
