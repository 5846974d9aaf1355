import Mathlib.Data.List.Basic
import Mathlib.Data.Nat.Init

/-!
# Data Consumed in Chunks

A fold that takes its data a fixed number of elements at a time and leaves
what does not fill a chunk.

Programs that process a stream of data in chunks keep the state of the fold
and the elements that have not filled a chunk yet. `feed` is one arrival of
data at such a program. How the data is cut into arrivals does not matter:
`feed_feed` joins two arrivals and `foldl_feed` any number of them, so what a
program holds after a sequence of arrivals is what it would hold had all the
data come at once.

A fold over small chunks whose state counts how many of them make a large one
is a fold over large chunks, and `absorb_of_simulation` says so.

## Main definitions

* `consume`: A given number of chunks.
* `absorb`: All whole chunks of the data.
* `feed`: More data for a state and the elements kept from before.

## Theorems

* `absorb_induction`: The induction on the number of chunks.
* `length_rest`: What is left is the remainder of the length.
* `absorb_append`: Data can be absorbed in two parts.
* `feed_feed`, `foldl_feed`: Two arrivals, and any number, are one.
* `absorb_map`: Two steps that correspond on whole chunks.
* `absorb_of_simulation`: Small chunks simulating large ones.
-/

namespace Chunks

variable {α σ τ : Type*}

/-- Fold over chunks of `n` elements, a given number of them, and give back
    the data behind them. -/
def consume (n : Nat) (step : σ → List α → σ) : Nat → σ → List α → σ × List α
  | 0, s, l => (s, l)
  | count + 1, s, l => consume n step count (step s (l.take n)) (l.drop n)

/-- Fold over all whole chunks of `n` elements. -/
def absorb (n : Nat) (step : σ → List α → σ) (s : σ) (l : List α) : σ × List α :=
  consume n step (l.length / n) s l

/-- More data arrives behind the elements kept. -/
def feed (n : Nat) (step : σ → List α → σ) (p : σ × List α) (data : List α) : σ × List α :=
  absorb n step p.1 (p.2 ++ data)

section

variable (n : Nat) (step : σ → List α → σ)

theorem absorb_of_lt (s : σ) (l : List α) (h : l.length < n) : absorb n step s l = (s, l) := by
  unfold absorb
  rw [Nat.div_eq_of_lt h]
  rfl

theorem absorb_of_le (hn : 0 < n) (s : σ) (l : List α) (h : n ≤ l.length) :
    absorb n step s l = absorb n step (step s (l.take n)) (l.drop n) := by
  unfold absorb
  rw [Nat.div_eq_sub_div hn h, List.length_drop]
  rfl

theorem absorb_chunk (hn : 0 < n) (s : σ) (chunk l : List α) (h : chunk.length = n) :
    absorb n step s (chunk ++ l) = absorb n step (step s chunk) l := by
  rw [absorb_of_le n step hn s _ (by rw [List.length_append]; omega), ← h, List.take_left,
    List.drop_left]

/-- Data is too short for a chunk, or a chunk in front of other data. -/
theorem absorb_induction (hn : 0 < n) (P : σ → List α → Prop)
    (hshort : ∀ s l, l.length < n → P s l)
    (hchunk : ∀ s chunk l, chunk.length = n → P (step s chunk) l → P s (chunk ++ l)) (s : σ)
    (l : List α) : P s l := by
  induction hl : l.length using Nat.strong_induction_on generalizing s l with
  | _ len ih =>
      by_cases hlt : l.length < n
      · exact hshort s l hlt
      · have hdrop : (l.drop n).length = l.length - n := List.length_drop
        have htake : (l.take n).length = n := by
          rw [List.length_take]
          omega
        have hrest := hchunk s (l.take n) (l.drop n) htake
          (ih (l.length - n) (by omega) (step s (l.take n)) (l.drop n) hdrop)
        rwa [List.take_append_drop] at hrest

theorem length_rest (hn : 0 < n) (s : σ) (l : List α) :
    (absorb n step s l).2.length = l.length % n := by
  refine absorb_induction n step hn (fun s l => (absorb n step s l).2.length = l.length % n)
    (fun s l hlt => ?_) (fun s chunk l hchunk ih => ?_) s l
  · rw [absorb_of_lt n step s l hlt, Nat.mod_eq_of_lt hlt]
  · rw [absorb_chunk n step hn s chunk l hchunk, ih, List.length_append, hchunk, Nat.add_mod_left]

theorem length_rest_lt (hn : 0 < n) (s : σ) (l : List α) : (absorb n step s l).2.length < n := by
  rw [length_rest n step hn]
  exact Nat.mod_lt _ hn

theorem rest_eq_nil (hn : 0 < n) (s : σ) (l : List α) (h : l.length % n = 0) :
    (absorb n step s l).2 = [] := by
  apply List.eq_nil_of_length_eq_zero
  rw [length_rest n step hn, h]

/-- The part that does not fill a chunk waits in front of the second part. -/
theorem absorb_append (hn : 0 < n) (s : σ) (l r : List α) :
    absorb n step s (l ++ r) =
      absorb n step (absorb n step s l).1 ((absorb n step s l).2 ++ r) := by
  refine absorb_induction n step hn (fun s l => absorb n step s (l ++ r) =
      absorb n step (absorb n step s l).1 ((absorb n step s l).2 ++ r))
    (fun s l hlt => ?_) (fun s chunk l hchunk ih => ?_) s l
  · rw [absorb_of_lt n step s l hlt]
  · rw [List.append_assoc, absorb_chunk n step hn s chunk _ hchunk,
      absorb_chunk n step hn s chunk l hchunk, ih]

theorem feed_nil (p : σ × List α) (h : p.2.length < n) : feed n step p [] = p := by
  unfold feed
  rw [List.append_nil, absorb_of_lt n step p.1 p.2 h]

theorem feed_feed (hn : 0 < n) (p : σ × List α) (l r : List α) :
    feed n step (feed n step p l) r = feed n step p (l ++ r) := by
  unfold feed
  rw [← List.append_assoc, absorb_append n step hn p.1 (p.2 ++ l) r]

theorem length_feed_lt (hn : 0 < n) (p : σ × List α) (data : List α) :
    (feed n step p data).2.length < n :=
  length_rest_lt n step hn p.1 _

theorem foldl_feed (hn : 0 < n) (p : σ × List α) (h : p.2.length < n) (datas : List (List α)) :
    datas.foldl (feed n step) p = feed n step p datas.flatten := by
  induction datas generalizing p with
  | nil => exact (feed_nil n step p h).symm
  | cons data rest ih =>
      rw [List.foldl_cons, ih _ (length_feed_lt n step hn p data), List.flatten_cons,
        feed_feed n step hn]

end

theorem snd_consume (n : Nat) (step : σ → List α → σ) (count : Nat) (s : σ) (l : List α) :
    (consume n step count s l).2 = l.drop (n * count) := by
  induction count generalizing s l with
  | zero => rfl
  | succ k ih => rw [consume, ih, List.drop_drop, Nat.mul_succ, Nat.add_comm]

/-- Two folds whose steps correspond on whole chunks. -/
theorem absorb_map (n : Nat) (hn : 0 < n) (step : σ → List α → σ) (step' : τ → List α → τ)
    (f : σ → τ) (h : ∀ s chunk, chunk.length = n → f (step s chunk) = step' (f s) chunk) (s : σ)
    (l : List α) :
    absorb n step' (f s) l = (f (absorb n step s l).1, (absorb n step s l).2) := by
  refine absorb_induction n step hn (fun s l =>
      absorb n step' (f s) l = (f (absorb n step s l).1, (absorb n step s l).2))
    (fun s l hlt => ?_) (fun s chunk l hchunk ih => ?_) s l
  · rw [absorb_of_lt n step s l hlt, absorb_of_lt n step' (f s) l hlt]
  · rw [absorb_chunk n step hn s chunk l hchunk, absorb_chunk n step' hn (f s) chunk l hchunk,
      ← h s chunk hchunk, ih]

/-- Steps over the small chunks of each large one that keep a relation to a
    step over the large one keep it over all data in large chunks. -/
theorem absorb_of_simulation (n m : Nat) (hn : 0 < n) (hm : 0 < m) (small : τ → List α → τ)
    (large : σ → List α → σ) (R : σ → τ → Prop)
    (hstep : ∀ s t chunk, chunk.length = n * m → R s t →
      R (large s chunk) (absorb n small t chunk).1)
    (s : σ) (t : τ) (l : List α) (hl : l.length % (n * m) = 0) (hR : R s t) :
    R (absorb (n * m) large s l).1 (absorb n small t l).1 := by
  have hnm : 0 < n * m := Nat.mul_pos hn hm
  refine absorb_induction (n * m) large hnm (fun s l => ∀ t, l.length % (n * m) = 0 → R s t →
      R (absorb (n * m) large s l).1 (absorb n small t l).1)
    (fun s l hlt t hl hR => ?_) (fun s chunk l hchunk ih t hl hR => ?_) s l t hl hR
  · -- Less than one large chunk is nothing at all.
    rw [Nat.mod_eq_of_lt hlt] at hl
    rw [List.eq_nil_of_length_eq_zero hl, absorb_of_lt n small _ [] hn,
      absorb_of_lt (n * m) large _ [] hnm]
    exact hR
  · rw [List.length_append, hchunk, Nat.add_mod_left] at hl
    have hrest : (absorb n small t chunk).2 = [] :=
      rest_eq_nil n small hn t chunk (by rw [hchunk, Nat.mul_mod_right])
    rw [absorb_chunk (n * m) large hnm s chunk l hchunk, absorb_append n small hn, hrest,
      List.nil_append]
    exact ih _ hl (hstep s t chunk hchunk hR)

end Chunks
