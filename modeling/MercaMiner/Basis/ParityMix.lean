import Mathlib.Algebra.Group.Basic
import Mathlib.Algebra.Group.Nat.Defs
import Mathlib.Logic.Function.Iterate

/-!
# Mixing Parities

A mixing step over a cyclic row of words, and why it can be undone.

Every word is added to the word before it and to an additive function of the
word after it, where adding a word twice is adding nothing. Squaring the step
doubles the distance and squares the function, since the cross terms come in
pairs. So after enough squarings the function has become the identity, and
around a cycle of five the cube of what remains is the identity as well.

Words are of any type with an operation that is associative, commutative and
undone by itself, such as exclusive or.

## Main definitions

* `mix`: The step at a given distance.

## Theorems

* `mix_mix`: The square of a step.
* `iterate_mix_two_pow`: Repeated squaring.
* `mix_cube`: Around a cycle of five, three plain steps do nothing.
* `iterate_mix_eq_id`: A power of the step that does nothing.
-/

namespace ParityMix

section

variable {ι G : Type*} [AddCommGroup ι] (op : G → G → G)

/-- Add to each word the word before it and a function of the word after. -/
def mix (i : ι) (r : G → G) (c : ι → G) : ι → G :=
  fun x => op (op (c x) (c (x - i))) (r (c (x + i)))

variable [Std.Associative op] [Std.Commutative op]

/-- Three terms that occur twice in a sum leave it. -/
theorem cancel_pairs (hcancel : ∀ a b, op (op a b) b = a) (a b c d e f : G) :
    op (op (op (op a b) c) (op (op b d) e)) (op (op c e) f) = op (op a d) f := by
  calc op (op (op (op a b) c) (op (op b d) e)) (op (op c e) f)
      = op (op (op (op (op (op (op (op a d) f) b) b) c) c) e) e := by ac_rfl
    _ = op (op a d) f := by rw [hcancel, hcancel, hcancel]

theorem mix_mix (hcancel : ∀ a b, op (op a b) b = a) (i : ι) (r : G → G)
    (hr : ∀ a b, r (op a b) = op (r a) (r b)) (c : ι → G) :
    mix op i r (mix op i r c) = mix op (i + i) (r ∘ r) c := by
  funext x
  unfold mix
  rw [sub_add_cancel, add_sub_cancel_right, hr, hr, sub_sub, add_assoc]
  exact cancel_pairs op hcancel _ _ _ _ _ _

omit [Std.Associative op] [Std.Commutative op] in
theorem iterate_op (r : G → G) (hr : ∀ a b, r (op a b) = op (r a) (r b)) (n : Nat) (a b : G) :
    r^[n] (op a b) = op (r^[n] a) (r^[n] b) := by
  induction n with
  | zero => rfl
  | succ k ih => rw [Function.iterate_succ_apply', Function.iterate_succ_apply',
      Function.iterate_succ_apply', ih, hr]

theorem iterate_mix_two_pow (hcancel : ∀ a b, op (op a b) b = a) (i : ι) (r : G → G)
    (hr : ∀ a b, r (op a b) = op (r a) (r b)) (k : Nat) :
    (mix op i r)^[2 ^ k] = mix op (2 ^ k • i) r^[2 ^ k] := by
  induction k with
  | zero => rw [pow_zero, one_nsmul, Function.iterate_one, Function.iterate_one]
  | succ k ih =>
      funext c
      rw [pow_succ, Nat.mul_two, Function.iterate_add_apply, ih,
        mix_mix op hcancel _ _ (iterate_op op r hr (2 ^ k)), ← add_nsmul, ← Function.iterate_add]

theorem mix_cube (hcancel : ∀ a b, op (op a b) b = a) (i : ι) (h5 : 5 • i = 0) (c : ι → G) :
    mix op i id (mix op i id (mix op i id c)) = c := by
  funext x
  rw [mix_mix op hcancel i id (fun _ _ => rfl) c]
  unfold mix
  -- Three places back is two places on.
  have hback : x - i - (i + i) = x + (i + i) := by
    have hsum : i + i + (i + i + i) = 0 := by
      rw [← h5, succ_nsmul, succ_nsmul, succ_nsmul, two_nsmul]
      simp only [add_assoc]
    rw [sub_sub, sub_eq_iff_eq_add, add_assoc, show i + i + (i + (i + i)) = 0 by
      rw [← hsum]; simp only [add_assoc], add_zero]
  have hfore : x + i + (i + i) = x - (i + i) := by
    rw [eq_sub_iff_add_eq, add_assoc, add_assoc, ← add_assoc i]
    rw [show i + (i + i) + (i + i) = 5 • i by
      rw [succ_nsmul, succ_nsmul, succ_nsmul, two_nsmul]; simp only [add_assoc], h5, add_zero]
  rw [hback, hfore]
  rw [show x - i + (i + i) = x + i by rw [← add_assoc, sub_add_cancel],
    show x + i - (i + i) = x - i by rw [← sub_sub, add_sub_cancel_right]]
  simp only [Function.comp_apply, id]
  calc op (op (op (op (c x) (c (x - (i + i)))) (c (x + (i + i))))
        (op (op (c (x - i)) (c (x + (i + i)))) (c (x + i))))
        (op (op (c (x + i)) (c (x - i))) (c (x - (i + i))))
      = op (op (op (op (op (op (op (op (c x) (c (x - (i + i)))) (c (x - (i + i))))
          (c (x + (i + i)))) (c (x + (i + i)))) (c (x - i))) (c (x - i))) (c (x + i)))
          (c (x + i)) := by ac_rfl
    _ = c x := by rw [hcancel, hcancel, hcancel, hcancel]

/-- Once the function's powers come back to the identity, so do the step's. -/
theorem iterate_mix_eq_id (hcancel : ∀ a b, op (op a b) b = a) (i : ι) (h5 : 5 • i = 0)
    (r : G → G) (hr : ∀ a b, r (op a b) = op (r a) (r b)) (k : Nat) (hk : r^[2 ^ k] = id) :
    (mix op i r)^[2 ^ k * 3] = id := by
  have h5k : 5 • (2 ^ k • i) = 0 := by rw [nsmul_left_comm, h5, nsmul_zero]
  funext c
  rw [Function.iterate_mul, iterate_mix_two_pow op hcancel i r hr k, hk]
  exact mix_cube op hcancel (2 ^ k • i) h5k c

end

end ParityMix
