import Mathlib.Algebra.Group.Fin.Basic
import Mathlib.Data.Fintype.Pi
import MercaMiner.Basis.ParityMix
import MercaMiner.Basis.Rotation

/-!
# The Keccak-p Permutations

The step mappings of FIPS 202 on a state of five by five lanes, for any lane
width, and why they permute the states.

The lane in column `x` and sheet row `y` is `a x y`, and both coordinates are
counted modulo five. The rotation offsets come from the walk of the standard
and the round constants from its shift register; neither is tabulated here.

Every step mapping has an inverse. Those of `rho`, `pi`, `chi` and `iota` are
short formulas. `theta` adds to every column a word computed from the parities
of its neighbours, so it changes the parities by `ParityMix.mix`, and a power
of that step gives the old parities back from the new ones.

## Main definitions

* `State`: Five by five lanes.
* `theta`, `rho`, `pi`, `chi`, `iota`: The step mappings.
* `roundConstant`: The round constants, from the shift register.
* `permutation`: Keccak-f at a width of two to the `l`.

## Theorems

* `theta_bijective`, `rho_bijective`, `pi_bijective`, `chi_bijective`,
  `iota_bijective`: The step mappings are bijections.
* `permutation_bijective`: So is the whole permutation.
-/

namespace Fips202

abbrev State (w : Nat) := Fin 5 → Fin 5 → BitVec w

section

variable {w : Nat}

/-- The parity of a column. -/
def column (a : State w) (x : Fin 5) : BitVec w :=
  a x 0 ^^^ a x 1 ^^^ a x 2 ^^^ a x 3 ^^^ a x 4

/-- What the columns on either side say. -/
def neighbours (c : Fin 5 → BitVec w) (x : Fin 5) : BitVec w :=
  c (x - 1) ^^^ (c (x + 1)).rotateLeft 1

/-- Add a word to every lane of each column. -/
def addColumns (a : State w) (d : Fin 5 → BitVec w) : State w :=
  fun x y => a x y ^^^ d x

def theta (a : State w) : State w :=
  addColumns a (neighbours (column a))

/-- The positions the offsets are dealt to, in order. -/
def walk : Nat → Fin 5 × Fin 5
  | 0 => (1, 0)
  | t + 1 => ((walk t).2, 2 * (walk t).1 + 3 * (walk t).2)

def offset (x y : Fin 5) : Nat :=
  match (List.range 24).find? (fun t => walk t = (x, y)) with
  | some t => (t + 1) * (t + 2) / 2
  | none => 0

def rho (a : State w) : State w :=
  fun x y => (a x y).rotateLeft (offset x y)

def pi (a : State w) : State w :=
  fun x y => a (x + 3 * y) x

def chi (a : State w) : State w :=
  fun x y => a x y ^^^ (~~~a (x + 1) y &&& a (x + 2) y)

def iota (constant : BitVec w) (a : State w) : State w :=
  fun x y => if x = 0 ∧ y = 0 then a x y ^^^ constant else a x y

/-- One step of the shift register: the bit that leaves it is fed back. -/
def registerStep (r : BitVec 8) : BitVec 8 :=
  (r <<< 1) ^^^ (if r.msb then 0x71#8 else 0#8)

def rc (t : Nat) : Bool :=
  (registerStep^[t % 255] 1#8).getLsbD 0

/-- The constant of a round: bit `2 ^ j - 1` for each `j` up to `l`. -/
def roundConstant (w l ir : Nat) : BitVec w :=
  (List.range (l + 1)).foldl (fun constant j =>
    if rc (j + 7 * ir) then constant ||| (1#w <<< (2 ^ j - 1)) else constant) 0#w

def round (l ir : Nat) (a : State w) : State w :=
  iota (roundConstant w l ir) (chi (pi (rho (theta a))))

def permutation (l : Nat) (a : State w) : State w :=
  (List.range (12 + 2 * l)).foldl (fun a ir => round l ir a) a

theorem xor_cancel (a b : BitVec w) : a ^^^ b ^^^ b = a := by
  rw [BitVec.xor_assoc, BitVec.xor_self, BitVec.xor_zero]

/-- A word added to the five lanes of a column changes its parity once. -/
theorem column_addColumns (a : State w) (d : Fin 5 → BitVec w) (x : Fin 5) :
    column (addColumns a d) x = column a x ^^^ d x := by
  unfold column addColumns
  calc a x 0 ^^^ d x ^^^ (a x 1 ^^^ d x) ^^^ (a x 2 ^^^ d x) ^^^ (a x 3 ^^^ d x) ^^^ (a x 4 ^^^ d x)
      = a x 0 ^^^ a x 1 ^^^ a x 2 ^^^ a x 3 ^^^ a x 4 ^^^ d x ^^^ d x ^^^ d x ^^^ d x ^^^ d x := by
        ac_rfl
    _ = a x 0 ^^^ a x 1 ^^^ a x 2 ^^^ a x 3 ^^^ a x 4 ^^^ d x := by rw [xor_cancel, xor_cancel]

theorem addColumns_addColumns (a : State w) (d : Fin 5 → BitVec w) :
    addColumns (addColumns a d) d = a := by
  funext x y
  exact xor_cancel (a x y) (d x)

/-- What `theta` does to the parities. -/
def mixParities (c : Fin 5 → BitVec w) : Fin 5 → BitVec w :=
  ParityMix.mix (· ^^^ ·) (1 : Fin 5) (fun word => word.rotateLeft 1) c

theorem mixParities_eq (c : Fin 5 → BitVec w) (x : Fin 5) :
    mixParities c x = c x ^^^ neighbours c x :=
  BitVec.xor_assoc _ _ _

theorem column_theta (a : State w) : column (theta a) = mixParities (column a) := by
  funext x
  unfold theta
  rw [column_addColumns, mixParities_eq]

/-- The parities before `theta`, from those after it. -/
def unmixParities (k : Nat) (c : Fin 5 → BitVec w) : Fin 5 → BitVec w :=
  mixParities^[2 ^ k * 3 - 1] c

theorem iterate_mixParities (k : Nat) (hk : w ∣ 2 ^ k) :
    (mixParities : (Fin 5 → BitVec w) → Fin 5 → BitVec w)^[2 ^ k * 3] = id := by
  refine ParityMix.iterate_mix_eq_id (· ^^^ ·) xor_cancel (1 : Fin 5) (by decide)
    (fun word => word.rotateLeft 1) (fun a b => Rotation.rotateLeft_xor a b 1) k ?_
  rw [Rotation.iterate_rotateLeft]
  funext word
  rw [Nat.mul_one]
  exact Rotation.rotateLeft_of_dvd word (2 ^ k) hk

theorem unmixParities_mixParities (k : Nat) (hk : w ∣ 2 ^ k) (c : Fin 5 → BitVec w) :
    unmixParities k (mixParities c) = c := by
  have hpos : 2 ^ k * 3 - 1 + 1 = 2 ^ k * 3 := Nat.sub_add_cancel (by
    have := Nat.two_pow_pos k
    omega)
  unfold unmixParities
  rw [← Function.iterate_succ_apply mixParities, Nat.succ_eq_add_one, hpos,
    iterate_mixParities k hk]
  rfl

theorem mixParities_unmixParities (k : Nat) (hk : w ∣ 2 ^ k) (c : Fin 5 → BitVec w) :
    mixParities (unmixParities k c) = c := by
  unfold unmixParities
  rw [← Function.iterate_succ_apply' mixParities, Function.iterate_succ_apply]
  exact unmixParities_mixParities k hk c

def invTheta (k : Nat) (a : State w) : State w :=
  addColumns a (neighbours (unmixParities k (column a)))

theorem theta_bijective (k : Nat) (hk : w ∣ 2 ^ k) :
    Function.Bijective (theta : State w → State w) := by
  refine Function.bijective_iff_has_inverse.mpr ⟨invTheta k, fun a => ?_, fun a => ?_⟩
  · unfold invTheta
    rw [column_theta, unmixParities_mixParities k hk]
    exact addColumns_addColumns a _
  · -- The parities of the inverse are the unmixed ones.
    have hcolumn : column (invTheta k a) = unmixParities k (column a) := by
      funext x
      unfold invTheta
      rw [column_addColumns]
      conv_lhs => rw [← mixParities_unmixParities k hk (column a)]
      rw [mixParities_eq, mixParities_unmixParities k hk (column a), xor_cancel]
    unfold theta
    rw [hcolumn]
    exact addColumns_addColumns a _

theorem rho_bijective : Function.Bijective (rho : State w → State w) := by
  refine Function.bijective_iff_has_inverse.mpr
    ⟨fun a x y => (a x y).rotateRight (offset x y), fun a => ?_, fun a => ?_⟩
  · funext x y
    exact Rotation.rotateRight_rotateLeft (a x y) (offset x y)
  · funext x y
    exact Rotation.rotateLeft_rotateRight (a x y) (offset x y)

theorem pi_bijective : Function.Bijective (pi : State w → State w) := by
  refine Function.bijective_iff_has_inverse.mpr
    ⟨fun a x y => a y (2 * (x - y)), fun a => ?_, fun a => ?_⟩
  · funext x y
    have hback : ∀ x y : Fin 5, y + 3 * (2 * (x - y)) = x := by decide
    exact congrArg (fun u => a u y) (hback x y)
  · funext x y
    have hback : ∀ x y : Fin 5, 2 * (x + 3 * y - x) = y := by decide
    exact congrArg (a x) (hback x y)

/-- The inverse of `chi`, as short for a row of five lanes. -/
def invChi (a : State w) : State w :=
  fun x y => a x y ^^^ (~~~a (x + 1) y &&& (a (x + 2) y ^^^ (~~~a (x + 3) y &&& a (x + 4) y)))

/-- One bit position of a row, before and after. -/
theorem chi_row (b : Fin 5 → Bool) (x : Fin 5) :
    let c := fun x => b x ^^ (!b (x + 1) && b (x + 2))
    (c x ^^ (!c (x + 1) && (c (x + 2) ^^ (!c (x + 3) && c (x + 4))))) = b x := by
  revert b x
  decide

theorem chi_row_inv (b : Fin 5 → Bool) (x : Fin 5) :
    let c := fun x => b x ^^ (!b (x + 1) && (b (x + 2) ^^ (!b (x + 3) && b (x + 4))))
    (c x ^^ (!c (x + 1) && c (x + 2))) = b x := by
  revert b x
  decide

theorem getLsbD_chi (a : State w) (x y : Fin 5) (i : Nat) (hi : i < w) :
    (chi a x y).getLsbD i = ((a x y).getLsbD i ^^
      (!(a (x + 1) y).getLsbD i && (a (x + 2) y).getLsbD i)) := by
  unfold chi
  rw [BitVec.getLsbD_xor, BitVec.getLsbD_and, BitVec.getLsbD_not, decide_eq_true hi,
    Bool.true_and]

theorem getLsbD_invChi (a : State w) (x y : Fin 5) (i : Nat) (hi : i < w) :
    (invChi a x y).getLsbD i = ((a x y).getLsbD i ^^ (!(a (x + 1) y).getLsbD i &&
      ((a (x + 2) y).getLsbD i ^^ (!(a (x + 3) y).getLsbD i && (a (x + 4) y).getLsbD i)))) := by
  unfold invChi
  rw [BitVec.getLsbD_xor, BitVec.getLsbD_and, BitVec.getLsbD_xor, BitVec.getLsbD_and,
    BitVec.getLsbD_not, BitVec.getLsbD_not, decide_eq_true hi, Bool.true_and, Bool.true_and]

theorem chi_bijective : Function.Bijective (chi : State w → State w) := by
  refine Function.bijective_iff_has_inverse.mpr ⟨invChi, fun a => ?_, fun a => ?_⟩
  · funext x y
    refine BitVec.eq_of_getLsbD_eq (fun i hi => ?_)
    rw [getLsbD_invChi _ x y i hi]
    simp only [getLsbD_chi _ _ y i hi]
    exact chi_row (fun x => (a x y).getLsbD i) x
  · funext x y
    refine BitVec.eq_of_getLsbD_eq (fun i hi => ?_)
    rw [getLsbD_chi _ x y i hi]
    simp only [getLsbD_invChi _ _ y i hi]
    exact chi_row_inv (fun x => (a x y).getLsbD i) x

theorem iota_bijective (constant : BitVec w) :
    Function.Bijective (iota constant : State w → State w) := by
  have hself : Function.Involutive (iota constant : State w → State w) := by
    intro a
    funext x y
    unfold iota
    by_cases horigin : x = 0 ∧ y = 0
    · rw [if_pos horigin, if_pos horigin, xor_cancel]
    · rw [if_neg horigin, if_neg horigin]
  exact hself.bijective

theorem round_bijective (k : Nat) (hk : w ∣ 2 ^ k) (l ir : Nat) :
    Function.Bijective (round l ir : State w → State w) :=
  (iota_bijective _).comp (chi_bijective.comp
    (pi_bijective.comp (rho_bijective.comp (theta_bijective k hk))))

/-- At any lane width that divides a power of two. -/
theorem permutation_bijective (k : Nat) (hk : w ∣ 2 ^ k) (l : Nat) :
    Function.Bijective (permutation l : State w → State w) := by
  unfold permutation
  induction List.range (12 + 2 * l) with
  | nil => exact Function.bijective_id
  | cons ir rest ih =>
      simp only [List.foldl_cons]
      exact ih.comp (round_bijective k hk l ir)

end

end Fips202
