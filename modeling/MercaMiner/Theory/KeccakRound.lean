import Mathlib
import MercaMiner.Basis.CycleWalk
import MercaMiner.Basis.Fips202
import MercaMiner.Core.Keccak

/-!
# The In-Place Permutation Is Keccak-f

`keccakF` works on an array of 25 words and never keeps a second one. FIPS 202
defines the same permutation by step mappings on a state of five by five
lanes, with its rotation offsets and round constants computed rather than
listed. Here the two are shown to agree on every state.

Lane `(x, y)` of the standard is the word at `5 * y + x`. `theta` and the rows
of `chi` read every word they need before they write. The rotations and the
permutation of positions are one walk around a cycle, which `CycleWalk`
resolves to what each position takes from where; that the listed positions and
rotations are those of the standard is then a finite comparison.

## Main definitions

* `lanes`: The array as a state of the standard.

## Theorems

* `lanes_theta`, `lanes_rhoPi`, `lanes_chiIota`: The three parts of a round.
* `lanes_keccakF`: The whole function.
* `keccakF_bijective`: It permutes the states.
-/

namespace MercaMiner

namespace Keccak

/-- The array as lanes. -/
def lanes (st : Lanes) : Fips202.State 64 :=
  fun x y => st[5 * y.val + x.val].toBitVec

theorem lanes_injective (st st' : Lanes) (h : lanes st = lanes st') : st = st' := by
  refine Vector.ext fun i hi => ?_
  have hlane := congrFun (congrFun h ⟨i % 5, by omega⟩) ⟨i / 5, by omega⟩
  unfold lanes at hlane
  simp only [Nat.div_add_mod] at hlane
  exact UInt64.toBitVec_inj.mp hlane

theorem lanes_surjective (a : Fips202.State 64) : ∃ st, lanes st = a := by
  refine ⟨Vector.ofFn fun i : Fin 25 =>
    ⟨a ⟨i.val % 5, by omega⟩ ⟨i.val / 5, by omega⟩⟩, ?_⟩
  funext x y
  unfold lanes
  rw [Vector.getElem_ofFn]
  have hx : (⟨(5 * y.val + x.val) % 5, by omega⟩ : Fin 5) = x := Fin.ext (by simp only; omega)
  have hy : (⟨(5 * y.val + x.val) / 5, by omega⟩ : Fin 5) = y := Fin.ext (by simp only; omega)
  simp only [hx, hy]

theorem getElem_xorAt (st : Lanes) (i : Nat) (t : UInt64) (h : i < 25) (j : Nat) (hj : j < 25) :
    (xorAt st i t h)[j] = if i = j then st[j] ^^^ t else st[j] := by
  unfold xorAt
  rw [Vector.getElem_set]
  by_cases hij : i = j
  · subst hij
    simp only [if_true]
  · rw [if_neg hij, if_neg hij]

/-- The words of a column are those at the positions that leave its number. -/
theorem getElem_xorColumn (st : Lanes) (x : Nat) (t : UInt64) (h : x < 5) (j : Nat)
    (hj : j < 25) :
    (xorColumn st x t h)[j] = if j % 5 = x then st[j] ^^^ t else st[j] := by
  unfold xorColumn
  simp only [getElem_xorAt]
  split_ifs <;> first | rfl | omega

theorem lanes_theta (st : Lanes) : lanes (theta st) = Fips202.theta (lanes st) := by
  funext x y
  have hmod : (5 * y.val + x.val) % 5 = x.val := by omega
  unfold lanes theta
  simp only [getElem_xorColumn, hmod]
  -- One column at a time: only its own word is added.
  fin_cases x <;> rfl

/-- The walk that moves and rotates the words. -/
def cycle : List (Fin 25 × (UInt64 → UInt64)) :=
  rhoPiSteps.map fun step => (step.1, fun t => rotl t step.2)

theorem one_lt_lanes : 1 < 25 := by omega

theorem rhoPi_eq_walk (st : Lanes) :
    rhoPi st = (CycleWalk.walk cycle (st, getElem st 1 one_lt_lanes)).1 := by
  unfold rhoPi CycleWalk.walk cycle
  rw [List.foldl_map]
  rfl

theorem cycle_nodup : (cycle.map Prod.fst).Nodup := by
  have hsteps : cycle.map Prod.fst = rhoPiSteps.map Prod.fst := by
    unfold cycle
    rw [List.map_map]
    rfl
  rw [hsteps]
  decide

theorem three_lt_five : 3 < 5 := by omega

/-- The array position of the lane that `pi` brings to `(x, y)`. -/
def source (x y : Fin 5) : Nat :=
  5 * x.val + (x + ⟨3, three_lt_five⟩ * y).val

/-- Every position but two is visited after the position it takes its word
    from, and with the offset the standard gives that word, reduced to the
    width. -/
theorem rhoPiSteps_spec (x y : Fin 5) :
    (x = 0 ∧ y = 0) ∨ (x = 0 ∧ y = 2) ∨ ∃ k : Fin 23,
      rhoPiSteps[k.val + 1]? = some (⟨5 * y.val + x.val, by omega⟩,
        Fips202.offset (x + 3 * y) x % 64) ∧
      (rhoPiSteps[k.val]?.map fun step => step.1.val) = some (source x y) := by
  revert x y
  decide

theorem rhoPiSteps_ne_zero : ∀ step ∈ rhoPiSteps, step.1.val ≠ 0 := by
  decide

theorem lanes_rhoPi (st : Lanes) :
    lanes (rhoPi st) = Fips202.pi (Fips202.rho (lanes st)) := by
  funext x y
  unfold lanes
  rw [rhoPi_eq_walk]
  rcases rhoPiSteps_spec x y with ⟨rfl, rfl⟩ | ⟨rfl, rfl⟩ | ⟨k, hstep, hbefore⟩
  · -- The origin is not on the cycle.
    have hout : ∀ step ∈ cycle, step.1.val ≠ 0 := by
      intro step hmem
      rcases List.mem_map.mp hmem with ⟨s, hs, rfl⟩
      exact rhoPiSteps_ne_zero s hs
    exact (congrArg UInt64.toBitVec
      (CycleWalk.getElem_walk_of_notMem cycle (st, st[1]) 0 (by omega) hout)).trans
      (Rotation.rotateLeft_of_dvd _ _ (Nat.dvd_zero 64)).symm
  · -- The first visit takes the word the walk started from.
    have hnodup := (List.nodup_cons.mp cycle_nodup).1
    exact congrArg UInt64.toBitVec (CycleWalk.getElem_walk_head _ _ (st, st[1])
      fun s hs heq => hnodup (heq ▸ List.mem_map_of_mem hs))
  · rcases Option.map_eq_some_iff.mp hbefore with ⟨first, hfirst, hsource⟩
    have hget (m : Nat) (step : Fin 25 × Nat) (h : rhoPiSteps[m]? = some step) :
        cycle[m]? = some (step.1, fun t => rotl t step.2) := by
      unfold cycle
      rw [List.getElem?_map, h, Option.map_some]
    have hnext := CycleWalk.getElem_walk_succ cycle (st, st[1]) cycle_nodup k.val _ _
      (hget _ _ hfirst) (hget _ _ hstep)
    simp only [hsource] at hnext
    exact (congrArg UInt64.toBitVec hnext).trans BitVec.rotateLeft_mod_eq_rotateLeft

/-- A row changes by the words it held before. -/
theorem getElem_chiRow (st : Lanes) (i : Nat) (h : i + 5 ≤ 25) (j : Nat) (hj : j < 5) :
    (chiRow st i h)[i + j] = st[i + j] ^^^ (~~~st[i + (j + 1) % 5] &&& st[i + (j + 2) % 5]) := by
  unfold chiRow
  simp only [Vector.getElem_set]
  rcases (by omega : j = 0 ∨ j = 1 ∨ j = 2 ∨ j = 3 ∨ j = 4) with rfl | rfl | rfl | rfl | rfl
  all_goals simp

theorem getElem_chiRow_other (st : Lanes) (i : Nat) (h : i + 5 ≤ 25) (j : Nat) (hj : j < 25)
    (hout : j < i ∨ i + 5 ≤ j) : (chiRow st i h)[j] = st[j] := by
  unfold chiRow
  simp only [Vector.getElem_set]
  split_ifs <;> first | rfl | omega

theorem getElem_xorAt_other (st : Lanes) (i : Nat) (t : UInt64) (h : i < 25) (j : Nat)
    (hj : j < 25) (hij : i ≠ j) : (xorAt st i t h)[j] = st[j] := by
  rw [getElem_xorAt, if_neg hij]

/-- The rows after the first, each read before any of its words is written. -/
theorem getElem_chiIota_row (st : Lanes) (constant : UInt64) (i j : Nat)
    (hi : i = 5 ∨ i = 10 ∨ i = 15 ∨ i = 20) (hj : j < 5) :
    (chiIota st constant)[i + j] =
      st[i + j] ^^^ (~~~st[i + (j + 1) % 5] &&& st[i + (j + 2) % 5]) := by
  unfold chiIota
  rcases hi with rfl | rfl | rfl | rfl
  all_goals simp (disch := omega) only [getElem_chiRow_other, getElem_chiRow, getElem_xorAt_other]

theorem getElem_chiIota_first (st : Lanes) (constant : UInt64) (j : Nat) (hj : j < 5) :
    (chiIota st constant)[0 + j] =
      let word := st[0 + j] ^^^ (~~~st[0 + (j + 1) % 5] &&& st[0 + (j + 2) % 5])
      if 0 = 0 + j then word ^^^ constant else word := by
  unfold chiIota
  simp (disch := omega) only [getElem_chiRow_other, getElem_xorAt, getElem_chiRow]

theorem lanes_chiIota (st : Lanes) (constant : UInt64) :
    lanes (chiIota st constant) = Fips202.iota constant.toBitVec (Fips202.chi (lanes st)) := by
  funext x y
  have hx := x.isLt
  unfold Fips202.iota
  by_cases hy : y = 0
  · subst hy
    have hfirst := congrArg UInt64.toBitVec (getElem_chiIota_first st constant x.val hx)
    by_cases hzero : x = 0
    · subst hzero
      rw [if_pos ⟨rfl, rfl⟩]
      exact hfirst
    · have hne : ¬0 = 0 + x.val := fun heq => hzero (Fin.ext (by
        rw [← Nat.zero_add x.val, ← heq]
        rfl))
      rw [if_neg fun h => hzero h.1]
      simp only [if_neg hne] at hfirst
      exact hfirst
  · have hrow : 5 * y.val = 5 ∨ 5 * y.val = 10 ∨ 5 * y.val = 15 ∨ 5 * y.val = 20 := by
      have hpos : y.val ≠ 0 := fun heq => hy (Fin.ext heq)
      omega
    rw [if_neg fun h => hy h.2]
    exact congrArg UInt64.toBitVec
      (getElem_chiIota_row st constant (5 * y.val) x.val hrow hx)

/-- The listed constants are those the shift register gives. -/
theorem roundConstants_eq : roundConstants.map UInt64.toBitVec =
    (List.range 24).map (Fips202.roundConstant 64 6) := by
  decide +kernel

theorem lanes_round (st : Lanes) (constant : UInt64) (ir : Nat)
    (h : constant.toBitVec = Fips202.roundConstant 64 6 ir) :
    lanes (round st constant) = Fips202.round 6 ir (lanes st) := by
  unfold round Fips202.round
  rw [lanes_chiIota, lanes_rhoPi, lanes_theta, h]

theorem lanes_keccakF (st : Lanes) : lanes (keccakF st) = Fips202.permutation 6 (lanes st) := by
  -- The induction is on the rounds, with the two lists of constants side by side.
  have hfold : ∀ (constants : List UInt64) (rounds : List Nat) (st : Lanes),
      constants.map UInt64.toBitVec = rounds.map (Fips202.roundConstant 64 6) →
      lanes (constants.foldl round st) =
        rounds.foldl (fun a ir => Fips202.round 6 ir a) (lanes st) := by
    intro constants
    induction constants with
    | nil =>
        intro rounds st h
        rw [List.map_nil, eq_comm, List.map_eq_nil_iff] at h
        rw [h, List.foldl_nil, List.foldl_nil]
    | cons constant constants ih =>
        intro rounds st h
        rcases rounds with _ | ⟨ir, rounds⟩
        · exact absurd h (by simp only [List.map_cons, List.map_nil, reduceCtorEq,
            not_false_eq_true])
        · rw [List.map_cons, List.map_cons, List.cons.injEq] at h
          rw [List.foldl_cons, List.foldl_cons, ih rounds _ h.2, lanes_round st constant ir h.1]
  exact hfold roundConstants (List.range 24) st roundConstants_eq

theorem keccakF_bijective : Function.Bijective keccakF := by
  have hperm := Fips202.permutation_bijective (w := 64) 6 (Nat.dvd_refl 64) 6
  constructor
  · intro st st' h
    have hlanes := congrArg lanes h
    rw [lanes_keccakF, lanes_keccakF] at hlanes
    exact lanes_injective st st' (hperm.1 hlanes)
  · intro st
    rcases hperm.2 (lanes st) with ⟨a, ha⟩
    rcases lanes_surjective a with ⟨before, hbefore⟩
    refine ⟨before, lanes_injective _ _ ?_⟩
    rw [lanes_keccakF, hbefore, ha]

end Keccak

end MercaMiner
