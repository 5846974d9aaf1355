import Mathlib.Algebra.BigOperators.Fin
import Mathlib.Algebra.BigOperators.Group.Finset.Piecewise
import Mathlib.Algebra.Ring.Nat
import Mathlib.Data.Finset.Card
import Mathlib.Data.Finset.Dedup
import Mathlib.Data.Vector.Defs

/-!
# Counters and the Lists They Count

64-bit counters, tables of counters and tables of marks that a program keeps
up to date item by item, and the statistics of the items they stand for.

Every notion relates a table to the list or the set of the items so far and
comes with the rule for one item more. A counter is the number it counts
modulo its width, so the rules need no bound; `toNat_counter` gives the number
itself once it is known to fit.

## Main definitions

* `Tally`: A table with one counter for each class of items.
* `Marked`: A table of marks with the number of places marked.
* `Extremes`: The least and the greatest value so far.

## Theorems

* `tally_snoc`, `marked_new`, `marked_old`, `extremes_snoc`: One item more.
* `sum_countP`: The classes of a list add up to its length.
* `tally_value`, `tally_sum`, `marked_value`: The counters as numbers.
-/

namespace Counters

variable {α β : Type*} {n : Nat}

theorem ofNat_succ (k : Nat) : UInt64.ofNat k + 1 = UInt64.ofNat (k + 1) :=
  (UInt64.ofNat_add k 1).symm

theorem toNat_counter (k : Nat) (h : k < 2 ^ 64) : (UInt64.ofNat k).toNat = k := by
  rw [UInt64.toNat_ofNat']
  exact Nat.mod_eq_of_lt h

theorem countP_snoc (p : α → Bool) (items : List α) (x : α) :
    (items ++ [x]).countP p = items.countP p + if p x = true then 1 else 0 := by
  rw [List.countP_append, List.countP_singleton]

theorem filterMap_snoc (f : α → Option β) (items : List α) (x : α) (y : β) (h : f x = some y) :
    (items ++ [x]).filterMap f = items.filterMap f ++ [y] := by
  rw [List.filterMap_append, List.filterMap_cons_some h, List.filterMap_nil]

theorem toFinset_snoc (places : List Nat) (i : Nat) :
    (places ++ [i]).toFinset = insert i places.toFinset := by
  rw [List.toFinset_append, List.toFinset_cons, List.toFinset_nil, Finset.union_insert,
    Finset.union_empty]

theorem length_flatMap_const (f : α → List β) (k : Nat) (items : List α)
    (h : ∀ x ∈ items, (f x).length = k) : (items.flatMap f).length = items.length * k := by
  have hmap : (items.map fun x => (f x).length) = items.map fun _ => k := List.map_congr_left h
  rw [List.length_flatMap, hmap, List.map_const', List.sum_replicate_nat]

/-- All numbers below a bound but the first. -/
theorem countP_range_ne_zero (k : Nat) : (List.range (k + 1)).countP (fun i => i ≠ 0) = k := by
  have hrest : (List.range k).countP ((fun i => decide (i ≠ 0)) ∘ Nat.succ)
      = (List.range k).length :=
    List.countP_eq_length.mpr fun i _ => decide_eq_true (Nat.succ_ne_zero i)
  rw [List.range_succ_eq_map, List.countP_cons_of_neg (by decide), List.countP_map, hrest,
    List.length_range]

/-- A table whose entry for a class counts the items of that class. -/
def Tally (key : α → Nat) (items : List α) (table : Vector UInt64 n) : Prop :=
  ∀ r, (h : r < n) → table[r] = UInt64.ofNat (items.countP fun x => key x = r)

theorem tally_nil (key : α → Nat) : Tally key [] (Vector.replicate n 0) := by
  intro r h
  rw [Vector.getElem_replicate]
  rfl

theorem tally_snoc (key : α → Nat) (items : List α) (table : Vector UInt64 n) (x : α)
    (hx : key x < n) (h : Tally key items table) :
    Tally key (items ++ [x]) (table.set (key x) (table[key x] + 1)) := by
  intro r hr
  rw [countP_snoc, Vector.getElem_set]
  by_cases hkey : key x = r
  · simp only [hkey, if_true, decide_true]
    rw [h r hr, ofNat_succ]
  · simp only [hkey, if_false, decide_false, Bool.false_eq_true, Nat.add_zero]
    exact h r hr

/-- A table of marks, at exactly the places of a set, with their number. -/
structure Marked (mark : β → Prop) (places : Finset Nat) (count : UInt64) (table : Vector β n) :
    Prop where
  count : count = UInt64.ofNat places.card
  marks : ∀ i, (h : i < n) → (mark table[i] ↔ i ∈ places)

theorem marked_empty (mark : β → Prop) (b : β) (h : ¬mark b) :
    Marked mark ∅ 0 (Vector.replicate n b) := by
  refine ⟨rfl, fun i hi => ?_⟩
  rw [Vector.getElem_replicate]
  exact iff_of_false h (Finset.notMem_empty i)

/-- A place that was not marked is marked and counted. -/
theorem marked_new (mark : β → Prop) (places : Finset Nat) (count : UInt64) (table : Vector β n)
    (i : Nat) (hi : i < n) (b : β) (hb : mark b) (hfresh : ¬mark table[i])
    (h : Marked mark places count table) :
    Marked mark (insert i places) (count + 1) (table.set i b) := by
  refine ⟨?_, fun j hj => ?_⟩
  · have hmem : i ∉ places := fun hmem => hfresh ((h.marks i hi).mpr hmem)
    rw [Finset.card_insert_of_notMem hmem, h.count, ofNat_succ]
  · rw [Vector.getElem_set, Finset.mem_insert]
    by_cases hij : i = j
    · rw [if_pos hij]
      exact iff_of_true hb (Or.inl hij.symm)
    · rw [if_neg hij, h.marks j hj]
      exact (or_iff_right (Ne.symm hij)).symm

/-- A place that was marked before counts once. -/
theorem marked_old (mark : β → Prop) (places : Finset Nat) (count : UInt64) (table : Vector β n)
    (i : Nat) (hi : i < n) (hold : mark table[i]) (h : Marked mark places count table) :
    Marked mark (insert i places) count table := by
  rw [Finset.insert_eq_of_mem ((h.marks i hi).mp hold)]
  exact h

/-- A place is looked up before it is marked. -/
theorem marked_bool (places : Finset Nat) (count : UInt64) (table : Vector Bool n) (i : Nat)
    (hi : i < n) (h : Marked (fun b : Bool => b = true) places count table) :
    Marked (fun b : Bool => b = true) (insert i places)
      (if table[i] = true then count else count + 1)
      (if table[i] = true then table else table.set i true) := by
  by_cases hold : table[i] = true
  · rw [if_pos hold, if_pos hold]
    exact marked_old _ places count table i hi hold h
  · rw [if_neg hold, if_neg hold]
    exact marked_new _ places count table i hi true rfl hold h

/-- The least and the greatest of some values, and zero when there are
    none. -/
structure Extremes (values : List Nat) (least greatest : Nat) : Prop where
  least_le : ∀ x ∈ values, least ≤ x
  le_greatest : ∀ x ∈ values, x ≤ greatest
  least_mem : values ≠ [] → least ∈ values
  greatest_mem : values ≠ [] → greatest ∈ values
  empty : values = [] → least = 0 ∧ greatest = 0

theorem extremes_nil : Extremes [] 0 0 :=
  ⟨fun _ h => absurd h List.not_mem_nil, fun _ h => absurd h List.not_mem_nil,
    fun h => absurd rfl h, fun h => absurd rfl h, fun _ => ⟨rfl, rfl⟩⟩

/-- The first value is the least whatever the variable held before. -/
theorem extremes_snoc (values : List Nat) (least greatest x : Nat)
    (h : Extremes values least greatest) :
    Extremes (values ++ [x]) (if values = [] ∨ x < least then x else least)
      (if greatest < x then x else greatest) := by
  have hlast : x ∈ values ++ [x] := List.mem_append_right _ List.mem_cons_self
  have hlow : (if values = [] ∨ x < least then x else least) ≤ x ∧
      ∀ y ∈ values, (if values = [] ∨ x < least then x else least) ≤ y := by
    by_cases hnew : values = [] ∨ x < least
    · rw [if_pos hnew]
      refine ⟨Nat.le_refl x, fun y hy => ?_⟩
      rcases hnew with hnil | hlt
      · exact absurd hy (by rw [hnil]; exact List.not_mem_nil)
      · exact Nat.le_of_lt (Nat.lt_of_lt_of_le hlt (h.least_le y hy))
    · rw [if_neg hnew]
      exact ⟨Nat.not_lt.mp fun hlt => hnew (Or.inr hlt), h.least_le⟩
  have hhigh : x ≤ (if greatest < x then x else greatest) ∧
      ∀ y ∈ values, y ≤ if greatest < x then x else greatest := by
    by_cases hnew : greatest < x
    · rw [if_pos hnew]
      exact ⟨Nat.le_refl x, fun y hy => Nat.le_of_lt (Nat.lt_of_le_of_lt (h.le_greatest y hy) hnew)⟩
    · rw [if_neg hnew]
      exact ⟨Nat.not_lt.mp hnew, h.le_greatest⟩
  refine ⟨fun y hy => ?_, fun y hy => ?_, fun _ => ?_, fun _ => ?_, fun hnil => ?_⟩
  · rcases List.mem_append.mp hy with hold | hnew
    · exact hlow.2 y hold
    · rw [List.mem_singleton.mp hnew]
      exact hlow.1
  · rcases List.mem_append.mp hy with hold | hnew
    · exact hhigh.2 y hold
    · rw [List.mem_singleton.mp hnew]
      exact hhigh.1
  · by_cases hnew : values = [] ∨ x < least
    · rwa [if_pos hnew]
    · rw [if_neg hnew]
      exact List.mem_append_left _ (h.least_mem fun hnil => hnew (Or.inl hnil))
  · by_cases hnew : greatest < x
    · rwa [if_pos hnew]
    · rw [if_neg hnew]
      by_cases hnil : values = []
      · -- Zero is the only value that is not greater than zero.
        have hzero : x = greatest := by
          have hgreatest := (h.empty hnil).2
          omega
        rwa [← hzero]
      · exact List.mem_append_left _ (h.greatest_mem hnil)
  · exact absurd (hnil ▸ hlast) List.not_mem_nil

/-- The classes of a list add up to its length. -/
theorem sum_countP (key : α → Nat) (items : List α) (k : Nat) (h : ∀ x ∈ items, key x < k) :
    ∑ r ∈ Finset.range k, items.countP (fun x => key x = r) = items.length := by
  induction items with
  | nil => exact Finset.sum_const_zero
  | cons x items ih =>
      rcases List.forall_mem_cons.mp h with ⟨hx, hrest⟩
      simp only [List.countP_cons, decide_eq_true_eq, List.length_cons, Finset.sum_add_distrib,
        ih hrest, Finset.sum_ite_eq, Finset.mem_range, if_pos hx]

/-- The counters of a table as numbers. -/
theorem tally_value (key : α → Nat) (items : List α) (table : Vector UInt64 n)
    (hfew : items.length < 2 ^ 64) (h : Tally key items table) (r : Fin n) :
    (table.get r).toNat = items.countP fun x => key x = r := by
  have hcount := List.countP_le_length (p := fun x => key x = r) (l := items)
  have hget : table.get r = UInt64.ofNat (items.countP fun x => key x = r) := h r r.isLt
  rw [hget]
  exact toNat_counter _ (Nat.lt_of_le_of_lt hcount hfew)

/-- The counters of a table add up to the number of items. -/
theorem tally_sum (key : α → Nat) (items : List α) (table : Vector UInt64 n)
    (hfew : items.length < 2 ^ 64) (hkeys : ∀ x ∈ items, key x < n) (h : Tally key items table) :
    ∑ r : Fin n, (table.get r).toNat = items.length := by
  rw [← sum_countP key items n hkeys, Finset.sum_range]
  exact Finset.sum_congr rfl fun r _ => tally_value key items table hfew h r

/-- The number of marked places as a number. -/
theorem marked_value (mark : β → Prop) (items : List Nat) (count : UInt64) (table : Vector β n)
    (hfew : items.length < 2 ^ 64) (h : Marked mark items.toFinset count table) :
    count.toNat = items.toFinset.card := by
  rw [h.count]
  exact toNat_counter _ (Nat.lt_of_le_of_lt (List.toFinset_card_le items) hfew)

end Counters
