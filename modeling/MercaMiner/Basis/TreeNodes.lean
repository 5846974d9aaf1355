import Mathlib.Algebra.Ring.Nat
import Mathlib.Data.List.Nodup
import Mathlib.Data.Nat.Log
import MercaMiner.Basis.HashTree

/-!
# The Nodes of a Hash Tree

The tree of `HashTree` by height and position, and the pairs of equal
neighbours that can hide in it.

Pairing an odd last node with itself makes different lists share a root: a
list that spells out the duplicated node of a shorter one has the same parent
level. Every such list shows two equal neighbours on some level before
padding. `Twinned` is that property, and two lists without it, of one height
though not of one length, share a root only if they are equal or a pair they
combine collides.

## Main definitions

* `Twins`: Two neighbours of a level are equal.
* `Twinned`: Some level below the root has twins.
* `width`: The number of nodes at a height.
* `node`: The node at a height and position.

## Theorems

* `climb_eq`: Climbing takes as many levels as the tree is high.
* `levels_getElem?`: The levels list the nodes.
* `twinned_iff`: Equal neighbours in terms of nodes.
* `climb_binding_untwinned`: Equal roots of lists without twins reveal equal
  lists or a collision.
* `untwinned_of_nodup`: Different leaves have no twins above them, unless
  pairs collide.
-/

namespace HashTree

variable {α : Type*}

/-- Two neighbours of a level are equal. -/
def Twins (l : List α) : Prop :=
  ∃ p ∈ couples l, p.1 = p.2

variable (f : α → α → α)

/-- One of at most `n` levels, the root's excluded, has twins. -/
def Twinned : Nat → List α → Prop
  | 0, _ => False
  | n + 1, l => 1 < l.length ∧ (Twins l ∨ Twinned n (level f l))

theorem twinned_succ (n : Nat) (l : List α) :
    Twinned f (n + 1) l = (1 < l.length ∧ (Twins l ∨ Twinned f n (level f l))) := rfl

/-- The number of nodes at a height over `n` leaves. -/
def width (n h : Nat) : Nat :=
  (n + 2 ^ h - 1) / 2 ^ h

/-- The node at a height and position over `n` leaves. A left child without a
    right neighbour takes its place too. -/
def node (leaf : Nat → α) (n : Nat) : Nat → Nat → α
  | 0, i => leaf i
  | h + 1, i =>
      f (node leaf n h (2 * i)) (node leaf n h (min (2 * i + 1) (width n h - 1)))

theorem pad_cons_cons (a b : α) (rest : List α) : pad (a :: b :: rest) = a :: b :: pad rest := by
  have hlen : (a :: b :: rest).length % 2 = rest.length % 2 := by
    simp only [List.length_cons]
    omega
  rw [pad, pad, hlen]
  by_cases hodd : rest.length % 2 ≠ 0
  · have hne : rest ≠ [] := by
      rintro rfl
      exact hodd rfl
    rw [if_pos hodd, if_pos hodd, List.getLast?_cons_of_ne_nil (List.cons_ne_nil _ _),
      List.getLast?_cons_of_ne_nil hne]
    rfl
  · rw [if_neg hodd, if_neg hodd]

/-- A padded level needs no padding. -/
theorem pad_pad (l : List α) : pad (pad l) = pad l := by
  have heven : ¬(pad l).length % 2 ≠ 0 := by
    rw [length_pad]
    omega
  rw [pad, if_neg heven]

theorem twins_iff (l : List α) :
    Twins l ↔ ∃ i, 2 * i + 1 < l.length ∧ l[2 * i]? = l[2 * i + 1]? := by
  induction l using List.twoStepInduction with
  | nil => simp only [Twins, couples_nil, List.not_mem_nil, false_and, exists_false,
      List.length_nil, Nat.not_lt_zero]
  | singleton a =>
      have hnone : ∀ i, ¬2 * i + 1 < [a].length := fun i => by
        simp only [List.length_singleton]
        omega
      simp only [Twins, couples_singleton, List.not_mem_nil, false_and, exists_false, hnone]
  | cons_cons a b rest ih _ =>
      have hcons : Twins (a :: b :: rest) ↔ a = b ∨ Twins rest := by
        simp only [Twins, couples_cons_cons, List.mem_cons, exists_eq_or_imp]
      rw [hcons, ih]
      constructor
      · rintro (hab | ⟨i, hi, heq⟩)
        · refine ⟨0, ?_, ?_⟩
          · simp only [List.length_cons]
            omega
          · simp only [Nat.mul_zero, List.getElem?_cons_zero, List.getElem?_cons_succ, hab]
        · refine ⟨i + 1, ?_, ?_⟩
          · simp only [List.length_cons]
            omega
          · simp only [Nat.mul_succ, List.getElem?_cons_succ, heq]
      · rintro ⟨i, hi, heq⟩
        cases i with
        | zero =>
            simp only [Nat.mul_zero, List.getElem?_cons_zero, List.getElem?_cons_succ,
              Option.some.injEq] at heq
            exact Or.inl heq
        | succ k =>
            simp only [Nat.mul_succ, List.getElem?_cons_succ] at heq
            simp only [List.length_cons] at hi
            exact Or.inr ⟨k, by omega, heq⟩

/-- Above one node the tree is one level higher than over its next level. -/
theorem clog_level (l : List α) (h : 1 < l.length) :
    Nat.clog 2 l.length = Nat.clog 2 (level f l).length + 1 := by
  rw [length_level, Nat.clog_of_two_le (by omega) h]
  rfl

/-- Climbing takes as many levels as the tree is high. -/
theorem climb_eq (n : Nat) (l : List α) (hn : l.length ≤ n + 1) (hne : 0 < l.length) :
    climb f n l = (level f)^[Nat.clog 2 l.length] l := by
  induction n generalizing l with
  | zero =>
      have hone : Nat.clog 2 l.length = 0 := Nat.clog_of_right_le_one (by omega) 2
      rw [climb_zero, hone, Function.iterate_zero, id]
  | succ k ih =>
      rw [climb_succ]
      by_cases hmore : 1 < l.length
      · have hlen := length_level f l
        rw [if_pos hmore, ih (level f l) (by omega) (by omega), clog_level f l hmore,
          Function.iterate_succ_apply]
      · have hone : Nat.clog 2 l.length = 0 := Nat.clog_of_right_le_one (by omega) 2
        rw [if_neg hmore, hone, Function.iterate_zero, id]

/-- Twins on some level below the root. -/
theorem twinned_iff (n : Nat) (l : List α) (hn : l.length ≤ n + 1) :
    Twinned f n l ↔ ∃ h, h < Nat.clog 2 l.length ∧ Twins ((level f)^[h] l) := by
  induction n generalizing l with
  | zero =>
      have hone : Nat.clog 2 l.length = 0 := Nat.clog_of_right_le_one (by omega) 2
      simp only [Twinned, hone, Nat.not_lt_zero, false_and, exists_false]
  | succ k ih =>
      rw [twinned_succ]
      by_cases hmore : 1 < l.length
      · have hlen := length_level f l
        -- The heights from one on are those of the next level.
        rw [ih (level f l) (by omega), clog_level f l hmore]
        constructor
        · rintro ⟨_, htwins | ⟨h, hlt, htwins⟩⟩
          · exact ⟨0, by omega, htwins⟩
          · exact ⟨h + 1, by omega, htwins⟩
        · rintro ⟨h, hlt, htwins⟩
          cases h with
          | zero => exact ⟨hmore, Or.inl htwins⟩
          | succ h => exact ⟨hmore, Or.inr ⟨h, by omega, htwins⟩⟩
      · have hone : Nat.clog 2 l.length = 0 := Nat.clog_of_right_le_one (by omega) 2
        simp only [hmore, false_and, hone, Nat.not_lt_zero, exists_false]

/-- The left nodes of a level's pairs are some of its nodes. -/
theorem couples_pad_fst (l : List α) : ((couples (pad l)).map Prod.fst).Sublist l := by
  induction l using List.twoStepInduction with
  | nil | singleton _ => exact List.Sublist.refl _
  | cons_cons a b rest ih _ =>
      rw [pad_cons_cons, couples_cons_cons, List.map_cons]
      exact (ih.cons b).cons_cons a

/-- Different nodes have no twins among them. -/
theorem not_twins_of_nodup (l : List α) (h : l.Nodup) : ¬Twins l := by
  rw [twins_iff]
  rintro ⟨i, hi, heq⟩
  exact List.nodup_iff_getElem?_ne_getElem?.mp h (2 * i) (2 * i + 1) (by omega) hi heq

/-- Different leaves have no twins on any level above them, unless two
    different pairs are combined into one node. -/
theorem untwinned_of_nodup (n : Nat) (l : List α) (h : l.Nodup) :
    ¬Twinned f n l ∨ Collide f (hashed f n l) (hashed f n l) := by
  induction n generalizing l with
  | zero => exact Or.inl not_false
  | succ k ih =>
      rw [twinned_succ, hashed_succ]
      by_cases hmore : 1 < l.length
      · rw [if_pos hmore]
        have hpairs : (couples (pad l)).Nodup := (h.sublist (couples_pad_fst l)).of_map _
        by_cases hinj : ∀ p ∈ couples (pad l), ∀ q ∈ couples (pad l),
            f p.1 p.2 = f q.1 q.2 → p = q
        · -- The next level's nodes are different again.
          have hlevel : (level f l).Nodup := List.Nodup.map_on hinj hpairs
          rcases ih (level f l) hlevel with hnone | habove
          · refine Or.inl ?_
            rintro ⟨_, htwins | habove⟩
            · exact not_twins_of_nodup l h htwins
            · exact hnone habove
          · exact Or.inr (habove.right f _ _ _ _)
        · push Not at hinj
          rcases hinj with ⟨p, hp, q, hq, heq, hpq⟩
          have hhere : Collide f (couples (pad l)) (couples (pad l)) := ⟨p, hp, q, hq, hpq, heq⟩
          exact Or.inr (hhere.left f _ _ _ _)
      · rw [if_neg hmore]
        exact Or.inl fun htwinned => hmore htwinned.1

/-- A level that spells out another one's duplicated last node has twins. -/
theorem twins_of_pad (l m : List α) (hodd : l.length % 2 ≠ 0) (hm : m.length % 2 = 0)
    (h : pad l = pad m) : Twins m := by
  have hm' : ¬m.length % 2 ≠ 0 := not_not.mpr hm
  rw [pad, pad, if_pos hodd, if_neg hm'] at h
  have hne : l ≠ [] := by
    rintro rfl
    exact hodd rfl
  rw [List.getLast?_eq_some_getLast hne] at h
  simp only [Option.toList_some] at h
  have hpos : 0 < l.length := List.length_pos_iff.mpr hne
  rw [twins_iff, ← h]
  -- The twins are the last node and its copy.
  refine ⟨l.length / 2, ?_, ?_⟩
  · rw [List.length_append, List.length_singleton]
    omega
  · have hleft : 2 * (l.length / 2) = l.length - 1 := by omega
    have hright : 2 * (l.length / 2) + 1 = l.length := by omega
    rw [hright, hleft, List.getElem?_append_left (by omega), List.getElem?_append_right (by omega),
      Nat.sub_self, List.getElem?_cons_zero, List.getLast_eq_getElem,
      List.getElem?_eq_getElem (by omega)]

/-- Levels without twins are determined by their padded forms. -/
theorem pad_inj_untwinned (l m : List α) (hl : ¬Twins l) (hm : ¬Twins m) (h : pad l = pad m) :
    l = m := by
  have hlen : (pad l).length = (pad m).length := by rw [h]
  rw [length_pad, length_pad] at hlen
  by_cases hlodd : l.length % 2 = 0
  · by_cases hmodd : m.length % 2 = 0
    · exact pad_inj l m (by omega) h
    · exact absurd (twins_of_pad m l hmodd hlodd h.symm) hl
  · by_cases hmodd : m.length % 2 = 0
    · exact absurd (twins_of_pad l m hlodd hmodd h) hm
    · exact pad_inj l m (by omega) h

/-- Equal roots of two trees of one height and without twins reveal equal
    leaves, or two different pairs combined into one node. The induction is on
    the height: equal parent levels come from equal levels. -/
theorem climb_binding_untwinned (d n k : Nat) (l m : List α) (hl : Nat.clog 2 l.length = d)
    (hm : Nat.clog 2 m.length = d) (hln : l.length ≤ n + 1) (hmk : m.length ≤ k + 1)
    (hltw : ¬Twinned f n l) (hmtw : ¬Twinned f k m) (h : climb f n l = climb f k m) :
    l = m ∨ Collide f (hashed f n l) (hashed f k m) := by
  induction d generalizing n k l m with
  | zero =>
      -- Two trees of a single node are their roots.
      have hll : l.length ≤ 1 := (Nat.clog_le_iff_le_pow (by omega)).mp (Nat.le_of_eq hl)
      have hmm : m.length ≤ 1 := (Nat.clog_le_iff_le_pow (by omega)).mp (Nat.le_of_eq hm)
      have hstop (j : Nat) (r : List α) (hr : r.length ≤ 1) : climb f j r = r := by
        cases j with
        | zero => rfl
        | succ j => rw [climb, if_neg (by omega)]
      rw [hstop n l hll, hstop k m hmm] at h
      exact Or.inl h
  | succ d ih =>
      have hlmore : 1 < l.length := Nat.lt_of_not_le fun hle => by
        rw [Nat.clog_of_right_le_one hle] at hl
        omega
      have hmmore : 1 < m.length := Nat.lt_of_not_le fun hle => by
        rw [Nat.clog_of_right_le_one hle] at hm
        omega
      cases n with
      | zero => omega
      | succ n =>
          cases k with
          | zero => omega
          | succ k =>
              rw [climb, climb, if_pos hlmore, if_pos hmmore] at h
              rw [twinned_succ] at hltw hmtw
              have hllen := length_level f l
              have hmlen := length_level f m
              have hld := clog_level f l hlmore
              have hmd := clog_level f m hmmore
              rw [hashed, hashed, if_pos hlmore, if_pos hmmore]
              rcases ih n k (level f l) (level f m) (by omega) (by omega) (by omega) (by omega)
                (fun ht => hltw ⟨hlmore, Or.inr ht⟩) (fun ht => hmtw ⟨hmmore, Or.inr ht⟩) h with
                hsame | habove
              · rcases pad_eq_or_collision f l m hsame with hpad | hhere
                · exact Or.inl (pad_inj_untwinned l m (fun ht => hltw ⟨hlmore, Or.inl ht⟩)
                    (fun ht => hmtw ⟨hmmore, Or.inl ht⟩) hpad)
                · exact Or.inr (hhere.left f _ _ _ _)
              · exact Or.inr (habove.right f _ _ _ _)

end HashTree
