import Mathlib.Data.List.Induction

/-!
# Binary Hash Trees

The tree that hashes a list level by level, pairing neighbours and pairing an
odd last node with itself.

The combining function is arbitrary. A collision is two different pairs it
sends to one node, and every binding result names where such a pair would
have to come from: `hashed` lists the pairs a climb actually combines. For
lists of one length no further condition is needed, since padding then
duplicates the same position in both.

## Main definitions

* `couples`: Neighbours taken two at a time.
* `pad`: An odd list with its last element duplicated.
* `level`: The next level of the tree.
* `climb`: Taking levels until one node is left.
* `hashed`: Every pair combined on the way.
* `Collide`: Two different pairs are combined into one node.

## Theorems

* `length_level`: A level has half as many nodes, rounded up.
* `length_climb`: Climbing ends with a single node.
* `pad_eq_or_collision`: Equal levels come from equal padded levels.
* `climb_binding`: Equal roots over equally many leaves reveal equal leaves
  or a collision.
-/

namespace HashTree

variable {α : Type*}

/-- Neighbours taken two at a time, an odd last element left out. -/
def couples : List α → List (α × α)
  | a :: b :: rest => (a, b) :: couples rest
  | _ => []

/-- An odd list with its last element duplicated. -/
def pad (l : List α) : List α :=
  if l.length % 2 ≠ 0 then l ++ l.getLast?.toList else l

variable (f : α → α → α)

/-- The next level of the tree. -/
def level (l : List α) : List α :=
  (couples (pad l)).map fun p => f p.1 p.2

/-- Take levels until a single node is left, at most `n` of them. -/
def climb : Nat → List α → List α
  | 0, l => l
  | n + 1, l => if 1 < l.length then climb n (level f l) else l

/-- Every pair combined while climbing. -/
def hashed : Nat → List α → List (α × α)
  | 0, _ => []
  | n + 1, l => if 1 < l.length then couples (pad l) ++ hashed n (level f l) else []

theorem couples_nil : couples ([] : List α) = [] := rfl

theorem couples_singleton (a : α) : couples [a] = [] := rfl

theorem couples_cons_cons (a b : α) (rest : List α) :
    couples (a :: b :: rest) = (a, b) :: couples rest := rfl

theorem climb_zero (l : List α) : climb f 0 l = l := rfl

theorem climb_succ (n : Nat) (l : List α) :
    climb f (n + 1) l = if 1 < l.length then climb f n (level f l) else l := rfl

theorem hashed_succ (n : Nat) (l : List α) :
    hashed f (n + 1) l =
      if 1 < l.length then couples (pad l) ++ hashed f n (level f l) else [] := rfl

theorem length_couples (l : List α) : (couples l).length = l.length / 2 := by
  induction l using List.twoStepInduction with
  | nil => exact (Nat.zero_div 2).symm
  | singleton _ => exact (Nat.div_eq_of_lt Nat.one_lt_two).symm
  | cons_cons a b rest ih _ =>
      rw [couples_cons_cons, List.length_cons, ih, List.length_cons, List.length_cons]
      omega

theorem length_pad (l : List α) : (pad l).length = (l.length + 1) / 2 * 2 := by
  rw [pad]
  by_cases hodd : l.length % 2 ≠ 0
  · have hne : l ≠ [] := by
      rintro rfl
      exact hodd rfl
    rw [if_pos hodd, List.length_append, List.getLast?_eq_some_getLast hne]
    simp only [Option.toList_some, List.length_singleton]
    omega
  · rw [if_neg hodd]
    omega

theorem length_level (l : List α) : (level f l).length = (l.length + 1) / 2 := by
  rw [level, List.length_map, length_couples, length_pad]
  omega

theorem length_climb (n : Nat) (l : List α) (hn : l.length ≤ n + 1) (hne : 0 < l.length) :
    (climb f n l).length = 1 := by
  induction n generalizing l with
  | zero =>
      rw [climb_zero]
      omega
  | succ k ih =>
      rw [climb_succ]
      by_cases hmore : 1 < l.length
      · rw [if_pos hmore]
        exact ih (level f l) (by rw [length_level]; omega) (by rw [length_level]; omega)
      · rw [if_neg hmore]
        omega

/-- A list of even length is determined by its couples. -/
theorem couples_inj (l m : List α) (heven : l.length % 2 = 0) (hlen : l.length = m.length)
    (h : couples l = couples m) : l = m := by
  induction l using List.twoStepInduction generalizing m with
  | nil => exact (List.length_eq_zero_iff.mp hlen.symm).symm
  | singleton a =>
      simp only [List.length_singleton] at heven
      omega
  | cons_cons a b rest ih _ =>
      rcases m with _ | ⟨c, _ | ⟨d, mrest⟩⟩
      · simp only [List.length_cons, List.length_nil] at hlen
        omega
      · simp only [List.length_cons, List.length_nil] at hlen
        omega
      · simp only [couples_cons_cons, List.cons.injEq, Prod.mk.injEq] at h
        simp only [List.length_cons] at heven hlen
        rw [h.1.1, h.1.2, ih mrest (by omega) (by omega) h.2]

theorem pad_inj (l m : List α) (hlen : l.length = m.length) (h : pad l = pad m) : l = m := by
  rw [pad, pad, ← hlen] at h
  by_cases hodd : l.length % 2 ≠ 0
  · rw [if_pos hodd, if_pos hodd] at h
    exact (List.append_inj h hlen).1
  · rwa [if_neg hodd, if_neg hodd] at h

/-- Two different pairs, one from each list, are combined into one node. -/
def Collide (ps qs : List (α × α)) : Prop :=
  ∃ p ∈ ps, ∃ q ∈ qs, p ≠ q ∧ f p.1 p.2 = f q.1 q.2

theorem Collide.left (ps qs above above' : List (α × α)) (h : Collide f ps qs) :
    Collide f (ps ++ above) (qs ++ above') := by
  rcases h with ⟨p, hp, q, hq, hcollide⟩
  exact ⟨p, List.mem_append_left _ hp, q, List.mem_append_left _ hq, hcollide⟩

theorem Collide.right (below below' ps qs : List (α × α)) (h : Collide f ps qs) :
    Collide f (below ++ ps) (below' ++ qs) := by
  rcases h with ⟨p, hp, q, hq, hcollide⟩
  exact ⟨p, List.mem_append_right _ hp, q, List.mem_append_right _ hq, hcollide⟩

/-- Mapping a function over two equally long lists of pairs agrees only where
    the pairs agree or collide. -/
theorem map_eq_or_collision (ps qs : List (α × α)) (hlen : ps.length = qs.length)
    (h : ps.map (fun p => f p.1 p.2) = qs.map (fun p => f p.1 p.2)) :
    ps = qs ∨ Collide f ps qs := by
  induction ps generalizing qs with
  | nil => exact Or.inl (List.length_eq_zero_iff.mp hlen.symm).symm
  | cons p ps ih =>
      rcases qs with _ | ⟨q, qs⟩
      · simp only [List.length_cons, List.length_nil] at hlen
        omega
      · simp only [List.map_cons, List.cons.injEq] at h
        simp only [List.length_cons, Nat.add_right_cancel_iff] at hlen
        by_cases hpq : p = q
        · rcases ih qs hlen h.2 with htail | hcollide
          · exact Or.inl (by rw [hpq, htail])
          · exact Or.inr (hcollide.right f [p] [q] ps qs)
        · exact Or.inr ⟨p, List.mem_cons_self, q, List.mem_cons_self, hpq, h.1⟩

/-- Equal levels come from levels that are equal when padded, unless pairs
    collide. -/
theorem pad_eq_or_collision (l m : List α) (h : level f l = level f m) :
    pad l = pad m ∨ Collide f (couples (pad l)) (couples (pad m)) := by
  have hpairs : (couples (pad l)).length = (couples (pad m)).length := by
    have hlen := congrArg List.length h
    rwa [level, level, List.length_map, List.length_map] at hlen
  refine Or.imp_left (fun hcouples => ?_) (map_eq_or_collision f _ _ hpairs h)
  -- Padded levels are even, so the couples leave nothing out.
  have hl := length_pad l
  have hm := length_pad m
  rw [length_couples, length_couples] at hpairs
  exact couples_inj _ _ (by omega) (by omega) hcouples

/-- Equal roots over equally many leaves reveal equal leaves, or two different
    pairs the climbs combined into one node. The induction is on the levels:
    equal parent levels come from equal levels. -/
theorem climb_binding (n : Nat) (l m : List α) (hlen : l.length = m.length)
    (h : climb f n l = climb f n m) :
    l = m ∨ Collide f (hashed f n l) (hashed f n m) := by
  induction n generalizing l m with
  | zero => exact Or.inl h
  | succ k ih =>
      rw [climb_succ, climb_succ, ← hlen] at h
      rw [hashed_succ, hashed_succ, ← hlen]
      by_cases hmore : 1 < l.length
      · simp only [if_pos hmore] at h ⊢
        have hlevel : (level f l).length = (level f m).length := by
          rw [length_level, length_level, hlen]
        rcases ih (level f l) (level f m) hlevel h with hsame | habove
        · rcases pad_eq_or_collision f l m hsame with hpad | hhere
          · exact Or.inl (pad_inj l m hlen hpad)
          · exact Or.inr (hhere.left f _ _ _ _)
        · exact Or.inr (habove.right f _ _ _ _)
      · simp only [if_neg hmore] at h
        exact Or.inl h

end HashTree
