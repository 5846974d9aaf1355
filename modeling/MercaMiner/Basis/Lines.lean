import Mathlib.Data.List.DropRight
import Mathlib.Data.List.TakeDrop

/-!
# Lines and Margins

Cutting a text into lines, and a line out of its margins.

A text ends each line with a separator, but the last one may lack it. Reading
the lines back therefore loses at most an empty last line, which
`lines_unterminated` makes precise. Margins are what a test calls blank;
`strip` takes them off on both sides and leaves what is between.

## Main definitions

* `strip`: A list without its margins.
* `Bare`: A list that has no margins.
* `lines`: The lines of a text.
* `terminated`: The text of some lines.

## Theorems

* `strip_margins`: Margins around a bare list come off again.
* `lines_append`: Lines that are ended come first.
* `lines_unterminated`: A text without its last separator.
-/

namespace Lines

variable {α : Type*}

/-- Take the blank elements off both ends. -/
def strip (blank : α → Bool) (l : List α) : List α :=
  (l.dropWhile blank).rdropWhile blank

/-- The list begins and ends with an element that is not blank. -/
structure Bare (blank : α → Bool) (l : List α) : Prop where
  head : ∃ a rest, l = a :: rest ∧ blank a = false
  last : ∃ init a, l = init ++ [a] ∧ blank a = false

section

variable (blank : α → Bool)

theorem Bare.ne_nil (l : List α) (h : Bare blank l) : l ≠ [] := by
  rcases h.head with ⟨a, rest, rfl, _⟩
  exact List.cons_ne_nil a rest

/-- A bare list between two others whose ends are bare. -/
theorem Bare.append (first middle last : List α) (hfirst : Bare blank first)
    (hlast : Bare blank last) : Bare blank (first ++ middle ++ last) := by
  rcases hfirst.head with ⟨a, rest, rfl, ha⟩
  rcases hlast.last with ⟨init, b, rfl, hb⟩
  refine ⟨⟨a, rest ++ middle ++ (init ++ [b]), ?_, ha⟩, ⟨a :: rest ++ middle ++ init, b, ?_, hb⟩⟩
  · rw [List.cons_append, List.cons_append]
  · rw [← List.append_assoc]

theorem rdropWhile_margin (l after : List α) (h : ∀ a ∈ after, blank a = true) :
    (l ++ after).rdropWhile blank = l.rdropWhile blank := by
  induction after using List.reverseRecOn with
  | nil => rw [List.append_nil]
  | append_singleton after a ih =>
      rw [← List.append_assoc, List.rdropWhile_concat_pos blank _ a
        (h a (List.mem_append_right _ (List.mem_singleton_self a)))]
      exact ih fun b hb => h b (List.mem_append_left _ hb)

/-- Margins around a bare list come off again. -/
theorem strip_margins (before l after : List α) (hbefore : ∀ a ∈ before, blank a = true)
    (hafter : ∀ a ∈ after, blank a = true) (h : Bare blank l) :
    strip blank (before ++ l ++ after) = l := by
  rcases h.head with ⟨a, rest, hhead, ha⟩
  rcases h.last with ⟨init, b, hlast, hb⟩
  -- The left margin ends where the bare list begins.
  have hdrop : (l ++ after).dropWhile blank = l ++ after := by
    rw [hhead, List.cons_append, List.dropWhile_cons_of_neg (by rw [ha]; exact Bool.false_ne_true)]
  rw [strip, List.append_assoc, List.dropWhile_append_of_pos hbefore, hdrop,
    rdropWhile_margin blank l after hafter, hlast,
    List.rdropWhile_concat_neg blank init b (by rw [hb]; exact Bool.false_ne_true)]

/-- What is left begins with the first element that is not blank. -/
theorem strip_head (before rest : List α) (a : α) (hbefore : ∀ b ∈ before, blank b = true)
    (ha : blank a = false) : ∃ tail, strip blank (before ++ a :: rest) = a :: tail := by
  have hnot : ¬blank a = true := by
    rw [ha]
    exact Bool.false_ne_true
  rw [strip, List.dropWhile_append_of_pos hbefore, List.dropWhile_cons_of_neg hnot]
  -- What is cut on the right does not reach the first element.
  rcases List.rdropWhile_prefix blank (a :: rest) with ⟨cut, hcut⟩
  cases hkept : (a :: rest).rdropWhile blank with
  | nil => exact absurd (List.rdropWhile_eq_nil_iff.mp hkept a List.mem_cons_self) hnot
  | cons b tail =>
      rw [hkept, List.cons_append, List.cons.injEq] at hcut
      exact ⟨tail, by rw [hcut.1]⟩

theorem strip_blank (l : List α) (h : ∀ a ∈ l, blank a = true) : strip blank l = [] := by
  rw [strip, List.dropWhile_eq_nil_iff.mpr h, List.rdropWhile_nil]

/-- A list is split at the first element that fails the test. -/
theorem span_append (test : α → Bool) (l rest : List α) (a : α) (h : ∀ b ∈ l, test b = true)
    (ha : test a = false) : (l ++ a :: rest).span test = (l, a :: rest) := by
  have hnot : ¬test a = true := by
    rw [ha]
    exact Bool.false_ne_true
  rw [List.span_eq_takeWhile_dropWhile, List.takeWhile_append_of_pos h,
    List.takeWhile_cons_of_neg hnot, List.append_nil, List.dropWhile_append_of_pos h,
    List.dropWhile_cons_of_neg hnot]

end

section

variable [DecidableEq α] (sep : α)

/-- The lines of a text, when some elements of the first one have been read.
    A text that has ended leaves no empty line behind. -/
def linesFrom : List α → List α → List (List α)
  | line, [] => if line.isEmpty then [] else [line]
  | line, a :: rest =>
      if a = sep then line :: linesFrom [] rest else linesFrom (line ++ [a]) rest

/-- The lines of a text. -/
def lines (l : List α) : List (List α) :=
  linesFrom sep [] l

/-- The text of some lines, each of them ended. -/
def terminated (ls : List (List α)) : List α :=
  ls.flatMap fun l => l ++ [sep]

theorem linesFrom_nil (line : List α) :
    linesFrom sep line [] = if line.isEmpty then [] else [line] := rfl

theorem linesFrom_step (line rest : List α) (a : α) :
    linesFrom sep line (a :: rest) =
      if a = sep then line :: linesFrom sep [] rest else linesFrom sep (line ++ [a]) rest := rfl

theorem lines_eq (l : List α) : lines sep l = linesFrom sep [] l := rfl

theorem linesFrom_cons (line l rest : List α) (h : sep ∉ l) :
    linesFrom sep line (l ++ sep :: rest) = (line ++ l) :: lines sep rest := by
  induction l generalizing line with
  | nil => rw [List.nil_append, linesFrom_step, if_pos rfl, List.append_nil, lines_eq]
  | cons a l ih =>
      have hne : a ≠ sep := fun heq => h (heq ▸ List.mem_cons_self)
      rw [List.cons_append, linesFrom_step, if_neg hne,
        ih _ fun hmem => h (List.mem_cons_of_mem a hmem), List.append_assoc, List.singleton_append]

theorem linesFrom_last (line l : List α) (h : sep ∉ l) :
    linesFrom sep line l = if (line ++ l).isEmpty then [] else [line ++ l] := by
  induction l generalizing line with
  | nil => rw [linesFrom_nil, List.append_nil]
  | cons a l ih =>
      have hne : a ≠ sep := fun heq => h (heq ▸ List.mem_cons_self)
      rw [linesFrom_step, if_neg hne, ih _ fun hmem => h (List.mem_cons_of_mem a hmem),
        List.append_assoc, List.singleton_append]

/-- Lines that are ended come first, and then those of the rest. -/
theorem lines_append (ls : List (List α)) (rest : List α) (h : ∀ l ∈ ls, sep ∉ l) :
    lines sep (terminated sep ls ++ rest) = ls ++ lines sep rest := by
  induction ls with
  | nil => rfl
  | cons l ls ih =>
      have hsplit : terminated sep (l :: ls) ++ rest
          = l ++ sep :: (terminated sep ls ++ rest) := by
        rw [terminated, List.flatMap_cons, ← terminated, List.append_assoc, List.append_assoc,
          List.singleton_append]
      rw [hsplit, lines_eq, linesFrom_cons sep [] l _ (h l List.mem_cons_self), List.nil_append,
        ih fun l' hl => h l' (List.mem_cons_of_mem l hl), List.cons_append]

theorem lines_terminated (ls : List (List α)) (h : ∀ l ∈ ls, sep ∉ l) :
    lines sep (terminated sep ls) = ls := by
  have happend := lines_append sep ls [] h
  rw [List.append_nil] at happend
  rw [happend]
  exact List.append_nil ls

/-- Without the last separator only an empty last line is lost. -/
theorem lines_unterminated (ls : List (List α)) (l : List α) (h : ∀ l' ∈ ls, sep ∉ l')
    (hterminated : l ++ [sep] = terminated sep ls) :
    ls = lines sep l ∨ ls = lines sep l ++ [[]] := by
  induction ls using List.reverseRecOn with
  | nil => exact absurd hterminated (List.append_ne_nil_of_right_ne_nil l (List.cons_ne_nil sep []))
  | append_singleton init last _ =>
      have hlast : sep ∉ last := h last (List.mem_append_right _ (List.mem_singleton_self last))
      have hl : l = terminated sep init ++ last := by
        have heq : terminated sep (init ++ [last]) = terminated sep init ++ last ++ [sep] := by
          rw [terminated, List.flatMap_append, ← terminated, List.flatMap_singleton,
            List.append_assoc]
        rw [heq] at hterminated
        exact List.append_cancel_right hterminated
      rw [hl, lines_append sep init last fun l' hl' => h l' (List.mem_append_left _ hl'), lines_eq,
        linesFrom_last sep [] last hlast, List.nil_append]
      -- Only an empty line leaves no trace without its separator.
      cases last with
      | nil => exact Or.inr (by rw [List.isEmpty_nil, if_pos rfl, List.append_nil])
      | cons a rest => exact Or.inl (by rw [List.isEmpty_cons, if_neg Bool.false_ne_true])

end

end Lines
