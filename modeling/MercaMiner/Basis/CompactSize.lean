import MercaMiner.Basis.Wire

/-!
# The Forms of a Variable-Length Integer

The four forms a variable-length integer can take on the wire, and the reader
that insists on the shortest.

Each form holds the numbers below its bound, and the standard reader accepts
all four, so a small number has several encodings. Exactly one of them is the
shortest: the forms get longer as their bounds grow. The strict reader rejects
a form whose number fits a shorter one, and what it accepts is therefore
exactly what `encodeCompactSize` writes.

## Main definitions

* `CompactForm`: One of the four forms.
* `CompactForm.Holds`, `CompactForm.encode`, `CompactForm.width`: What it can
  hold, the bytes, and how many there are.
* `shortest`: The form a number is written in.
* `strictCompactSize`: The reader that accepts no other form.

## Theorems

* `compactSize_form`: The standard reader accepts every form.
* `encodeCompactSize_form`: A number is written in its shortest form.
* `width_shortest_lt`: Every other form that holds it is longer.
* `strictCompactSize_iff`: The strict reader accepts what is written that way.
* `strictCompactSize_longer`: It rejects the longer forms.
-/

namespace Wire

open Reader

inductive CompactForm where
  | byte
  | word16
  | word32
  | word64
  deriving DecidableEq

namespace CompactForm

/-- The numbers below this are the ones a form can hold. -/
def bound : CompactForm → Nat
  | byte => 253
  | word16 => 2 ^ 16
  | word32 => 2 ^ 32
  | word64 => 2 ^ 64

/-- The numbers below this fit a shorter form. -/
def least : CompactForm → Nat
  | byte => 0
  | word16 => 253
  | word32 => 2 ^ 16
  | word64 => 2 ^ 32

def Holds (f : CompactForm) (n : Nat) : Prop :=
  n < f.bound

/-- The number of bytes. -/
def width : CompactForm → Nat
  | byte => 1
  | word16 => 3
  | word32 => 5
  | word64 => 9

def encode (f : CompactForm) (n : Nat) : List UInt8 :=
  match f with
  | byte => LittleEndian.bytes 1 n
  | word16 => LittleEndian.bytes 1 253 ++ LittleEndian.bytes 2 n
  | word32 => LittleEndian.bytes 1 254 ++ LittleEndian.bytes 4 n
  | word64 => LittleEndian.bytes 1 255 ++ LittleEndian.bytes 8 n

theorem length_encode (f : CompactForm) (n : Nat) : (f.encode n).length = f.width := by
  cases f with
  | byte => exact LittleEndian.length_bytes 1 n
  | word16 => exact congrArg (· + 1) (LittleEndian.length_bytes 2 n)
  | word32 => exact congrArg (· + 1) (LittleEndian.length_bytes 4 n)
  | word64 => exact congrArg (· + 1) (LittleEndian.length_bytes 8 n)

/-- The forms get longer where the shorter ones end. -/
theorem bound_le_least (f f' : CompactForm) (h : f.width < f'.width) : f.bound ≤ f'.least := by
  cases f <;> cases f' <;> simp only [width, bound, least] at h ⊢ <;> omega

theorem width_injective (f f' : CompactForm) (h : f.width = f'.width) : f = f' := by
  cases f <;> cases f' <;> simp only [width] at h ⊢ <;> omega

end CompactForm

/-- The form a number is written in. -/
def shortest (n : Nat) : CompactForm :=
  if n < 253 then .byte
  else if n ≤ 0xffff then .word16
  else if n ≤ 0xffffffff then .word32
  else .word64

/-- A form is the shortest exactly between its two bounds. -/
theorem shortest_eq (f : CompactForm) (n : Nat) (hleast : f.least ≤ n) (hbound : f.Holds n) :
    shortest n = f := by
  unfold CompactForm.Holds at hbound
  unfold shortest
  cases f with
  | byte =>
      exact if_pos hbound
  | word16 =>
      simp only [CompactForm.least, CompactForm.bound] at hleast hbound
      rw [if_neg (by omega), if_pos (by omega)]
  | word32 =>
      simp only [CompactForm.least, CompactForm.bound] at hleast hbound
      rw [if_neg (by omega), if_neg (by omega), if_pos (by omega)]
  | word64 =>
      simp only [CompactForm.least, CompactForm.bound] at hleast hbound
      rw [if_neg (by omega), if_neg (by omega), if_neg (by omega)]

theorem exists_form (n : Nat) (h : n < 2 ^ 64) : ∃ f : CompactForm, f.least ≤ n ∧ f.Holds n := by
  unfold CompactForm.Holds
  by_cases h1 : n < 253
  · exact ⟨.byte, Nat.zero_le n, h1⟩
  · by_cases h2 : n < 2 ^ 16
    · exact ⟨.word16, Nat.le_of_not_lt h1, h2⟩
    · by_cases h4 : n < 2 ^ 32
      · exact ⟨.word32, Nat.le_of_not_lt h2, h4⟩
      · exact ⟨.word64, Nat.le_of_not_lt h4, h⟩

theorem shortest_spec (n : Nat) (h : n < 2 ^ 64) :
    (shortest n).least ≤ n ∧ (shortest n).Holds n := by
  rcases exists_form n h with ⟨f, hleast, hbound⟩
  rw [shortest_eq f n hleast hbound]
  exact ⟨hleast, hbound⟩

/-- Every other form that holds the number is longer. -/
theorem width_shortest_lt (n : Nat) (h : n < 2 ^ 64) (f : CompactForm) (hf : f.Holds n)
    (hne : f ≠ shortest n) : (shortest n).width < f.width := by
  by_contra hle
  have hlt : f.width < (shortest n).width := by
    have heq : f.width ≠ (shortest n).width := fun heq => hne (CompactForm.width_injective _ _ heq)
    omega
  -- A shorter form ends below the number.
  have hleast := CompactForm.bound_le_least f (shortest n) hlt
  have hspec := (shortest_spec n h).1
  unfold CompactForm.Holds at hf
  omega

theorem encodeCompactSize_form (n : Nat) : encodeCompactSize n = (shortest n).encode n := by
  unfold encodeCompactSize shortest
  by_cases h1 : n < 253
  · rw [if_pos h1, if_pos h1, CompactForm.encode]
  · rw [if_neg h1, if_neg h1]
    by_cases h2 : n ≤ 0xffff
    · rw [if_pos h2, if_pos h2, CompactForm.encode]
      rfl
    · rw [if_neg h2, if_neg h2]
      by_cases h4 : n ≤ 0xffffffff
      · rw [if_pos h4, if_pos h4, CompactForm.encode]
        rfl
      · rw [if_neg h4, if_neg h4, CompactForm.encode]
        rfl

/-- In the first form the number is its own tag. -/
theorem byte_decodes (f : Nat → Reader Nat) (n : Nat) (h : n < 253) (hf : f n = ret n) :
    Decodes (andThen (number 1) f) (CompactForm.byte.encode n) n := by
  rw [CompactForm.encode, ← List.append_nil (LittleEndian.bytes 1 n)]
  refine decodes_tag f n [] n (by omega) ?_
  rw [hf]
  exact decodes_ret n

/-- The standard reader accepts every form that holds the number. -/
theorem compactSize_form (f : CompactForm) (n : Nat) (h : f.Holds n) :
    Decodes compactSize (f.encode n) n := by
  unfold CompactForm.Holds at h
  cases f with
  | byte => exact byte_decodes _ n h (if_pos h)
  | word16 => exact decodes_tag _ 253 _ n (by omega) (number_decodes 2 n h)
  | word32 => exact decodes_tag _ 254 _ n (by omega) (number_decodes 4 n h)
  | word64 => exact decodes_tag _ 255 _ n (by omega) (number_decodes 8 n h)

/-- Numbers below the given one are rejected. -/
def atLeast (least : Nat) (r : Reader Nat) : Reader Nat :=
  andThen r fun n => if least ≤ n then ret n else fail

/-- The reader that rejects a form longer than its number needs. -/
def strictCompactSize : Reader Nat :=
  andThen (number 1) fun tag =>
    if tag < 253 then ret tag
    else if tag = 253 then atLeast 253 (number 2)
    else if tag = 254 then atLeast (2 ^ 16) (number 4)
    else atLeast (2 ^ 32) (number 8)

theorem atLeast_decodes (least : Nat) (r : Reader Nat) (enc : List UInt8) (n : Nat)
    (hr : Decodes r enc n) (h : least ≤ n) : Decodes (atLeast least r) enc n := by
  intro rest
  unfold atLeast andThen
  rw [hr rest]
  exact congrFun (if_pos h) rest

theorem strictCompactSize_form (f : CompactForm) (n : Nat) (hleast : f.least ≤ n)
    (h : f.Holds n) : Decodes strictCompactSize (f.encode n) n := by
  unfold CompactForm.Holds at h
  cases f with
  | byte => exact byte_decodes _ n h (if_pos h)
  | word16 =>
      refine decodes_tag _ 253 _ n (by omega) ?_
      exact atLeast_decodes 253 (number 2) _ n (number_decodes 2 n h) hleast
  | word32 =>
      refine decodes_tag _ 254 _ n (by omega) ?_
      exact atLeast_decodes (2 ^ 16) (number 4) _ n (number_decodes 4 n h) hleast
  | word64 =>
      refine decodes_tag _ 255 _ n (by omega) ?_
      exact atLeast_decodes (2 ^ 32) (number 8) _ n (number_decodes 8 n h) hleast

/-- The bytes of a number that was read. -/
theorem number_eq_some (k : Nat) (s rest : List UInt8) (n : Nat)
    (h : number k s = some (n, rest)) : n < 256 ^ k ∧ s = LittleEndian.bytes k n ++ rest := by
  unfold number andThen take at h
  by_cases hk : k ≤ s.length
  · rw [if_pos hk] at h
    simp only [ret, Option.some.injEq, Prod.mk.injEq] at h
    have hlen : (s.take k).length = k := List.length_take_of_le hk
    have hbytes := LittleEndian.bytes_value (s.take k)
    have hlt := LittleEndian.value_lt (s.take k)
    rw [hlen, h.1] at hbytes
    rw [hlen, h.1] at hlt
    refine ⟨hlt, ?_⟩
    rw [hbytes, ← h.2, List.take_append_drop]
  · rw [if_neg hk] at h
    exact absurd h (by simp only [reduceCtorEq, not_false_eq_true])

theorem andThen_eq_some (r : Reader Nat) (f : Nat → Reader Nat) (s rest : List UInt8) (n : Nat)
    (h : andThen r f s = some (n, rest)) :
    ∃ m middle, r s = some (m, middle) ∧ f m middle = some (n, rest) := by
  unfold andThen at h
  cases hr : r s with
  | none =>
      rw [hr] at h
      exact absurd h (by simp only [reduceCtorEq, not_false_eq_true])
  | some p =>
      rw [hr] at h
      exact ⟨p.1, p.2, rfl, h⟩

theorem atLeast_eq_some (least : Nat) (r : Reader Nat) (s rest : List UInt8) (n : Nat)
    (h : atLeast least r s = some (n, rest)) : least ≤ n ∧ r s = some (n, rest) := by
  rcases andThen_eq_some r _ s rest n h with ⟨m, middle, hr, hm⟩
  by_cases hle : least ≤ m
  · rw [if_pos hle] at hm
    simp only [ret, Option.some.injEq, Prod.mk.injEq] at hm
    rw [← hm.1, ← hm.2]
    exact ⟨hle, hr⟩
  · rw [if_neg hle] at hm
    exact absurd hm (by simp only [fail, reduceCtorEq, not_false_eq_true])

/-- The number behind a tag, with its bound and its bytes. -/
theorem atLeast_number_eq_some (least k : Nat) (s rest : List UInt8) (n : Nat)
    (h : atLeast least (number k) s = some (n, rest)) :
    least ≤ n ∧ n < 256 ^ k ∧ s = LittleEndian.bytes k n ++ rest := by
  rcases atLeast_eq_some least (number k) s rest n h with ⟨hleast, hnumber⟩
  exact ⟨hleast, number_eq_some k s rest n hnumber⟩

/-- What the strict reader accepts starts with a form no shorter one could
    replace. -/
theorem strictCompactSize_eq_some (s rest : List UInt8) (n : Nat)
    (h : strictCompactSize s = some (n, rest)) :
    ∃ f : CompactForm, f.least ≤ n ∧ f.Holds n ∧ s = f.encode n ++ rest := by
  rcases andThen_eq_some _ _ s rest n h with ⟨tag, middle, htag, htail⟩
  rcases number_eq_some 1 s middle tag htag with ⟨hlt, hs⟩
  by_cases h1 : tag < 253
  · rw [if_pos h1] at htail
    simp only [ret, Option.some.injEq, Prod.mk.injEq] at htail
    rw [← htail.1, ← htail.2]
    exact ⟨.byte, Nat.zero_le tag, h1, hs⟩
  · rw [if_neg h1] at htail
    by_cases h2 : tag = 253
    · rw [if_pos h2] at htail
      rcases atLeast_number_eq_some 253 2 middle rest n htail with ⟨hleast, hbound, hmiddle⟩
      refine ⟨.word16, hleast, hbound, ?_⟩
      rw [hs, hmiddle, h2, CompactForm.encode, List.append_assoc]
    · rw [if_neg h2] at htail
      by_cases h4 : tag = 254
      · rw [if_pos h4] at htail
        rcases atLeast_number_eq_some (2 ^ 16) 4 middle rest n htail with
          ⟨hleast, hbound, hmiddle⟩
        refine ⟨.word32, hleast, hbound, ?_⟩
        rw [hs, hmiddle, h4, CompactForm.encode, List.append_assoc]
      · rw [if_neg h4] at htail
        -- The tag is a byte, so only one value is left.
        have h8 : tag = 255 := by omega
        rcases atLeast_number_eq_some (2 ^ 32) 8 middle rest n htail with
          ⟨hleast, hbound, hmiddle⟩
        refine ⟨.word64, hleast, hbound, ?_⟩
        rw [hs, hmiddle, h8, CompactForm.encode, List.append_assoc]

theorem strictCompactSize_iff (s rest : List UInt8) (n : Nat) :
    strictCompactSize s = some (n, rest) ↔ n < 2 ^ 64 ∧ s = encodeCompactSize n ++ rest := by
  constructor
  · intro h
    rcases strictCompactSize_eq_some s rest n h with ⟨f, hleast, hbound, hs⟩
    rw [encodeCompactSize_form, shortest_eq f n hleast hbound]
    refine ⟨?_, hs⟩
    unfold CompactForm.Holds at hbound
    cases f <;> simp only [CompactForm.bound] at hbound <;> omega
  · intro h
    rcases shortest_spec n h.1 with ⟨hleast, hbound⟩
    rw [h.2, encodeCompactSize_form]
    exact strictCompactSize_form (shortest n) n hleast hbound rest

/-- A form longer than the number needs is rejected. -/
theorem strictCompactSize_longer (n : Nat) (h : n < 2 ^ 64) (f : CompactForm) (hf : f.Holds n)
    (hne : f ≠ shortest n) (rest : List UInt8) :
    strictCompactSize (f.encode n ++ rest) = none := by
  cases hread : strictCompactSize (f.encode n ++ rest) with
  | none => rfl
  | some p =>
      exfalso
      -- What it accepts is an encoding the standard reader reads the same way.
      rcases (strictCompactSize_iff _ p.2 p.1).mp hread with ⟨hlt, hs⟩
      have hstandard := compactSize_form f n hf rest
      rw [hs, compactSize_decodes p.1 hlt p.2, Option.some.injEq, Prod.mk.injEq] at hstandard
      rw [hstandard.1, hstandard.2, encodeCompactSize_form] at hs
      have hlen := congrArg List.length (List.append_cancel_right hs)
      rw [CompactForm.length_encode, CompactForm.length_encode] at hlen
      have hwidth := width_shortest_lt n h f hf hne
      omega

end Wire
