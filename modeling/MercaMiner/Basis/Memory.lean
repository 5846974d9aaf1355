import MercaMiner.Basis.LittleEndian

/-!
# Words in Byte Memory

Storing 64-bit words into a fixed-size byte array and reading them back.

Memory is a vector of bytes whose length is part of its type, and every
access carries the proof that it is in range, so an access outside cannot be
written down. A word occupies eight bytes, least significant first. The facts
are those of any memory: a read sees the last store to its place, a store
elsewhere does not matter, and memories that read the same everywhere are the
same.

## Main definitions

* `storeBytes`: Store a byte string at an offset.
* `writeLE64`, `readLE64`: Store and read one word.
* `writeWords`: Store consecutive words.

## Theorems

* `toList_storeBytes`: The memory around a store.
* `readLE64_writeLE64`: Reading a word just stored.
* `readLE64_writeLE64_other`: A store elsewhere does not matter.
* `readLE64_writeWords`, `readLE64_writeWords_other`: The same after storing
  consecutive words.
* `getElem_eq_of_readLE64`: Equal words are made of equal bytes.
-/

namespace Memory

variable {n : Nat}

/-- Store a byte string at an offset, byte by byte. -/
def storeBytes (m : Vector UInt8 n) (offset : Nat) :
    (l : List UInt8) → offset + l.length ≤ n → Vector UInt8 n
  | [], _ => m
  | b :: l, h =>
      have h' : offset + (l.length + 1) ≤ n := h
      storeBytes (m.set offset b (by omega)) (offset + 1) l (by omega)

theorem storeBytes_cons (m : Vector UInt8 n) (offset : Nat) (b : UInt8) (l : List UInt8)
    (h : offset + (l.length + 1) ≤ n) :
    storeBytes m offset (b :: l) h =
      storeBytes (m.set offset b (by omega)) (offset + 1) l (by omega) := rfl

/-- The eight bytes at an offset. -/
def bytesAt (m : Vector UInt8 n) (offset : Nat) (h : offset + 8 ≤ n) : List UInt8 :=
  List.ofFn fun k : Fin 8 => m[offset + k.val]

def writeLE64 (m : Vector UInt8 n) (offset : Nat) (x : UInt64) (h : offset + 8 ≤ n) :
    Vector UInt8 n :=
  storeBytes m offset (LittleEndian.bytes 8 x.toNat) (by rwa [LittleEndian.length_bytes])

def readLE64 (m : Vector UInt8 n) (offset : Nat) (h : offset + 8 ≤ n) : UInt64 :=
  UInt64.ofNat (LittleEndian.value (bytesAt m offset h))

/-- Store words one after the other, the first at the offset. -/
def writeWords (m : Vector UInt8 n) (offset : Nat) :
    (l : List UInt64) → offset + 8 * l.length ≤ n → Vector UInt8 n
  | [], _ => m
  | x :: l, h =>
      have h' : offset + 8 * (l.length + 1) ≤ n := h
      writeWords (writeLE64 m offset x (by omega)) (offset + 8) l (by omega)

theorem getElem_storeBytes_outside (m : Vector UInt8 n) (offset : Nat) (l : List UInt8)
    (h : offset + l.length ≤ n) (k : Nat) (hk : k < n)
    (hout : k < offset ∨ offset + l.length ≤ k) : (storeBytes m offset l h)[k] = m[k] := by
  induction l generalizing m offset with
  | nil => rfl
  | cons b l ih =>
      rw [List.length_cons] at hout
      rw [storeBytes_cons, ih _ (offset + 1) _ (by omega)]
      exact Vector.getElem_set_ne _ _ (by omega)

theorem getElem_storeBytes_inside (m : Vector UInt8 n) (offset : Nat) (l : List UInt8)
    (h : offset + l.length ≤ n) (j : Nat) (hj : j < l.length) (hk : offset + j < n) :
    (storeBytes m offset l h)[offset + j] = l[j] := by
  induction l generalizing m offset j with
  | nil => exact absurd hj (by simp only [List.length_nil, Nat.not_lt_zero, not_false_eq_true])
  | cons b l ih =>
      rw [List.length_cons] at hj
      cases j with
      | zero =>
          simp only [storeBytes_cons, Nat.add_zero, List.getElem_cons_zero]
          -- The bytes after the first are stored behind it.
          rw [getElem_storeBytes_outside _ _ l _ offset (by omega) (by omega)]
          exact Vector.getElem_set_self _
      | succ i =>
          simp only [storeBytes_cons, List.getElem_cons_succ]
          have hi := ih (m.set offset b (by omega)) (offset + 1) (by
            rw [List.length_cons] at h
            omega) i (by omega) (by omega)
          simpa only [show offset + 1 + i = offset + (i + 1) by omega] using hi

/-- A store leaves what is before it and what is behind it. -/
theorem toList_storeBytes (m : Vector UInt8 n) (offset : Nat) (l : List UInt8)
    (h : offset + l.length ≤ n) :
    (storeBytes m offset l h).toList =
      m.toList.take offset ++ l ++ m.toList.drop (offset + l.length) := by
  induction l generalizing m offset with
  | nil =>
      rw [List.length_nil, Nat.add_zero, List.append_nil, List.take_append_drop]
      rfl
  | cons b l ih =>
      have h' : offset + (l.length + 1) ≤ n := h
      -- The stored byte is the first of those after the offset.
      have hset : (m.set offset b (by omega)).toList =
          (m.toList.take offset ++ [b]) ++ m.toList.drop (offset + 1) := by
        rw [Vector.toList_set, List.set_eq_take_append_cons_drop,
          if_pos (by rw [Vector.length_toList]; omega), List.append_assoc, List.singleton_append]
      have hlen : (m.toList.take offset ++ [b]).length = offset + 1 := by
        rw [List.length_append, List.length_take, Vector.length_toList, List.length_singleton]
        omega
      rw [storeBytes_cons, ih, hset, List.take_left' hlen, ← List.drop_drop, List.drop_left' hlen,
        List.drop_drop, List.length_cons, List.append_assoc _ [b] l, List.singleton_append,
        show offset + 1 + l.length = offset + (l.length + 1) by omega]

/-- The bytes up to the end of a store. -/
theorem take_toList_storeBytes (m : Vector UInt8 n) (offset : Nat) (l : List UInt8)
    (h : offset + l.length ≤ n) :
    (storeBytes m offset l h).toList.take (offset + l.length) = m.toList.take offset ++ l := by
  rw [toList_storeBytes]
  refine List.take_left' ?_
  rw [List.length_append, List.length_take, Vector.length_toList,
    Nat.min_eq_left (show offset ≤ n by omega)]

theorem length_bytesAt (m : Vector UInt8 n) (offset : Nat) (h : offset + 8 ≤ n) :
    (bytesAt m offset h).length = 8 :=
  List.length_ofFn

theorem bytesAt_writeLE64 (m : Vector UInt8 n) (offset : Nat) (x : UInt64) (h : offset + 8 ≤ n) :
    bytesAt (writeLE64 m offset x h) offset h = LittleEndian.bytes 8 x.toNat := by
  refine List.ext_getElem ?_ fun j hj hj' => ?_
  · rw [length_bytesAt, LittleEndian.length_bytes]
  · simp only [bytesAt, List.getElem_ofFn, writeLE64]
    exact getElem_storeBytes_inside m offset _ _ j hj' _

theorem bytesAt_writeLE64_other (m : Vector UInt8 n) (offset other : Nat) (x : UInt64)
    (h : offset + 8 ≤ n) (h' : other + 8 ≤ n) (hne : offset + 8 ≤ other ∨ other + 8 ≤ offset) :
    bytesAt (writeLE64 m offset x h) other h' = bytesAt m other h' := by
  simp only [bytesAt]
  congr 1
  funext k
  have hk := k.isLt
  refine getElem_storeBytes_outside m offset _ _ (other + k.val) (by omega) ?_
  rw [LittleEndian.length_bytes]
  omega

theorem readLE64_writeLE64 (m : Vector UInt8 n) (offset : Nat) (x : UInt64)
    (h : offset + 8 ≤ n) : readLE64 (writeLE64 m offset x h) offset h = x := by
  have hx := x.toNat_lt
  rw [readLE64, bytesAt_writeLE64, LittleEndian.value_bytes]
  apply UInt64.toNat_inj.mp
  rw [UInt64.toNat_ofNat']
  omega

theorem readLE64_writeLE64_other (m : Vector UInt8 n) (offset other : Nat) (x : UInt64)
    (h : offset + 8 ≤ n) (h' : other + 8 ≤ n) (hne : offset + 8 ≤ other ∨ other + 8 ≤ offset) :
    readLE64 (writeLE64 m offset x h) other h' = readLE64 m other h' := by
  rw [readLE64, bytesAt_writeLE64_other m offset other x h h' hne, readLE64]

theorem readLE64_writeWords_other (m : Vector UInt8 n) (offset other : Nat) (l : List UInt64)
    (h : offset + 8 * l.length ≤ n) (h' : other + 8 ≤ n)
    (hne : offset + 8 * l.length ≤ other ∨ other + 8 ≤ offset) :
    readLE64 (writeWords m offset l h) other h' = readLE64 m other h' := by
  induction l generalizing m offset with
  | nil => rfl
  | cons x l ih =>
      rw [List.length_cons] at h hne
      rw [writeWords, ih _ (offset + 8) _ (by omega)]
      exact readLE64_writeLE64_other m offset other x (by omega) h' (by omega)

theorem readLE64_writeWords (m : Vector UInt8 n) (offset : Nat) (l : List UInt64)
    (h : offset + 8 * l.length ≤ n) (j : Nat) (hj : j < l.length) (h' : offset + 8 * j + 8 ≤ n) :
    readLE64 (writeWords m offset l h) (offset + 8 * j) h' = l[j] := by
  induction l generalizing m offset j with
  | nil => exact absurd hj (by simp only [List.length_nil, Nat.not_lt_zero, not_false_eq_true])
  | cons x l ih =>
      rw [List.length_cons] at h hj
      cases j with
      | zero =>
          simp only [writeWords, Nat.mul_zero, Nat.add_zero, List.getElem_cons_zero]
          -- The words after the first are stored behind it.
          rw [readLE64_writeWords_other _ (offset + 8) offset l (by omega) (by omega) (by omega)]
          exact readLE64_writeLE64 m offset x (by omega)
      | succ i =>
          simp only [writeWords, List.getElem_cons_succ]
          have hi := ih (writeLE64 m offset x (by omega)) (offset + 8) (by omega) i (by omega)
            (by omega)
          simpa only [show offset + 8 + 8 * i = offset + 8 * (i + 1) by omega] using hi

/-- Two memories that read the same word at an offset hold the same bytes
    there. -/
theorem getElem_eq_of_readLE64 (m m' : Vector UInt8 n) (offset : Nat) (h : offset + 8 ≤ n)
    (heq : readLE64 m offset h = readLE64 m' offset h) (k : Nat) (hk : k < 8)
    (hk' : offset + k < n) : m[offset + k] = m'[offset + k] := by
  have hvalue : LittleEndian.value (bytesAt m offset h) =
      LittleEndian.value (bytesAt m' offset h) := by
    -- Eight bytes fit a word, so the word keeps their number.
    have hm := LittleEndian.value_lt (bytesAt m offset h)
    have hm' := LittleEndian.value_lt (bytesAt m' offset h)
    rw [length_bytesAt] at hm hm'
    have hnat := congrArg UInt64.toNat heq
    rw [readLE64, readLE64, UInt64.toNat_ofNat', UInt64.toNat_ofNat'] at hnat
    omega
  have hbytes : bytesAt m offset h = bytesAt m' offset h :=
    LittleEndian.value_inj _ _ (by rw [length_bytesAt, length_bytesAt]) hvalue
  have hget := List.getElem_of_eq hbytes (i := k) (by rwa [length_bytesAt])
  simpa only [bytesAt, List.getElem_ofFn] using hget

end Memory
