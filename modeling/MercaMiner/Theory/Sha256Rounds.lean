import MercaMiner.Basis.Fips180
import MercaMiner.Core.Sha256Object

/-!
# The Unrolled Transform Is the Compression Function

`Transform` keeps sixteen schedule variables and eight working variables that
stay where they are; FIPS 180-4 has a schedule of 64 words and moves the
working variables in every round. The two compute the same words, and so does
`transform`, which slides a window over the schedule.

Two invariants carry the rounds. Before round `i` the schedule variables hold
the last words of the schedule up to word `i`, each at its number modulo
sixteen. The arguments of round `i` are the working variables of the standard.
The boolean functions are written differently in the source, with fewer
operations, and its table of constants is compared with the roots of primes
the standard takes them from.

## Main definitions

* `Words.state`: The chaining words as a state of the standard.
* `ScheduleHolds`, `ArgumentsHold`: The two invariants.

## Theorems

* `scheduleHolds_step`, `argumentsHold_step`: One round keeps them.
* `state_transformInPlace`: The unrolled transform.
* `state_transform`: The transform over a window.
-/

namespace MercaMiner

namespace Sha256

/-- The chaining words as a state of the standard. -/
def Words.state (s : Words) : Fips180.State :=
  ⟨s.a, s.b, s.c, s.d, s.e, s.f, s.g, s.h⟩

theorem Words.state_injective (s t : Words) (h : s.state = t.state) : s = t := by
  cases s
  cases t
  simp only [Words.state, Fips180.State.mk.injEq] at h
  simpa only [Words.mk.injEq] using h

theorem ch_eq (x y z : UInt32) : ch x y z = Fips180.ch x y z := by
  have hbit : ∀ a b c : Bool, (c ^^ (a && (b ^^ c))) = ((a && b) ^^ (!a && c)) := by decide
  refine UInt32.toBitVec_inj.mp (BitVec.eq_of_getLsbD_eq fun i hi => ?_)
  unfold ch Fips180.ch
  simp only [UInt32.toBitVec_xor, UInt32.toBitVec_and, UInt32.toBitVec_not, BitVec.getLsbD_xor,
    BitVec.getLsbD_and, BitVec.getLsbD_not, decide_eq_true hi, Bool.true_and]
  exact hbit _ _ _

theorem maj_eq (x y z : UInt32) : maj x y z = Fips180.maj x y z := by
  have hbit : ∀ a b c : Bool, ((a && b) || (c && (a || b))) =
      ((a && b) ^^ (a && c) ^^ (b && c)) := by decide
  refine UInt32.toBitVec_inj.mp (BitVec.eq_of_getLsbD_eq fun i hi => ?_)
  unfold maj Fips180.maj
  simp only [UInt32.toBitVec_xor, UInt32.toBitVec_and, UInt32.toBitVec_or, BitVec.getLsbD_xor,
    BitVec.getLsbD_and, BitVec.getLsbD_or]
  exact hbit _ _ _

/-- Two shifts that make up the width are a rotation. -/
theorem rotr_eq (x n m : UInt32) (hpos : 0 < n.toNat) (h : n.toNat + m.toNat = 32)
    (hm : 0 < m.toNat) : rotr x n m = Fips180.rotr x n.toNat := by
  have hmod (k : UInt32) (hk : k.toNat < 32) : (k.toBitVec % 32).toNat = k.toNat := by
    rw [BitVec.toNat_umod]
    exact Nat.mod_eq_of_lt hk
  apply UInt32.toBitVec_inj.mp
  unfold rotr Fips180.rotr
  rw [UInt32.toBitVec_or, UInt32.toBitVec_shiftRight, UInt32.toBitVec_shiftLeft,
    BitVec.rotateRight_def, Nat.mod_eq_of_lt (show n.toNat < 32 by omega),
    BitVec.ushiftRight_eq', BitVec.shiftLeft_eq', hmod n (by omega), hmod m (by omega),
    show 32 - n.toNat = m.toNat by omega]

theorem bigSigma0_eq (x : UInt32) : bigSigma0 x = Fips180.bigSigma0 x := by
  unfold bigSigma0 Fips180.bigSigma0
  rw [rotr_eq x 2 30 (by decide) (by decide) (by decide),
    rotr_eq x 13 19 (by decide) (by decide) (by decide),
    rotr_eq x 22 10 (by decide) (by decide) (by decide)]
  rfl

theorem bigSigma1_eq (x : UInt32) : bigSigma1 x = Fips180.bigSigma1 x := by
  unfold bigSigma1 Fips180.bigSigma1
  rw [rotr_eq x 6 26 (by decide) (by decide) (by decide),
    rotr_eq x 11 21 (by decide) (by decide) (by decide),
    rotr_eq x 25 7 (by decide) (by decide) (by decide)]
  rfl

theorem sigma0_eq (x : UInt32) : sigma0 x = Fips180.smallSigma0 x := by
  unfold sigma0 Fips180.smallSigma0
  rw [rotr_eq x 7 25 (by decide) (by decide) (by decide),
    rotr_eq x 18 14 (by decide) (by decide) (by decide)]
  rfl

theorem sigma1_eq (x : UInt32) : sigma1 x = Fips180.smallSigma1 x := by
  unfold sigma1 Fips180.smallSigma1
  rw [rotr_eq x 17 15 (by decide) (by decide) (by decide),
    rotr_eq x 19 13 (by decide) (by decide) (by decide)]
  rfl

/-- The listed constants come from the roots of the primes. -/
theorem roundConstants_eq : roundConstants = Fips180.roundConstants := by
  decide +kernel

theorem state_initialState : initialState.state = Fips180.initial := by
  decide +kernel

/-- Four bytes read with shifts are the number they denote. -/
theorem readBE32_eq (b0 b1 b2 b3 : UInt8) :
    readBE32 b0 b1 b2 b3 = UInt32.ofNat (Fips180.bigEndian [b0, b1, b2, b3]) := by
  have h0 := b0.toNat_lt
  have h1 := b1.toNat_lt
  have h2 := b2.toNat_lt
  have h3 := b3.toNat_lt
  have hshift (b : UInt8) (k : Nat) (hk : k ≤ 24) : b.toNat <<< k % 2 ^ 32 = 2 ^ k * b.toNat := by
    have hb := b.toNat_lt
    have hle : 2 ^ k ≤ 2 ^ 24 := Nat.pow_le_pow_right (by omega) hk
    have hmul := Nat.mul_le_mul hle (show b.toNat ≤ 255 by omega)
    rw [Nat.shiftLeft_eq, Nat.mul_comm, Nat.mod_eq_of_lt (by omega)]
  apply UInt32.toNat_inj.mp
  unfold readBE32 Fips180.bigEndian
  simp only [UInt32.toNat_or, UInt32.toNat_shiftLeft, UInt8.toNat_toUInt32,
    List.reverse_cons, List.reverse_nil, List.nil_append, List.cons_append,
    LittleEndian.value_cons, LittleEndian.value_nil, UInt32.toNat_ofNat']
  rw [show (24 : UInt32).toNat % 32 = 24 from rfl, show (16 : UInt32).toNat % 32 = 16 from rfl,
    show (8 : UInt32).toNat % 32 = 8 from rfl, hshift b0 24 (by omega), hshift b1 16 (by omega),
    hshift b2 8 (by omega)]
  -- Each byte fits below the ones before it.
  rw [← Nat.two_pow_add_eq_or_of_lt (show 2 ^ 16 * b1.toNat < 2 ^ 24 by omega),
    show 2 ^ 24 * b0.toNat + 2 ^ 16 * b1.toNat = 2 ^ 16 * (2 ^ 8 * b0.toNat + b1.toNat) by omega,
    ← Nat.two_pow_add_eq_or_of_lt (show 2 ^ 8 * b2.toNat < 2 ^ 16 by omega),
    show 2 ^ 16 * (2 ^ 8 * b0.toNat + b1.toNat) + 2 ^ 8 * b2.toNat =
      2 ^ 8 * (2 ^ 8 * (2 ^ 8 * b0.toNat + b1.toNat) + b2.toNat) by omega,
    ← Nat.two_pow_add_eq_or_of_lt (show b3.toNat < 2 ^ 8 by omega)]
  omega

/-- Word `t` of the schedule of a chunk. -/
def wordOf (chunk : Bytes) (t : Nat) : UInt32 :=
  Fips180.word (Fips180.blockWords chunk) t

theorem length_blockWords (chunk : Bytes) : (Fips180.blockWords chunk).length = 16 := by
  unfold Fips180.blockWords
  rw [List.length_map, List.length_range]

/-- The first words are those of the chunk. -/
theorem chunkWord_eq (chunk : Bytes) (h : chunk.length = 64) (i : Nat) (hi : i < 16) :
    chunkWord chunk i = wordOf chunk i := by
  have hbytes : (chunk.drop (4 * i)).take 4 = [chunk.getD (4 * i) 0, chunk.getD (4 * i + 1) 0,
      chunk.getD (4 * i + 2) 0, chunk.getD (4 * i + 3) 0] := by
    rw [List.drop_eq_getElem_cons (show 4 * i < chunk.length by omega),
      List.drop_eq_getElem_cons (show 4 * i + 1 < chunk.length by omega),
      List.drop_eq_getElem_cons (show 4 * i + 1 + 1 < chunk.length by omega),
      List.drop_eq_getElem_cons (show 4 * i + 1 + 1 + 1 < chunk.length by omega)]
    simp only [List.take_succ_cons, List.take_zero,
      List.getD_eq_getElem _ _ (show 4 * i < chunk.length by omega),
      List.getD_eq_getElem _ _ (show 4 * i + 1 < chunk.length by omega),
      List.getD_eq_getElem _ _ (show 4 * i + 2 < chunk.length by omega),
      List.getD_eq_getElem _ _ (show 4 * i + 3 < chunk.length by omega)]
  unfold chunkWord wordOf
  rw [Fips180.word_of_lt _ _ (by rw [length_blockWords]; exact hi), readBE32_eq, ← hbytes,
    List.getD_eq_getElem _ _ (by rw [length_blockWords]; exact hi)]
  unfold Fips180.blockWords
  rw [List.getElem_map, List.getElem_range]

theorem wordOf_recurrence (chunk : Bytes) (t : Nat) (h : 16 ≤ t) :
    wordOf chunk t = wordOf chunk (t - 16) + (sigma1 (wordOf chunk (t - 2)) +
      wordOf chunk (t - 7) + sigma0 (wordOf chunk (t - 15))) := by
  have hrec := Fips180.word_recurrence (Fips180.blockWords chunk) (length_blockWords chunk) (t - 16)
  rw [show t - 16 + 16 = t by omega, show t - 16 + 14 = t - 2 by omega,
    show t - 16 + 9 = t - 7 by omega, show t - 16 + 1 = t - 15 by omega] at hrec
  unfold wordOf
  rw [hrec, sigma1_eq, sigma0_eq, UInt32.add_comm (Fips180.word _ (t - 16))]

/-- Before round `i` the variables hold the last sixteen words. -/
def ScheduleHolds (chunk : Bytes) (i : Nat) (w : Schedule) : Prop :=
  ∀ t, t < i → i ≤ t + 16 → scheduled w t = wordOf chunk t

theorem scheduled_set (w : Schedule) (i t : Nat) (x : UInt32) (h : i % 16 < 16) :
    scheduled (w.set (i % 16) x h) t = if i % 16 = t % 16 then x else scheduled w t := by
  exact Vector.getElem_set h (Nat.mod_lt t (by omega))

theorem scheduleHolds_step (chunk : Bytes) (hchunk : chunk.length = 64) (i : Nat) (w : Schedule)
    (h : ScheduleHolds chunk i w) :
    ScheduleHolds chunk (i + 1) (scheduleInPlace chunk w i) := by
  intro t ht ht'
  unfold scheduleInPlace
  rw [scheduled_set]
  rcases Nat.lt_or_ge t i with hold | hnew
  · -- The variable of another round keeps its word.
    rw [if_neg (by omega)]
    exact h t hold (by omega)
  · obtain rfl : t = i := by omega
    rw [if_pos rfl]
    by_cases hfirst : t < 16
    · rw [if_pos hfirst, chunkWord_eq chunk hchunk t hfirst]
    · have hat (k : Nat) (hk : 0 < k) (hk' : k ≤ 16) (j : Nat) (hj : (t + j) % 16 = (t - k) % 16) :
          scheduled w (t + j) = wordOf chunk (t - k) := by
        rw [← h (t - k) (by omega) (by omega)]
        unfold scheduled
        simp only [hj]
      rw [if_neg hfirst, wordOf_recurrence chunk t (by omega), hat 2 (by omega) (by omega) 14
        (by omega), hat 7 (by omega) (by omega) 9 (by omega), hat 15 (by omega) (by omega) 1
        (by omega)]
      have hown := hat 16 (by omega) (by omega) 0 (by omega)
      rw [Nat.add_zero] at hown
      rw [hown]

/-- The arguments of round `i` are the working variables. -/
def ArgumentsHold (i : Nat) (v : Registers) (s : Fips180.State) : Prop :=
  argument v i 0 = s.a ∧ argument v i 1 = s.b ∧ argument v i 2 = s.c ∧ argument v i 3 = s.d ∧
    argument v i 4 = s.e ∧ argument v i 5 = s.f ∧ argument v i 6 = s.g ∧ argument v i 7 = s.h

/-- The next round sees a variable one role later. -/
theorem argument_next (v : Registers) (i r : Nat) (hr : r < 8) :
    argument v (i + 1) ((r + 1) % 8) = argument v i r := by
  have hrole : role (i + 1) ((r + 1) % 8) = role i r := by
    unfold role
    omega
  unfold argument
  simp only [hrole]

theorem argument_assign (v : Registers) (i r r' : Nat) (x : UInt32) (hr : r < 8) (hr' : r' < 8) :
    argument (assign v i r x) i r' = if r = r' then x else argument v i r' := by
  unfold argument assign
  by_cases heq : r = r'
  · subst heq
    rw [if_pos rfl]
    exact Vector.getElem_set_self _
  · have hne : role i r ≠ role i r' := by
      unfold role
      omega
    rw [if_neg heq]
    exact Vector.getElem_set_ne _ _ hne

/-- The variables a round does not write keep their values for the next one. -/
theorem argument_kept (v : Registers) (i r : Nat) (x y : UInt32) (hr : r < 7) (h3 : r ≠ 3) :
    argument (assign (assign v i 3 x) i 7 y) (i + 1) (r + 1) = argument v i r := by
  have hnext := argument_next (assign (assign v i 3 x) i 7 y) i r (by omega)
  rw [Nat.mod_eq_of_lt (by omega)] at hnext
  rw [hnext, argument_assign _ i 7 r y (by omega) (by omega), if_neg (by omega),
    argument_assign _ i 3 r x (by omega) (by omega), if_neg (by omega)]

theorem argumentsHold_step (i : Nat) (v : Registers) (s : Fips180.State) (k word : UInt32)
    (h : ArgumentsHold i v s) :
    ArgumentsHold (i + 1) (roundInPlace v i (k + word)) (Fips180.round s (k, word)) := by
  rcases h with ⟨ha, hb, hc, hd, he, hf, hg, hh⟩
  unfold ArgumentsHold roundInPlace Fips180.round
  simp only [ha, hb, hc, hd, he, hf, hg, hh, bigSigma0_eq, bigSigma1_eq, ch_eq, maj_eq,
    ← UInt32.add_assoc]
  refine ⟨?_, ?_, ?_, ?_, ?_, ?_, ?_, ?_⟩
  · -- The variable that was `h` is the next `a`.
    rw [argument_next _ i 7 (by omega), argument_assign _ i 7 7 _ (by omega) (by omega)]
    rfl
  · rw [argument_kept v i 0 _ _ (by omega) (by omega), ha]
  · rw [argument_kept v i 1 _ _ (by omega) (by omega), hb]
  · rw [argument_kept v i 2 _ _ (by omega) (by omega), hc]
  · -- The variable that was `d` is the next `e`.
    rw [argument_next _ i 3 (by omega), argument_assign _ i 7 3 _ (by omega) (by omega),
      argument_assign _ i 3 3 _ (by omega) (by omega)]
    rfl
  · rw [argument_kept v i 4 _ _ (by omega) (by omega), he]
  · rw [argument_kept v i 5 _ _ (by omega) (by omega), hf]
  · rw [argument_kept v i 6 _ _ (by omega) (by omega), hg]

/-- Any number of rounds, with the constants they add. -/
theorem argumentsHold_foldl (chunk : Bytes) (hchunk : chunk.length = 64) (ks : List UInt32)
    (i : Nat) (v : Registers) (w : Schedule) (s : Fips180.State) (hv : ArgumentsHold i v s)
    (hw : ScheduleHolds chunk i w) :
    ArgumentsHold (i + ks.length)
      (((List.range' i ks.length).zip ks).foldl (stepInPlace chunk) (v, w)).1
      ((ks.zip ((List.range' i ks.length).map (wordOf chunk))).foldl Fips180.round s) := by
  induction ks generalizing i v w s with
  | nil => exact hv
  | cons k ks ih =>
      have hw' := scheduleHolds_step chunk hchunk i w hw
      have hword := hw' i (by omega) (by omega)
      have hv' := argumentsHold_step i v s k (wordOf chunk i) hv
      rw [List.length_cons, List.range'_succ, List.zip_cons_cons, List.map_cons,
        List.zip_cons_cons, List.foldl_cons, List.foldl_cons]
      unfold stepInPlace
      simp only [hword]
      have hrest := ih (i + 1) _ _ _ hv' hw'
      rwa [show i + 1 + ks.length = i + (ks.length + 1) by omega] at hrest

/-- The compression of a chunk, over the words by their numbers. -/
theorem compress_eq (s : Fips180.State) (chunk : Bytes) :
    Fips180.compress s chunk = s.add ((roundConstants.zip
      ((List.range' 0 64).map (wordOf chunk))).foldl Fips180.round s) := by
  unfold Fips180.compress
  rw [Fips180.schedule_eq_map, length_blockWords, List.range_eq_range', roundConstants_eq]
  rfl

/-- The unrolled transform of a chunk is the compression function. -/
theorem state_transformInPlace (w : Schedule) (s : Words) (chunk : Bytes)
    (h : chunk.length = 64) :
    (transformInPlace w s chunk).state = Fips180.compress s.state chunk := by
  have hstart : ArgumentsHold 0 #v[s.a, s.b, s.c, s.d, s.e, s.f, s.g, s.h] s.state :=
    ⟨rfl, rfl, rfl, rfl, rfl, rfl, rfl, rfl⟩
  have hend := argumentsHold_foldl chunk h roundConstants 0 _ w s.state hstart
    fun t ht _ => absurd ht (Nat.not_lt_zero t)
  rw [show roundConstants.length = 64 from rfl] at hend
  -- After 64 rounds every variable plays its own role again.
  have hsum (v : Registers) (t : Fips180.State) (hv : ArgumentsHold 64 v t) :
      Words.state ⟨s.a + v[0], s.b + v[1], s.c + v[2], s.d + v[3], s.e + v[4], s.f + v[5],
        s.g + v[6], s.h + v[7]⟩ = s.state.add t := by
    rcases hv with ⟨ha, hb, hc, hd, he, hf, hg, hh⟩
    unfold Fips180.State.add
    rw [← ha, ← hb, ← hc, ← hd, ← he, ← hf, ← hg, ← hh]
    rfl
  rw [compress_eq]
  unfold transformInPlace
  rw [List.range_eq_range']
  exact hsum _ _ hend

/-- A chunk of zeros, from a zero state and a schedule of ones. -/
theorem state_transformInPlace_zeros :
    (transformInPlace (Vector.replicate 16 1) ⟨0, 0, 0, 0, 0, 0, 0, 0⟩
      (List.replicate 64 0)).state
        = Fips180.compress ⟨0, 0, 0, 0, 0, 0, 0, 0⟩ (List.replicate 64 0) :=
  state_transformInPlace (Vector.replicate 16 1) ⟨0, 0, 0, 0, 0, 0, 0, 0⟩ (List.replicate 64 0)
    List.length_replicate

/-- The window before round `i`: the next sixteen words. -/
def window (chunk : Bytes) (i : Nat) : List UInt32 :=
  (List.range 16).map fun j => wordOf chunk (i + j)

/-- A window after its first word, and the window before. -/
theorem map_window (f : Nat → UInt32) (i : Nat) :
    (List.range 16).map (fun j => f (i + j)) =
      f i :: f (i + 1) :: (List.range 14).map (fun j => f (i + (j + 2))) ∧
    (List.range 16).map (fun j => f (i + 1 + j)) =
      f (i + 1) :: (List.range 14).map (fun j => f (i + (j + 2))) ++ [f (i + 16)] :=
  ⟨rfl, rfl⟩

/-- The next word is made from words 0, 1, 9 and 14 of the window. -/
theorem slide_map (f : Nat → UInt32) (i : Nat) :
    slide (f i :: f (i + 1) :: (List.range 14).map (fun j => f (i + (j + 2)))) =
      f (i + 1) :: (List.range 14).map (fun j => f (i + (j + 2))) ++
        [f i + (sigma1 (f (i + 14)) + f (i + 9) + sigma0 (f (i + 1)))] :=
  rfl

theorem slide_window (chunk : Bytes) (i : Nat) : slide (window chunk i) = window chunk (i + 1) := by
  have hmap := map_window (wordOf chunk) i
  unfold window
  rw [hmap.1, hmap.2, slide_map]
  have hrec := wordOf_recurrence chunk (i + 16) (by omega)
  rw [show i + 16 - 16 = i by omega, show i + 16 - 2 = i + 14 by omega,
    show i + 16 - 7 = i + 9 by omega, show i + 16 - 15 = i + 1 by omega] at hrec
  rw [hrec]

theorem readWords_eq (n : Nat) (chunk : Bytes) (h : chunk.length = 4 * n) :
    readWords chunk = (List.range n).map (chunkWord chunk) := by
  induction n generalizing chunk with
  | zero =>
      rw [List.eq_nil_of_length_eq_zero (show chunk.length = 0 by omega)]
      rfl
  | succ k ih =>
      rcases chunk with _ | ⟨b0, _ | ⟨b1, _ | ⟨b2, _ | ⟨b3, rest⟩⟩⟩⟩
      all_goals simp only [List.length_nil, List.length_cons] at h
      · omega
      · omega
      · omega
      · omega
      · have hrest (i : Nat) : chunkWord (b0 :: b1 :: b2 :: b3 :: rest) (i + 1) =
            chunkWord rest i := by
          unfold chunkWord
          rw [show 4 * (i + 1) = 4 * i + 1 + 1 + 1 + 1 by omega]
          rfl
        rw [readWords, ih rest (by omega), List.range_succ_eq_map, List.map_cons, List.map_map]
        refine congrArg₂ List.cons rfl (List.map_congr_left fun i _ => ?_)
        exact (hrest i).symm

theorem readWords_chunk (chunk : Bytes) (h : chunk.length = 64) :
    readWords chunk = window chunk 0 := by
  rw [readWords_eq 16 chunk h]
  unfold window
  refine List.map_congr_left fun i hi => ?_
  rw [chunkWord_eq chunk h i (List.mem_range.mp hi), Nat.zero_add]

theorem state_round (s : Words) (k word : UInt32) :
    (round s (k + word)).state = Fips180.round s.state (k, word) := by
  unfold round Fips180.round Words.state
  simp only [bigSigma0_eq, bigSigma1_eq, ch_eq, maj_eq, ← UInt32.add_assoc]

theorem state_rounds (chunk : Bytes) (ks : List UInt32) (i : Nat) (s : Words) :
    (rounds ks (window chunk i) s).state =
      (ks.zip ((List.range' i ks.length).map (wordOf chunk))).foldl Fips180.round s.state := by
  induction ks generalizing i s with
  | nil => rfl
  | cons k ks ih =>
      have hhead : (window chunk i).headD 0 = wordOf chunk i := rfl
      rw [rounds, slide_window, ih, hhead, state_round, List.length_cons, List.range'_succ,
        List.map_cons, List.zip_cons_cons, List.foldl_cons]

theorem state_transform (s : Words) (chunk : Bytes) (h : chunk.length = 64) :
    (transform s chunk).state = Fips180.compress s.state chunk := by
  rw [compress_eq]
  unfold transform
  rw [readWords_chunk chunk h]
  have hrounds := state_rounds chunk roundConstants 0 s
  rw [show roundConstants.length = 64 from rfl] at hrounds
  rw [← hrounds]
  rfl

/-- The unrolled transform is the transform over a window, whatever the
    schedule variables held before. -/
theorem transformInPlace_eq_transform (w : Schedule) (s : Words) (chunk : Bytes)
    (h : chunk.length = 64) : transformInPlace w s chunk = transform s chunk := by
  apply Words.state_injective
  rw [state_transformInPlace w s chunk h, state_transform s chunk h]

end Sha256

end MercaMiner
