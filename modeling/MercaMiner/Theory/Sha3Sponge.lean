import MercaMiner.Basis.Fips202Hash
import MercaMiner.Core.Sha3
import MercaMiner.Theory.KeccakRound

/-!
# The Incremental Hashers Compute SHA-3

However the data is cut into writes, a hasher finalizes to the SHA-3 digest of
their concatenation.

A hasher is seen as the state of its sponge and the bytes waiting in its
buffer. A write takes one of three ways through its data, depending on what
is waiting and on how much arrives; in each of them it is one `Chunks.feed` of
eight-byte chunks, so any number of writes is one. Stale bytes behind the
buffer's counter are never looked at: finalizing clears them first.

The standard adds a whole block of the rate before it permutes, the code one
word at a time with a counter. That is the simulation of large chunks by small
ones. Finalizing closes the block in progress without building the padding:
the first padding word is what waits with a byte `06` behind it, the top bit
of the last word is flipped, and the words in between would add nothing.

## Main definitions

* `Sha3.pending`, `Sha3.view`: What of a hasher matters.
* `xorFrom`: Add words from a position on.

## Theorems

* `view_write`: A write is a feed of its data.
* `absorb_block`: The words that complete a block.
* `finalize_of_view`: The digest of a hasher that was fed a message.
* `sha3_of_writes`: Any writes to a new or reset hasher.
-/

namespace MercaMiner

open Keccak

theorem readLE64_nil : readLE64 [] = 0 := rfl

/-- A buffer of eight bytes is read as a whole. -/
theorem memory_readLE64_eq (m : Vector UInt8 8) (h : 0 + 8 ≤ 8) :
    Memory.readLE64 m 0 h = readLE64 m.toList := by
  unfold Memory.readLE64 readLE64
  have hbytes : Memory.bytesAt m 0 h = m.toList := by
    refine List.ext_getElem ?_ fun k hk hk' => ?_
    · rw [Memory.length_bytesAt, Vector.length_toList]
    · simp only [Memory.bytesAt, List.getElem_ofFn, Nat.zero_add, Vector.getElem_toList]
  rw [hbytes]

namespace Sha3

variable {v : Variant}

/-- The bytes waiting in the buffer. -/
def pending (hasher : Sha3 v) : Bytes :=
  hasher.mBuffer.toList.take hasher.mBufsize

/-- The sponge with the bytes waiting for it. -/
def view (hasher : Sha3 v) : Sponge v × Bytes :=
  (hasher.toSponge, hasher.pending)

theorem length_pending (hasher : Sha3 v) : hasher.pending.length = hasher.mBufsize := by
  have hlt := hasher.bufsize_lt
  unfold pending
  rw [List.length_take, Vector.length_toList]
  omega

theorem view_keepRemainder (hasher : Sha3 v) (data : Bytes)
    (hroom : hasher.mBufsize + data.length < 8) :
    (keepRemainder hasher data hroom).view = (hasher.toSponge, hasher.pending ++ data) := by
  unfold keepRemainder view pending
  simp only [Memory.take_toList_storeBytes]

theorem view_processChunks (hasher : Sha3 v) (data : Bytes)
    (hroom : hasher.mBufsize = 0 ∨ hasher.mBufsize + data.length < 8) :
    (processChunks hasher data hroom).view =
      Chunks.feed 8 Sponge.absorbChunk hasher.view data := by
  unfold processChunks Chunks.feed
  simp only [view_keepRemainder]
  have hlen := length_pending hasher
  rcases hroom with hempty | hshort
  · -- Nothing is waiting.
    have hnil : hasher.pending = [] := List.eq_nil_of_length_eq_zero (hlen.trans hempty)
    have hkeep : ({ hasher with
        toSponge := (Chunks.absorb 8 Sponge.absorbChunk hasher.toSponge data).1 } :
        Sha3 v).pending = hasher.pending := rfl
    rw [hkeep, view, hnil, List.nil_append, List.nil_append]
  · -- There is no chunk to process.
    rw [Chunks.absorb_of_lt 8 _ _ data (by omega), view,
      Chunks.absorb_of_lt 8 _ _ _ (by rw [List.length_append, hlen]; omega)]

theorem view_fillBuffer (hasher : Sha3 v) (data : Bytes)
    (hfill : 8 - hasher.mBufsize ≤ data.length) :
    (fillBuffer hasher data hfill).view =
      (hasher.absorbChunk (hasher.pending ++ data.take (8 - hasher.mBufsize)), []) := by
  have hlt := hasher.bufsize_lt
  have hlen : hasher.mBufsize + (data.take (8 - hasher.mBufsize)).length = 8 := by
    rw [List.length_take]
    omega
  have hbuffer := Memory.take_toList_storeBytes hasher.mBuffer hasher.mBufsize
    (data.take (8 - hasher.mBufsize)) (by omega)
  rw [List.take_of_length_le (by rw [Vector.length_toList]; omega)] at hbuffer
  unfold fillBuffer view pending Sponge.absorbChunk
  simp only [memory_readLE64_eq, hbuffer, List.take_zero]

theorem view_write (hasher : Sha3 v) (data : Bytes) :
    (hasher.write data).view = Chunks.feed 8 Sponge.absorbChunk hasher.view data := by
  have hlt := hasher.bufsize_lt
  unfold write
  by_cases hfill : hasher.mBufsize ≠ 0 ∧ 8 - hasher.mBufsize ≤ data.length
  · rw [dif_pos hfill, view_processChunks, view_fillBuffer hasher data hfill.2]
    unfold Chunks.feed view
    -- What waits and the bytes that fill the buffer are one chunk.
    have hchunk : (hasher.pending ++ data.take (8 - hasher.mBufsize)).length = 8 := by
      rw [List.length_append, length_pending, List.length_take]
      omega
    have hdata : hasher.pending ++ data = (hasher.pending ++ data.take (8 - hasher.mBufsize)) ++
        data.drop (8 - hasher.mBufsize) := by
      rw [List.append_assoc, List.take_append_drop]
    rw [List.nil_append, hdata, Chunks.absorb_chunk 8 _ (by omega) _ _ _ hchunk]
  · rw [dif_neg hfill, view_processChunks]

theorem view_foldl_write (hasher : Sha3 v) (datas : List Bytes) :
    (datas.foldl write hasher).view =
      Chunks.feed 8 Sponge.absorbChunk hasher.view datas.flatten := by
  have hshort : hasher.view.2.length < 8 := by
    have hlt := hasher.bufsize_lt
    have hlen := length_pending hasher
    simp only [view]
    omega
  rw [← Chunks.foldl_feed 8 _ (by omega) hasher.view hshort datas]
  induction datas generalizing hasher with
  | nil => rfl
  | cons data rest ih =>
      have hnext := Chunks.length_feed_lt 8 Sponge.absorbChunk (by omega) hasher.view data
      rw [List.foldl_cons, List.foldl_cons, ← view_write]
      rw [← view_write] at hnext
      exact ih (hasher.write data) hnext

end Sha3

namespace Sponge

variable {v : Variant}

/-- Add consecutive words to the state, the first at a position. -/
def xorFrom (st : Lanes) (pos : Nat) (block : Bytes) : Lanes :=
  Vector.ofFn fun i : Fin 25 =>
    if pos ≤ i.val then st[i.val] ^^^ readLE64 ((block.drop (8 * (i.val - pos))).take 8)
    else st[i.val]

theorem xorFrom_nil (st : Lanes) (pos : Nat) : xorFrom st pos [] = st := by
  refine Vector.ext fun i hi => ?_
  unfold xorFrom
  rw [Vector.getElem_ofFn, List.drop_nil, List.take_nil, readLE64_nil, UInt64.xor_zero]
  exact ite_self _

theorem xorFrom_step (st : Lanes) (pos : Nat) (h : pos < 25) (block : Bytes) :
    xorFrom st pos block =
      xorFrom (xorAt st pos (readLE64 (block.take 8)) h) (pos + 1) (block.drop 8) := by
  refine Vector.ext fun i hi => ?_
  unfold xorFrom
  rw [Vector.getElem_ofFn, Vector.getElem_ofFn]
  simp only [getElem_xorAt]
  rcases Nat.lt_trichotomy pos i with hlt | heq | hgt
  · have hdrop : 8 + 8 * (i - (pos + 1)) = 8 * (i - pos) := by omega
    rw [if_pos (by omega), if_pos (by omega), if_neg (by omega), List.drop_drop, hdrop]
  · subst heq
    rw [if_pos (Nat.le_refl _), if_neg (by omega), if_pos rfl, Nat.sub_self, Nat.mul_zero,
      List.drop_zero]
  · rw [if_neg (by omega), if_neg (by omega), if_neg (by omega)]

/-- The words that complete a block: all of them are added, and the state is
    permuted once. -/
theorem absorb_block (s : Sponge v) (block : Bytes)
    (h : block.length = 8 * (v.rateBuffers - s.mPos)) :
    (Chunks.absorb 8 absorbChunk s block).1 =
      ⟨keccakF (xorFrom s.mState s.mPos block), 0, v.rateBuffers_pos⟩ := by
  -- The induction is on the words that are missing.
  induction hleft : v.rateBuffers - s.mPos generalizing s block with
  | zero =>
      have hpos := s.pos_lt
      omega
  | succ left ih =>
      have hpos := s.pos_lt
      have hdrop : (block.drop 8).length = 8 * left := by
        rw [List.length_drop]
        omega
      rw [Chunks.absorb_of_le 8 _ (by omega) s block (by omega), xorFrom_step _ _ s.pos_lt_lanes]
      unfold absorbChunk absorbWord
      by_cases hfull : s.mPos + 1 = v.rateBuffers
      · -- This word was the last one.
        have hnil : block.drop 8 = [] := List.eq_nil_of_length_eq_zero (by omega)
        simp only [dif_pos hfull, hnil, xorFrom_nil]
        rw [Chunks.absorb_of_lt 8 _ _ [] (by simp only [List.length_nil]; omega)]
      · simp only [dif_neg hfull]
        exact ih _ _ (by rw [hdrop]; simp only; omega) (by simp only; omega)

theorem lanes_xorFrom (st : Lanes) (block : Bytes) :
    lanes (xorFrom st 0 block) = Fips202.xorBlock (lanes st) block := by
  funext x y
  unfold lanes xorFrom Fips202.xorBlock
  rw [Vector.getElem_ofFn, if_pos (Nat.zero_le _)]
  rfl

/-- The counter keeps track of what was absorbed since the last permutation. -/
theorem absorb_count (s : Sponge v) (l : Bytes) :
    (8 * (Chunks.absorb 8 absorbChunk s l).1.mPos + (Chunks.absorb 8 absorbChunk s l).2.length) %
      (8 * v.rateBuffers) = (8 * s.mPos + l.length) % (8 * v.rateBuffers) := by
  refine Chunks.absorb_induction 8 absorbChunk (by omega) (fun s l =>
    (8 * (Chunks.absorb 8 absorbChunk s l).1.mPos +
      (Chunks.absorb 8 absorbChunk s l).2.length) % (8 * v.rateBuffers) =
        (8 * s.mPos + l.length) % (8 * v.rateBuffers))
    (fun s l hlt => ?_) (fun s chunk l hchunk ih => ?_) s l
  · rw [Chunks.absorb_of_lt 8 _ s l hlt]
  · rw [Chunks.absorb_chunk 8 _ (by omega) s chunk l hchunk, ih, List.length_append, hchunk]
    unfold absorbChunk absorbWord
    by_cases hfull : s.mPos + 1 = v.rateBuffers
    · simp only [dif_pos hfull]
      rw [← hfull, show 8 * s.mPos + (8 + l.length) = l.length + 8 * (s.mPos + 1) by omega,
        Nat.add_mod_right, Nat.mul_zero, Nat.zero_add]
    · simp only [dif_neg hfull]
      congr 1
      omega

/-- Words that are zero only move the position. -/
theorem absorb_zeros (s : Sponge v) (count : Nat) (l : Bytes)
    (h : s.mPos + count < v.rateBuffers) :
    Chunks.absorb 8 absorbChunk s (List.replicate (8 * count) 0 ++ l) =
      Chunks.absorb 8 absorbChunk ⟨s.mState, s.mPos + count, h⟩ l := by
  induction count generalizing s with
  | zero => rw [Nat.mul_zero, List.replicate_zero, List.nil_append]; rfl
  | succ k ih =>
      have hsplit : List.replicate (8 * (k + 1)) (0 : UInt8) =
          List.replicate 8 0 ++ List.replicate (8 * k) 0 := by
        rw [List.replicate_append_replicate]
        congr 1
        omega
      have hsame (h0 : s.mPos < 25) : xorAt s.mState s.mPos 0 h0 = s.mState := by
        refine Vector.ext fun i hi => ?_
        rw [getElem_xorAt, UInt64.xor_zero]
        exact ite_self _
      have hword : absorbChunk s (List.replicate 8 0) = ⟨s.mState, s.mPos + 1, by omega⟩ := by
        unfold absorbChunk absorbWord
        rw [dif_neg (by omega)]
        simp only [show readLE64 (List.replicate 8 0) = 0 by decide, hsame]
      rw [hsplit, List.append_assoc, Chunks.absorb_chunk 8 _ (by omega) s _ _
        List.length_replicate, hword, ih _ (by simp only; omega)]
      simp only [Nat.add_assoc, Nat.add_comm 1 k]

/-- Adding the block to the state of the standard and permuting is what the
    words of the block do. -/
theorem absorb_simulation (a : Fips202.State 64) (s : Sponge v) (block : Bytes)
    (hblock : block.length = 8 * v.rateBuffers) (h : s.mPos = 0 ∧ lanes s.mState = a) :
    (Chunks.absorb 8 absorbChunk s block).1.mPos = 0 ∧
      lanes (Chunks.absorb 8 absorbChunk s block).1.mState = Fips202.absorbBlock a block := by
  rw [absorb_block s block (by rw [h.1, Nat.sub_zero, hblock])]
  refine ⟨rfl, ?_⟩
  unfold Fips202.absorbBlock
  rw [lanes_keccakF, h.1, lanes_xorFrom, h.2]

/-- A padded message absorbed word by word from the start. -/
theorem lanes_absorb_padded (v : Variant) (message : Bytes) :
    lanes (Chunks.absorb 8 absorbChunk (start v)
      (message ++ Fips202.pad (8 * v.rateBuffers) message.length)).1.mState =
        Fips202.absorbMessage (8 * v.rateBuffers) message := by
  have hrate := v.rateBuffers_pos
  have hzero : (start v).mPos = 0 ∧ lanes (start v).mState = fun _ _ => 0 := by
    refine ⟨rfl, ?_⟩
    funext x y
    unfold lanes start
    rw [Vector.getElem_replicate]
    rfl
  exact (Chunks.absorb_of_simulation 8 v.rateBuffers (by omega) hrate absorbChunk
    Fips202.absorbBlock (fun a s => s.mPos = 0 ∧ lanes s.mState = a)
    (fun a s block hblock h => absorb_simulation a s block hblock h) _ _ _
    (Fips202.length_padded _ message (by omega)) hzero).2

theorem absorb_word (s : Sponge v) (chunk : Bytes) (h : chunk.length = 8) :
    Chunks.absorb 8 absorbChunk s chunk = (s.absorbChunk chunk, []) := by
  have hone := Chunks.absorb_chunk 8 absorbChunk (by omega) s chunk [] h
  rw [List.append_nil] at hone
  rw [hone, Chunks.absorb_of_lt 8 _ _ [] (by simp only [List.length_nil]; omega)]

theorem mState_absorbWord_full (s : Sponge v) (word : UInt64) (h : s.mPos + 1 = v.rateBuffers) :
    (s.absorbWord word).mState = keccakF (xorAt s.mState s.mPos word s.pos_lt_lanes) := by
  unfold absorbWord
  rw [dif_pos h]

theorem xor_two_pow (x n : Nat) (h : x < 2 ^ n) : x ^^^ 2 ^ n = x + 2 ^ n := by
  have hdiv := Nat.xor_div_two_pow (a := x) (b := 2 ^ n) (n := n)
  have hmod := Nat.xor_mod_two_pow (a := x) (b := 2 ^ n) (n := n)
  rw [Nat.div_eq_of_lt h, Nat.div_self (Nat.two_pow_pos n), Nat.zero_xor] at hdiv
  rw [Nat.mod_eq_of_lt h, Nat.mod_self, Nat.xor_zero] at hmod
  have hsplit := Nat.div_add_mod (x ^^^ 2 ^ n) (2 ^ n)
  rw [hdiv, hmod, Nat.mul_one] at hsplit
  omega

/-- Flipping the top bit of the last byte flips the top bit of the word. -/
theorem readLE64_flip (l : Bytes) (h : l.length = 7) (c : UInt8) (hc : c.toNat < 2 ^ 7) :
    readLE64 (l ++ [c ^^^ 0x80]) = readLE64 (l ++ [c]) ^^^ 0x8000000000000000 := by
  have hl := LittleEndian.value_lt l
  rw [h] at hl
  have hbyte : (c ^^^ 0x80).toNat = c.toNat + 2 ^ 7 := by
    rw [UInt8.toNat_xor]
    exact xor_two_pow c.toNat 7 hc
  unfold readLE64
  rw [LittleEndian.value_append, LittleEndian.value_append, h]
  simp only [LittleEndian.value_cons, LittleEndian.value_nil, hbyte, Nat.mul_zero, Nat.add_zero]
  apply UInt64.toNat_inj.mp
  rw [UInt64.toNat_xor, UInt64.toNat_ofNat', UInt64.toNat_ofNat', Nat.mod_eq_of_lt (by omega),
    Nat.mod_eq_of_lt (by omega)]
  have hxor := xor_two_pow (LittleEndian.value l + 256 ^ 7 * c.toNat) 63 (by omega)
  refine Eq.trans ?_ hxor.symm
  omega

end Sponge

namespace Sha3

variable {v : Variant}

/-- The bytes of the first padding word. -/
def padBytes (hasher : Sha3 v) : Bytes :=
  hasher.pending ++ 0x06 :: List.replicate (7 - hasher.mBufsize) 0

theorem length_padBytes (hasher : Sha3 v) : hasher.padBytes.length = 8 := by
  have hlt := hasher.bufsize_lt
  unfold padBytes
  rw [List.length_append, length_pending, List.length_cons, List.length_replicate]
  omega

/-- The state finalizing leaves: the first padding word and the top bit of the
    last word of the rate are added, and the state is permuted. -/
theorem mState_finalize (hasher : Sha3 v) (hlast : v.rateBuffers - 1 < 25) :
    hasher.finalize.1.mState = keccakF (xorAt
      (xorAt hasher.mState hasher.mPos (readLE64 hasher.padBytes) hasher.pos_lt_lanes)
      (v.rateBuffers - 1) 0x8000000000000000 hlast) := by
  have hlt := hasher.bufsize_lt
  unfold finalize
  simp only [memory_readLE64_eq]
  -- The buffer behind its counter is cleared before the byte is placed.
  have hzero := Memory.getElem_storeBytes_inside hasher.mBuffer hasher.mBufsize
    (List.replicate (8 - hasher.mBufsize) 0) (by rw [List.length_replicate]; omega) 0
    (by rw [List.length_replicate]; omega) (by omega)
  have hclear := Memory.take_toList_storeBytes hasher.mBuffer hasher.mBufsize
    (List.replicate (8 - hasher.mBufsize) 0) (by rw [List.length_replicate]; omega)
  rw [List.take_of_length_le (by rw [Vector.length_toList, List.length_replicate]; omega)]
    at hclear
  simp only [Nat.add_zero, List.getElem_replicate] at hzero
  simp only [hzero, Vector.toList_set, hclear, UInt8.zero_xor]
  have hset : (List.take hasher.mBufsize hasher.mBuffer.toList ++
      List.replicate (8 - hasher.mBufsize) 0).set hasher.mBufsize 0x06 = hasher.padBytes := by
    have hlen := length_pending hasher
    have hcons : List.replicate (8 - hasher.mBufsize) (0 : UInt8) =
        0 :: List.replicate (7 - hasher.mBufsize) 0 := by
      rw [← List.replicate_succ]
      congr 1
      omega
    rw [← pending, List.set_append_right _ _ (by omega), hlen, Nat.sub_self, hcons,
      List.set_cons_zero, padBytes]
  rw [hset]

/-- The first padding word with its top bit flipped, which is the only one
    when the block lacks one word. -/
theorem readLE64_last (hasher : Sha3 v) (closing : Bytes)
    (h : closing = if 8 - hasher.mBufsize = 1 then [0x86]
      else 0x06 :: List.replicate (8 - hasher.mBufsize - 2) 0 ++ [0x80]) :
    readLE64 (hasher.pending ++ closing) = readLE64 hasher.padBytes ^^^ 0x8000000000000000 := by
  have hlt := hasher.bufsize_lt
  have hlen := length_pending hasher
  rw [h]
  unfold padBytes
  by_cases hone : 8 - hasher.mBufsize = 1
  · have hnone : 7 - hasher.mBufsize = 0 := by omega
    rw [if_pos hone, hnone]
    exact Sponge.readLE64_flip hasher.pending (by omega) 0x06 (by decide)
  · have hcons : List.replicate (7 - hasher.mBufsize) (0 : UInt8) =
        List.replicate (8 - hasher.mBufsize - 2) 0 ++ [0] := by
      rw [← List.replicate_succ']
      congr 1
      omega
    rw [if_neg hone, hcons, ← List.cons_append, ← List.append_assoc, ← List.append_assoc]
    refine Sponge.readLE64_flip _ ?_ 0 (by decide)
    rw [List.length_append, hlen, List.length_cons, List.length_replicate]
    omega

/-- The padding words absorbed one by one leave the state finalizing leaves. -/
theorem absorb_padding (hasher : Sha3 v) (q : Nat)
    (hq : 8 * hasher.mPos + hasher.mBufsize + q = 8 * v.rateBuffers) :
    (Chunks.absorb 8 Sponge.absorbChunk hasher.toSponge (hasher.pending ++
      (if q = 1 then [0x86] else 0x06 :: List.replicate (q - 2) 0 ++ [0x80]))).1.mState =
        hasher.finalize.1.mState := by
  have hlt := hasher.bufsize_lt
  have hpos := hasher.pos_lt
  have hrate := v.rateBuffers_le
  have hlen := length_pending hasher
  rw [mState_finalize hasher (by omega)]
  by_cases hfull : hasher.mPos + 1 = v.rateBuffers
  · -- One word closes the block.
    obtain rfl : q = 8 - hasher.mBufsize := by omega
    rw [Sponge.absorb_word]
    · unfold Sponge.absorbChunk
      rw [Sponge.mState_absorbWord_full _ _ hfull, readLE64_last hasher _ rfl]
      refine congrArg keccakF (Vector.ext fun i hi => ?_)
      simp only [getElem_xorAt, ← hfull, Nat.add_sub_cancel]
      by_cases hi' : hasher.mPos = i
      · rw [if_pos hi', if_pos hi', if_pos hi', UInt64.xor_assoc]
      · rw [if_neg hi', if_neg hi', if_neg hi']
    · rw [List.length_append, hlen]
      split_ifs
      · rw [List.length_singleton]
        omega
      · rw [List.cons_append, List.length_cons, List.length_append, List.length_replicate,
          List.length_singleton]
        omega
  · -- The first word, words of zeros, and the word with the last byte.
    have hsplit : hasher.pending ++ (0x06 :: List.replicate (q - 2) 0 ++ [0x80]) =
        hasher.padBytes ++ (List.replicate (8 * (v.rateBuffers - hasher.mPos - 2)) 0 ++
          (List.replicate 7 0 ++ [0x80])) := by
      have hzeros : List.replicate (q - 2) (0 : UInt8) = List.replicate (7 - hasher.mBufsize) 0 ++
          (List.replicate (8 * (v.rateBuffers - hasher.mPos - 2)) 0 ++ List.replicate 7 0) := by
        rw [List.replicate_append_replicate, List.replicate_append_replicate]
        congr 1
        omega
      unfold padBytes
      rw [hzeros]
      simp only [List.append_assoc, List.cons_append]
    have hfirst : hasher.toSponge.absorbChunk hasher.padBytes =
        ⟨xorAt hasher.mState hasher.mPos (readLE64 hasher.padBytes) hasher.pos_lt_lanes,
          hasher.mPos + 1, by omega⟩ := by
      unfold Sponge.absorbChunk Sponge.absorbWord
      rw [dif_neg hfull]
    rw [if_neg (by omega), hsplit, Chunks.absorb_chunk 8 _ (by omega) _ _ _
      (length_padBytes hasher), hfirst, Sponge.absorb_zeros _ _ _ (by simp only; omega),
      Sponge.absorb_word _ _ rfl]
    unfold Sponge.absorbChunk
    rw [Sponge.mState_absorbWord_full _ _ (by simp only; omega)]
    simp only [show readLE64 (List.replicate 7 0 ++ [0x80]) = 0x8000000000000000 by decide]
    congr 2
    omega

/-- A hasher that was fed a message finalizes to the state the padded message
    leads to. -/
theorem mState_finalize_of_view (hasher : Sha3 v) (message : Bytes)
    (hview : hasher.view = Chunks.absorb 8 Sponge.absorbChunk (Sponge.start v) message) :
    lanes hasher.finalize.1.mState = Fips202.absorbMessage (8 * v.rateBuffers) message := by
  have hlt := hasher.bufsize_lt
  have hpos := hasher.pos_lt
  have hcount := Sponge.absorb_count (Sponge.start v) message
  have hstart : (Sponge.start v).mPos = 0 := rfl
  rw [← hview, hstart, Nat.mul_zero, Nat.zero_add] at hcount
  simp only [view, length_pending] at hcount
  rw [Nat.mod_eq_of_lt (by omega)] at hcount
  rw [← Sponge.lanes_absorb_padded, Chunks.absorb_append 8 _ (by omega), ← hview]
  exact congrArg lanes (absorb_padding hasher _ (by omega)).symm

theorem take_flatMap (f : UInt64 → Bytes) (hf : ∀ word, (f word).length = 8) (l : List UInt64)
    (k : Nat) : (l.flatMap f).take (8 * k) = (l.take k).flatMap f := by
  induction l generalizing k with
  | nil => rw [List.flatMap_nil, List.take_nil, List.take_nil, List.flatMap_nil]
  | cons word rest ih =>
      cases k with
      | zero => rfl
      | succ k =>
          rw [List.flatMap_cons, List.take_succ_cons, List.flatMap_cons, ← ih k,
            show 8 * (k + 1) = 8 + 8 * k by omega, ← hf word, List.take_length_add_append, hf word]

/-- The words of the array are the bytes of the state. -/
theorem stateBytes_lanes (st : Lanes) :
    Fips202.stateBytes (lanes st) =
      st.toList.flatMap fun word => LittleEndian.bytes 8 word.toNat := by
  have hwords : st.toList = (List.finRange 25).map fun i => st[i.val] := by
    refine List.ext_getElem ?_ fun i hi hi' => ?_
    · rw [Vector.length_toList, List.length_map, List.length_finRange]
    · rw [Vector.getElem_toList, List.getElem_map, List.getElem_finRange]
      rfl
  unfold Fips202.stateBytes lanes
  rw [hwords, List.flatMap_map]
  refine congrArg (fun f => (List.finRange 25).flatMap f) (funext fun i => ?_)
  simp only [Nat.div_add_mod]
  rfl

/-- The rate in bytes, as the standard has it. -/
theorem rate_eq (v : Variant) : 200 - 2 * v.outputSize = 8 * v.rateBuffers := by
  cases v <;> rfl

theorem finalize_of_view (hasher : Sha3 v) (message : Bytes)
    (hview : hasher.view = Chunks.absorb 8 Sponge.absorbChunk (Sponge.start v) message) :
    hasher.finalize.2 = Fips202.sha3 v.outputSize message := by
  have hsize : 8 * (v.outputSize / 8) = v.outputSize := by cases v <;> rfl
  have hfits : v.outputSize < 8 * v.rateBuffers := by cases v <;> decide
  have hdigest : hasher.finalize.2 =
      (hasher.finalize.1.mState.toList.take (v.outputSize / 8)).flatMap
        fun word => LittleEndian.bytes 8 word.toNat := rfl
  -- The digest is shorter than the rate, so nothing is permuted for it.
  unfold Fips202.sha3
  simp only [rate_eq, Nat.div_eq_of_lt hfits, Fips202.squeeze, List.append_nil, List.take_take,
    Nat.min_eq_left (Nat.le_of_lt hfits)]
  rw [hdigest, ← mState_finalize_of_view hasher message hview, stateBytes_lanes,
    ← take_flatMap _ (fun word => LittleEndian.length_bytes 8 word.toNat), hsize]

/-- A new object and one that was reset are the same up to what their buffers
    hold. -/
theorem finalize_of_start (hasher : Sha3 v) (datas : List Bytes)
    (hstart : hasher.view = (Sponge.start v, [])) :
    (datas.foldl write hasher).finalize.2 = Fips202.sha3 v.outputSize datas.flatten := by
  refine finalize_of_view _ _ ?_
  rw [view_foldl_write, hstart]
  rfl

/-- Any sequence of writes, to a new object whatever its buffer holds and to
    any object that was reset. -/
theorem sha3_of_writes (v : Variant) (datas : List Bytes) :
    (∀ buffer, (datas.foldl write (new v buffer)).finalize.2 =
      Fips202.sha3 v.outputSize datas.flatten) ∧
    ∀ hasher : Sha3 v, (datas.foldl write hasher.reset).finalize.2 =
      Fips202.sha3 v.outputSize datas.flatten :=
  ⟨fun buffer => finalize_of_start (new v buffer) datas rfl,
    fun hasher => finalize_of_start hasher.reset datas rfl⟩

end Sha3

end MercaMiner
