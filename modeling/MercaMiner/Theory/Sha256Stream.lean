import MercaMiner.Theory.Sha256Rounds

/-!
# The SHA-256 Object Computes SHA-256

However the data is cut into writes, an object finalizes to the SHA-256 digest
of their concatenation.

An object is seen as its chaining words and the meaningful bytes of its
buffer, whose number it does not store but takes from the count of all bytes.
The count wraps at 64 bits, which a multiple of the chunk size divides, so the
number stays right however much is written; the length in the padding is the
count of bits modulo the same power, as the standard prescribes for messages
it admits. With that a write is one `Chunks.feed`, and the padding is two more
writes.

The same holds of `CSha256`, whose buffer has no stale bytes, so the block
format's hash is double SHA-256 of the standard and what the objects compute.

## Main definitions

* `Object.view`: What of an object matters.

## Theorems

* `view_write`: A write is a feed of its data.
* `sha256_of_writes`: Any writes to a new or reset object.
* `doubleSha256_spec`: The double hash of the block format.
-/

namespace MercaMiner

namespace Sha256

theorem writeBE32_eq (x : UInt32) : writeBE32 x = (LittleEndian.bytes 4 x.toNat).reverse := by
  have hbyte (k : UInt32) (d : Nat) (hk : k.toNat % 32 = d) :
      (x >>> k).toUInt8 = UInt8.ofNat (x.toNat / 2 ^ d) := by
    apply UInt8.toNat_inj.mp
    rw [UInt32.toNat_toUInt8, UInt32.toNat_shiftRight, hk, Nat.shiftRight_eq_div_pow,
      UInt8.toNat_ofNat']
  have hlast : x.toUInt8 = UInt8.ofNat x.toNat := rfl
  unfold writeBE32
  rw [hbyte 24 24 rfl, hbyte 16 16 rfl, hbyte 8 8 rfl, hlast]
  simp only [LittleEndian.bytes, List.reverse_cons, List.reverse_nil, List.nil_append,
    List.cons_append, Nat.div_div_eq_div_mul]
  rfl

theorem writeBE64_eq (x : UInt64) : writeBE64 x = (LittleEndian.bytes 8 x.toNat).reverse := by
  have hbyte (k : UInt64) (d : Nat) (hk : k.toNat % 64 = d) :
      (x >>> k).toUInt8 = UInt8.ofNat (x.toNat / 2 ^ d) := by
    apply UInt8.toNat_inj.mp
    rw [UInt64.toNat_toUInt8, UInt64.toNat_shiftRight, hk, Nat.shiftRight_eq_div_pow,
      UInt8.toNat_ofNat']
  have hlast : x.toUInt8 = UInt8.ofNat x.toNat := rfl
  unfold writeBE64
  rw [hbyte 56 56 rfl, hbyte 48 48 rfl, hbyte 40 40 rfl, hbyte 32 32 rfl, hbyte 24 24 rfl,
    hbyte 16 16 rfl, hbyte 8 8 rfl, hlast]
  simp only [LittleEndian.bytes, List.reverse_cons, List.reverse_nil, List.nil_append,
    List.cons_append, Nat.div_div_eq_div_mul]
  rfl

/-- The size in bits of a number of bytes, which wraps. -/
theorem writeBE64_bits (count : Nat) :
    writeBE64 (UInt64.ofNat count <<< 3) = (LittleEndian.bytes 8 (8 * count)).reverse := by
  have hbits : (UInt64.ofNat count <<< 3).toNat = 8 * count % 256 ^ 8 := by
    rw [UInt64.toNat_shiftLeft, UInt64.toNat_ofNat', show (3 : UInt64).toNat % 64 = 3 from rfl,
      Nat.shiftLeft_eq]
    omega
  rw [writeBE64_eq, hbits, LittleEndian.bytes_mod]

/-- The digest of a final state. -/
theorem digest_eq (s : Words) :
    writeBE32 s.a ++ writeBE32 s.b ++ writeBE32 s.c ++ writeBE32 s.d ++ writeBE32 s.e ++
      writeBE32 s.f ++ writeBE32 s.g ++ writeBE32 s.h =
        s.state.toList.flatMap fun word => (LittleEndian.bytes 4 word.toNat).reverse := by
  unfold Words.state Fips180.State.toList
  simp only [writeBE32_eq, List.flatMap_cons, List.flatMap_nil, List.append_nil,
    List.append_assoc]

/-- A step that compresses whole chunks absorbs a padded message to the digest
    of the standard. -/
theorem digest_of_absorb (step : Words → Bytes → Words)
    (hstep : ∀ s chunk, chunk.length = 64 → (step s chunk).state = Fips180.compress s.state chunk)
    (s : Words) (message rest : Bytes)
    (h : Chunks.absorb 64 step initialState (message ++ Fips180.pad message.length) = (s, rest)) :
    writeBE32 s.a ++ writeBE32 s.b ++ writeBE32 s.c ++ writeBE32 s.d ++ writeBE32 s.e ++
      writeBE32 s.f ++ writeBE32 s.g ++ writeBE32 s.h = Fips180.sha256 message := by
  have hmap := Chunks.absorb_map 64 (by omega) step Fips180.compress Words.state hstep initialState
    (message ++ Fips180.pad message.length)
  rw [h, state_initialState] at hmap
  unfold Fips180.sha256
  rw [hmap, digest_eq]

namespace Object

/-- The chaining words with the bytes waiting in the buffer. -/
def view (hasher : Object) : Words × Bytes :=
  (hasher.s, hasher.buf.toList.take (hasher.bytes.toNat % 64))

theorem length_view (hasher : Object) : hasher.view.2.length = hasher.bytes.toNat % 64 := by
  have hlt := Nat.mod_lt hasher.bytes.toNat (show 0 < 64 by omega)
  unfold view
  rw [List.length_take, Vector.length_toList]
  omega

section

variable (w : Schedule)

theorem bytes_writeChunks (hasher : Object) (data : Bytes) (bufsize : Nat)
    (hroom : bufsize + data.length % 64 ≤ 64) :
    (writeChunks w hasher data bufsize hroom).bytes =
      hasher.bytes + UInt64.ofNat data.length := by
  unfold writeChunks
  apply UInt64.toNat_inj.mp
  simp only [UInt64.toNat_add, UInt64.toNat_mul, UInt64.toNat_ofNat', List.length_drop]
  rw [show (64 : UInt64).toNat = 64 from rfl]
  omega

/-- The whole chunks are compressed and the rest is kept. -/
theorem view_writeChunks (hasher : Object) (data : Bytes) (bufsize : Nat)
    (hroom : bufsize + data.length % 64 ≤ 64) (hsize : bufsize = hasher.bytes.toNat % 64)
    (hfits : bufsize = 0 ∨ bufsize + data.length < 64) :
    (writeChunks w hasher data bufsize hroom).view =
      Chunks.feed 64 (transformInPlace w) hasher.view data := by
  have hcount := bytes_writeChunks w hasher data bufsize hroom
  have hlen := length_view hasher
  have hdrop : (data.drop (64 * (data.length / 64))).length = data.length % 64 := by
    rw [List.length_drop]
    omega
  -- What is counted is what the buffer holds.
  have hnext : (hasher.bytes + UInt64.ofNat data.length).toNat % 64 =
      bufsize + (data.drop (64 * (data.length / 64))).length := by
    rw [UInt64.toNat_add, UInt64.toNat_ofNat', hdrop]
    omega
  have hview : (writeChunks w hasher data bufsize hroom).view =
      ((Chunks.absorb 64 (transformInPlace w) hasher.s data).1,
        hasher.view.2 ++ (Chunks.absorb 64 (transformInPlace w) hasher.s data).2) := by
    have hrest : (Chunks.absorb 64 (transformInPlace w) hasher.s data).2 =
        data.drop (64 * (data.length / 64)) := Chunks.snd_consume 64 _ _ _ _
    unfold view
    rw [hcount, hnext, hrest]
    unfold writeChunks
    simp only [transformBlocks, Memory.take_toList_storeBytes, hsize]
    rfl
  rw [hview]
  unfold Chunks.feed
  rcases hfits with hempty | hshort
  · have hnil : hasher.view.2 = [] :=
      List.eq_nil_of_length_eq_zero (by rw [hlen, ← hsize, hempty])
    rw [hnil, List.nil_append, List.nil_append]
    rfl
  · rw [Chunks.absorb_of_lt 64 _ _ data (by omega),
      Chunks.absorb_of_lt 64 _ _ _ (by rw [List.length_append, hlen]; omega)]
    rfl

theorem view_write (hasher : Object) (data : Bytes) :
    (write w hasher data).view = Chunks.feed 64 (transformInPlace w) hasher.view data := by
  have hlt := Nat.mod_lt hasher.bytes.toNat (show 0 < 64 by omega)
  have hlen := length_view hasher
  unfold write
  by_cases hfill : hasher.bytes.toNat % 64 ≠ 0 ∧ 64 ≤ hasher.bytes.toNat % 64 + data.length
  · simp only [dif_pos hfill]
    have hbytes : (hasher.bytes + UInt64.ofNat (64 - hasher.bytes.toNat % 64)).toNat % 64 = 0 := by
      rw [UInt64.toNat_add, UInt64.toNat_ofNat']
      omega
    rw [view_writeChunks w _ _ 0 _ hbytes.symm (Or.inl rfl)]
    -- The buffer that was filled is what waited and the first of the data.
    have hlength : hasher.bytes.toNat % 64 +
        (data.take (64 - hasher.bytes.toNat % 64)).length = 64 := by
      rw [List.length_take]
      omega
    have hbuffer := Memory.take_toList_storeBytes hasher.buf (hasher.bytes.toNat % 64)
      (data.take (64 - hasher.bytes.toNat % 64)) (by omega)
    rw [List.take_of_length_le (by rw [Vector.length_toList]; omega)] at hbuffer
    have hdata : hasher.view.2 ++ data =
        (hasher.view.2 ++ data.take (64 - hasher.bytes.toNat % 64)) ++
          data.drop (64 - hasher.bytes.toNat % 64) := by
      rw [List.append_assoc, List.take_append_drop]
    have hchunk : (hasher.view.2 ++ data.take (64 - hasher.bytes.toNat % 64)).length = 64 := by
      rw [List.length_append, hlen, hlength]
    have hfeed := Chunks.absorb_chunk 64 (transformInPlace w) (by omega) hasher.view.1 _
      (data.drop (64 - hasher.bytes.toNat % 64)) hchunk
    unfold Chunks.feed
    rw [hdata, hfeed]
    unfold view
    simp only [hbytes, hbuffer, List.take_zero, List.nil_append]
  · simp only [dif_neg hfill]
    exact view_writeChunks w hasher data _ _ rfl (by omega)

theorem bytes_write (hasher : Object) (data : Bytes) :
    (write w hasher data).bytes = hasher.bytes + UInt64.ofNat data.length := by
  have hlt := Nat.mod_lt hasher.bytes.toNat (show 0 < 64 by omega)
  unfold write
  by_cases hfill : hasher.bytes.toNat % 64 ≠ 0 ∧ 64 ≤ hasher.bytes.toNat % 64 + data.length
  · simp only [dif_pos hfill, bytes_writeChunks]
    rw [UInt64.add_assoc, ← UInt64.ofNat_add, List.length_drop]
    congr 2
    omega
  · simp only [dif_neg hfill, bytes_writeChunks]

/-- What an object was given since it was new. -/
def Given (hasher : Object) (written : Bytes) : Prop :=
  hasher.view = Chunks.feed 64 (transformInPlace w) (initialState, []) written ∧
    hasher.bytes = UInt64.ofNat written.length

theorem given_write (hasher : Object) (written data : Bytes) (h : Given w hasher written) :
    Given w (write w hasher data) (written ++ data) := by
  unfold Given at h ⊢
  rw [view_write, h.1, Chunks.feed_feed 64 _ (by omega), bytes_write, h.2, List.length_append,
    UInt64.ofNat_add]
  exact ⟨rfl, rfl⟩

theorem given_foldl_write (hasher : Object) (written : Bytes) (datas : List Bytes)
    (h : Given w hasher written) :
    Given w (datas.foldl (write w) hasher) (written ++ datas.flatten) := by
  induction datas generalizing hasher written with
  | nil => rwa [List.flatten_nil, List.append_nil]
  | cons data rest ih =>
      rw [List.flatten_cons, ← List.append_assoc]
      exact ih _ _ (given_write w hasher written data h)

/-- The padding and the size are the padding of the standard. -/
theorem finalize_of_given (hasher : Object) (written : Bytes) (h : Given w hasher written) :
    (finalize w hasher).2 = Fips180.sha256 written := by
  have hsize : hasher.bytes.toNat % 64 = written.length % 64 := by
    rw [h.2, UInt64.toNat_ofNat']
    omega
  have hpad : ((0x80 : UInt8) :: List.replicate 63 0).take
      (1 + (119 - hasher.bytes.toNat % 64) % 64) ++ writeBE64 (hasher.bytes <<< 3) =
        Fips180.pad written.length := by
    unfold Fips180.pad
    rw [Nat.add_comm 1, List.take_succ_cons, List.take_replicate, hsize, h.2, writeBE64_bits,
      Nat.min_eq_left (by omega)]
  have hgiven := given_write w _ _ (writeBE64 (hasher.bytes <<< 3)) (given_write w hasher written
    (((0x80 : UInt8) :: List.replicate 63 0).take (1 + (119 - hasher.bytes.toNat % 64) % 64)) h)
  rw [List.append_assoc, hpad] at hgiven
  exact digest_of_absorb (transformInPlace w) (state_transformInPlace w) _ written _
    hgiven.1.symm

theorem given_new (buf : Vector UInt8 64) : Given w (new buf) [] :=
  ⟨(Chunks.feed_nil 64 _ (initialState, []) (show 0 < 64 by omega)).symm, rfl⟩

theorem given_reset (hasher : Object) : Given w hasher.reset [] :=
  given_new w hasher.buf

/-- Any sequence of writes, to a new object whatever its buffer holds and to
    any object that was reset. -/
theorem sha256_of_writes (datas : List Bytes) :
    (∀ buf, (finalize w (datas.foldl (write w) (new buf))).2 = Fips180.sha256 datas.flatten) ∧
    ∀ hasher : Object, (finalize w (datas.foldl (write w) hasher.reset)).2 =
      Fips180.sha256 datas.flatten :=
  ⟨fun buf => finalize_of_given w _ _ (given_foldl_write w _ [] datas (given_new w buf)),
    fun hasher => finalize_of_given w _ _ (given_foldl_write w _ [] datas (given_reset w hasher))⟩

/-- What is written once to a new object. -/
theorem finalize_write_new (buf : Vector UInt8 64) (input : Bytes) :
    (finalize w (write w (new buf) input)).2 = Fips180.sha256 input :=
  finalize_of_given w _ _ (given_write w _ [] input (given_new w buf))

theorem sha256_eq (buf : Vector UInt8 64) (input : Bytes) :
    sha256 w buf input = Fips180.sha256 input := by
  unfold sha256
  cases input with
  | nil => exact finalize_of_given w _ [] (given_new w buf)
  | cons b rest => exact finalize_write_new w buf (b :: rest)

end

end Object

theorem transformAll_eq (blocks : Nat) (s : Words) (data : Bytes) :
    transformAll blocks s data = Chunks.consume 64 transform blocks s data := by
  induction blocks generalizing s data with
  | zero => rfl
  | succ k ih => rw [transformAll, Chunks.consume, ih]

/-- The hasher of the block format, whose buffer has no stale bytes. -/
theorem write_eq_feed (hasher : CSha256) (data : Bytes) :
    ((hasher.write data).s, (hasher.write data).buf) =
      Chunks.feed 64 transform (hasher.s, hasher.buf) data := by
  unfold CSha256.write
  simp only [transformAll_eq]
  rfl

/-- Three writes to a new hasher. -/
theorem write_write_write (input pad size : Bytes) :
    ((((CSha256.new.write input).write pad).write size).s,
      (((CSha256.new.write input).write pad).write size).buf) =
        Chunks.absorb 64 transform initialState (input ++ (pad ++ size)) := by
  rw [write_eq_feed, write_eq_feed, write_eq_feed, Chunks.feed_feed 64 _ (by omega),
    Chunks.feed_feed 64 _ (by omega)]
  rfl

theorem finalize_write (input : Bytes) :
    (CSha256.new.write input).finalize = Fips180.sha256 input := by
  have hbytes : (CSha256.new.write input).bytes = UInt64.ofNat input.length :=
    UInt64.zero_add _
  have hsize : (UInt64.ofNat input.length).toNat % 64 = input.length % 64 := by
    rw [UInt64.toNat_ofNat']
    omega
  have hpad : (0x80 : UInt8) :: List.replicate ((119 - input.length % 64) % 64) 0 ++
      writeBE64 (UInt64.ofNat input.length <<< 3) = Fips180.pad input.length := by
    unfold Fips180.pad
    rw [writeBE64_bits]
  have hwrites := write_write_write input
    ((0x80 : UInt8) :: List.replicate ((119 - input.length % 64) % 64) 0)
    (writeBE64 (UInt64.ofNat input.length <<< 3))
  rw [hpad] at hwrites
  unfold CSha256.finalize
  simp only [hbytes, hsize]
  exact digest_of_absorb transform state_transform _ input _ hwrites.symm

/-- The double hash of the block format is double SHA-256 of the standard and
    what the two objects of the source compute, whatever their buffers held. -/
theorem doubleSha256_spec (w : Schedule) (buf buf' : Vector UInt8 64) (input : Bytes) :
    (doubleSha256 input).bytes = Fips180.sha256 (Fips180.sha256 input) ∧
      Object.doubleSha256 w buf buf' input = doubleSha256 input := by
  have hmodel : (MercaMiner.doubleSha256 input).bytes =
      Fips180.sha256 (Fips180.sha256 input) :=
    (finalize_write _).trans (congrArg Fips180.sha256 (finalize_write input))
  refine ⟨hmodel, UInt256.eq_of_bytes _ _ ?_⟩
  rw [hmodel]
  simp only [Object.doubleSha256, Object.finalize_write_new]

end Sha256

end MercaMiner
