import MercaMiner.Basis.HexNumber
import MercaMiner.Theory.PayoutScript
import MercaMiner.Theory.SubmissionSafety
import MercaMiner.Theory.TemplateSafety

/-!
# The Hexadecimal Readers Agree

Every reader of hexadecimal text in the program, and the writer that undoes
them.

The template parser tests a text, the block builder decodes it again, and
payout scripts, hashes and targets are read by loops of their own. Each is
compared with the library's `Hex.decode`, so a text one of them accepts means
the same to the others. The submission writer fills a text of the right length
place by place; after `k` rounds it holds the text of the first `k` bytes, and
at the end what the builder reads back.

## Main definitions

* `bigEndianValue`: The number a byte string denotes, first byte most
  significant.

## Theorems

* `digits_agree`: The digit tables agree on every character.
* `hex_eq`: What the submission writer writes.
* `parseBitsHex_iff`: Which texts of eight digits are read, and as what.
* `hex_readers_agree`: The readers and the writer agree.
-/

namespace MercaMiner

/-- A round fills the two places behind those that are filled. -/
theorem hexStep_append (bytes : Bytes) (k : Nat) (hk : k < bytes.length) (filled rest : Text)
    (hlen : filled.length = 2 * k) :
    hexStep bytes (filled ++ 0 :: 0 :: rest) k = filled ++ Hex.encode [bytes[k]] ++ rest := by
  have hbyte : bytes.getD k 0 = bytes[k] := by
    rw [List.getD_eq_getElem?_getD, List.getElem?_eq_getElem hk, Option.getD_some]
  unfold hexStep
  rw [hbyte]
  simp only [List.set_append_right _ _ (Nat.le_of_eq hlen), hlen, Nat.sub_self, List.set_cons_zero]
  rw [List.set_append_right _ _ (by omega), hlen, Nat.add_sub_cancel_left, List.set_cons_succ,
    List.set_cons_zero, List.append_assoc]
  rfl

/-- After `k` rounds the text of the first `k` bytes is there and the rest of
    the buffer is as it was. -/
theorem hexLoop_eq (bytes : Bytes) (k : Nat) (h : k ≤ bytes.length) :
    (List.range k).foldl (hexStep bytes) (List.replicate (bytes.length * 2) 0) =
      Hex.encode (bytes.take k) ++ List.replicate (2 * (bytes.length - k)) 0 := by
  induction k with
  | zero =>
      rw [List.range_zero, List.foldl_nil, List.take_zero, Hex.encode, List.nil_append,
        Nat.sub_zero, Nat.mul_comm]
  | succ k ih =>
      have hk : k < bytes.length := h
      have hlen : (Hex.encode (bytes.take k)).length = 2 * k := by
        rw [Hex.length_encode, List.length_take, Nat.min_eq_left (Nat.le_of_lt hk)]
      -- The next two places are the first two of those not yet filled.
      have hrest : List.replicate (2 * (bytes.length - k)) (0 : UInt8) =
          0 :: 0 :: List.replicate (2 * (bytes.length - (k + 1))) 0 := by
        rw [← List.replicate_succ, ← List.replicate_succ]
        congr 1
        omega
      rw [List.range_succ, List.foldl_append, ih (Nat.le_of_lt hk), List.foldl_cons,
        List.foldl_nil, hrest, hexStep_append bytes k hk _ _ hlen, ← Hex.encode_append,
        List.take_append_getElem hk]

/-- The submission writer writes the library's text. -/
theorem hex_eq (bytes : Bytes) : hex bytes = Hex.encode bytes := by
  unfold hex
  rw [hexLoop_eq bytes bytes.length (Nat.le_refl _), List.take_length, Nat.sub_self, Nat.mul_zero,
    List.replicate_zero, List.append_nil]

/-- The block is submitted as the text the writer writes. -/
theorem request_hex (args : SubmitArguments) :
    SubmitPc.request args .callSubmit =
      some (.submitBlock (hex args.candidate.serializedBlock)) := by
  rw [hex_eq]
  rfl

/-- The five digit tables agree on every character. -/
theorem digits_agree (c : UInt8) (field : String) (d : UInt8) :
    (isHexDigit c = true ↔ ∃ d, hexDigitOf c field = .ok d) ∧
    (payoutHexDigit c = .ok d ↔ hexDigitOf c field = .ok d) ∧
    (hexDigit c = (d.toNat : Int) ↔ hexDigitOf c field = .ok d) ∧
    (hexDigit c < 0 ↔ isHexDigit c = false) := by
  rw [hexDigitOf_ok, payoutHexDigit_ok, isHexDigit_eq, UInt256.hexDigit_eq]
  simp only [hexDigitOf_ok]
  cases Hex.digit c with
  | none =>
      change (false = true ↔ ∃ d : UInt8, none = some d) ∧ _ ∧ ((-1 : Int) = d.toNat ↔ _) ∧ _
      refine ⟨by simp only [Bool.false_eq_true, reduceCtorEq, exists_false], trivial, ?_,
        iff_of_true (by decide) rfl⟩
      exact iff_of_false (by omega) (by simp only [reduceCtorEq, not_false_eq_true])
  | some x =>
      change _ ∧ _ ∧ ((x.toNat : Int) = d.toNat ↔ _) ∧ ((x.toNat : Int) < 0 ↔ true = false)
      refine ⟨iff_of_true rfl ⟨x, rfl⟩, trivial, ?_, ?_⟩
      · rw [Option.some.injEq, Int.natCast_inj, UInt8.toNat_inj]
      · exact iff_of_false (by omega) (by simp only [Bool.true_eq_false, not_false_eq_true])

/-- The number a byte string denotes, its first byte most significant. -/
def bigEndianValue (b : Bytes) : Nat :=
  LittleEndian.value b.reverse

/-- The texts the template parser lets through are those the builder decodes. -/
theorem isEvenHex_iff (s : Text) :
    isEvenHex s = true ↔ s ≠ [] ∧ (Hex.decode s).isSome := by
  rw [Hex.decode_isSome]
  simp only [isEvenHex, Bool.and_eq_true, Bool.not_eq_true', beq_iff_eq, List.all_eq_true,
    List.isEmpty_eq_false_iff, isHexDigit_eq, and_assoc, ne_eq]

/-- The digit loop comes to its end when it is given digits only. -/
theorem parseBitsLoop_total (s : Text) (value : UInt32) (h : ∀ c ∈ s, (Hex.digit c).isSome) :
    ∃ n, parseBitsLoop s value = some n := by
  induction s generalizing value with
  | nil => exact ⟨value, rfl⟩
  | cons c rest ih =>
      rw [List.forall_mem_cons] at h
      rcases Option.isSome_iff_exists.mp h.1 with ⟨d, hd⟩
      have hpos : ¬(d.toNat : Int) < 0 := not_lt.mpr (Int.natCast_nonneg _)
      simp only [parseBitsLoop, UInt256.hexDigit_eq, hd, if_neg hpos]
      exact ih _ h.2

theorem parseBitsHex_iff (s : Text) (n : UInt32) :
    parseBitsHex s = some n ↔
      s.length = 8 ∧ ∃ b, Hex.decode s = some b ∧ n.toNat = bigEndianValue b := by
  constructor
  · intro h
    rcases parseBitsHex_ok s n h with ⟨hlen, hdigits, hn⟩
    have hsome : (Hex.decode s).isSome := (Hex.decode_isSome s).mpr ⟨by omega, hdigits⟩
    rcases Option.isSome_iff_exists.mp hsome with ⟨b, hb⟩
    exact ⟨hlen, b, hb, by rw [hn, Hex.number_decode s b hb]; rfl⟩
  · intro h
    rcases h with ⟨hlen, b, hb, hn⟩
    have hdigits := ((Hex.decode_isSome s).mp (by rw [hb]; rfl)).2
    rcases parseBitsLoop_total s 0 hdigits with ⟨m, hm⟩
    have hread : parseBitsHex s = some m := by
      unfold parseBitsHex
      rw [if_neg (not_not.mpr hlen), hm]
    -- Both are the number the text denotes.
    have hvalue : m.toNat = n.toNat := by
      rw [(parseBitsHex_ok s m hread).2.2, hn, Hex.number_decode s b hb]
      rfl
    rw [hread, UInt32.toNat_inj.mp hvalue]

/-- What a hash reads back as is known once the builder has decoded it. -/
theorem fromHexBE_decode (s : Text) (b : Bytes) (hlen : s.length = 64)
    (h : Hex.decode s = some b) : ∃ x, UInt256.fromHexBE s = some x ∧ x.bytes = b.reverse := by
  have hsize := Hex.length_decode s b h
  refine ⟨⟨b.reverse, by rw [List.length_reverse]; omega⟩, ?_, rfl⟩
  rw [UInt256.fromHexBE_iff, List.reverse_reverse]
  exact ⟨hlen, h⟩

theorem parseBitsHex_decode (s : Text) (b : Bytes) (hlen : s.length = 8)
    (h : Hex.decode s = some b) : ∃ n, parseBitsHex s = some n ∧ n.toNat = bigEndianValue b := by
  have hsize := Hex.length_decode s b h
  have hvalue := LittleEndian.value_lt b.reverse
  rw [List.length_reverse, show b.length = 4 by omega] at hvalue
  have hn : (UInt32.ofNat (bigEndianValue b)).toNat = bigEndianValue b := by
    rw [UInt32.toNat_ofNat']
    exact Nat.mod_eq_of_lt hvalue
  exact ⟨_, (parseBitsHex_iff s _).mpr ⟨hlen, b, h, hn⟩, hn⟩

/-- For every text: the parser's test is the builder's success on the
    non-empty texts; the readers of payout fields, hashes and targets succeed
    exactly when the builder does, with the same bytes, the reversed bytes and
    their big-endian value; and the submission writer and the builder undo each
    other up to the case of the letters. -/
theorem hex_readers_agree (s : Text) (field : String) :
    (isEvenHex s = true ↔ s ≠ [] ∧ ∃ b, decodeHex s field = .ok b) ∧
    (∀ n member, s.length = 2 * n →
      ∀ b, parseExactHex (.string s) n member = .ok b ↔ decodeHex s field = .ok b) ∧
    (s.length = 64 →
      ((∃ x, UInt256.fromHexBE s = some x) ↔ ∃ b, decodeHex s field = .ok b) ∧
      ∀ x b, UInt256.fromHexBE s = some x → decodeHex s field = .ok b → x.bytes = b.reverse) ∧
    (s.length = 8 →
      ((∃ n, parseBitsHex s = some n) ↔ ∃ b, decodeHex s field = .ok b) ∧
      ∀ n b, parseBitsHex s = some n → decodeHex s field = .ok b →
        n.toNat = bigEndianValue b) ∧
    (∀ b, decodeHex (hex b) field = .ok b) ∧
    ∀ b, decodeHex s field = .ok b → hex b = s.map Hex.lower := by
  simp only [decodeHex_ok, hex_eq]
  refine ⟨?_, ?_, ?_, ?_, Hex.decode_encode, Hex.encode_decode s⟩
  · rw [isEvenHex_iff, Option.isSome_iff_exists]
  · intro n member hlen b
    rw [parseExactHex_ok]
    constructor
    · intro h
      rcases h with ⟨found, hfound, _, hb⟩
      rw [Json.string.injEq] at hfound
      rwa [hfound]
    · intro hb
      exact ⟨s, rfl, by omega, hb⟩
  · intro hlen
    refine ⟨⟨?_, ?_⟩, ?_⟩
    · intro h
      rcases h with ⟨x, hx⟩
      exact ⟨x.bytes.reverse, ((UInt256.fromHexBE_iff s x).mp hx).2⟩
    · intro h
      rcases h with ⟨b, hb⟩
      rcases fromHexBE_decode s b hlen hb with ⟨x, hx, _⟩
      exact ⟨x, hx⟩
    · intro x b hx hb
      have hread := ((UInt256.fromHexBE_iff s x).mp hx).2
      rw [hb, Option.some.injEq] at hread
      rw [hread, List.reverse_reverse]
  · intro hlen
    refine ⟨⟨?_, ?_⟩, ?_⟩
    · intro h
      rcases h with ⟨n, hn⟩
      rcases (parseBitsHex_iff s n).mp hn with ⟨_, b, hb, _⟩
      exact ⟨b, hb⟩
    · intro h
      rcases h with ⟨b, hb⟩
      rcases parseBitsHex_decode s b hlen hb with ⟨n, hn, _⟩
      exact ⟨n, hn⟩
    · intro n b hn hb
      rcases (parseBitsHex_iff s n).mp hn with ⟨_, read, hread, hvalue⟩
      rw [hb, Option.some.injEq] at hread
      rw [hvalue, hread]

end MercaMiner
