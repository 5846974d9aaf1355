import MercaMiner.Core.Coinbase

/-!
# Height Prefixes

The push that starts a coinbase script, for every height a template can have.

The builder's push is the library's push of the height, so the properties here
are those of script numbers: the payload is the shortest one that denotes the
height, a reader takes the push off the front of any script, and therefore no
push is a prefix of another one.

## Main definitions

* `DirectPush`: A push by length whose payload is minimal.

## Theorems

* `push_directPush`: Larger heights are pushed that way.
* `height_prefix_exact`: Minimal, self-delimiting, invertible and prefix-free.
-/

namespace MercaMiner

/-- A length byte and a payload of that many bytes, which denotes the number,
    does not have its sign set and is not longer than any other payload that
    denotes it. -/
structure DirectPush (n : Nat) (bytes payload : Bytes) : Prop where
  bytes_eq : bytes = UInt8.ofNat payload.length :: payload
  nonempty : 1 ≤ payload.length
  direct : payload.length ≤ 75
  denotes : ScriptNum.value payload = n
  unsigned : ∀ top, payload.getLast? = some top → top.toNat < 128
  minimal : ∀ other, ScriptNum.value other = n → payload.length ≤ other.length

theorem push_directPush (n : Nat) (h : 16 < n) (hlt : n < 256 ^ 74) :
    DirectPush n (ScriptNum.push n) (ScriptNum.encode n) := by
  have hlen := ScriptNum.length_encode n
  have hdigits := ScriptNum.length_digits_le n 74 hlt
  exact {
    bytes_eq := by rw [ScriptNum.push, if_neg (Nat.not_le.mpr h)]
    nonempty := ScriptNum.length_encode_pos n (by omega)
    direct := by omega
    denotes := ScriptNum.value_encode n
    unsigned := ScriptNum.encode_top n
    minimal := ScriptNum.encode_minimal n }

/-- The push of a 32-bit height is read back. -/
theorem height_decodes (height : UInt32) (hz : height ≠ 0) :
    Wire.Decodes ScriptNum.pushReader (ScriptNum.push height.toNat) height.toNat := by
  have hpos : 0 < height.toNat := Nat.pos_of_ne_zero fun h => hz (UInt32.toNat_inj.mp h)
  refine ScriptNum.push_decodes height.toNat hpos ?_
  exact lt_of_lt_of_le height.toNat_lt (by norm_num)

/-- Heights and their prefixes. A prefix exists for every height but zero. It
    is the opcode of a height up to sixteen and a minimal direct push of any
    other, it is read back from the front of any script, and it is a prefix of
    no other height's. -/
theorem height_prefix_exact (height : UInt32) :
    ((∃ e, buildBip34HeightPrefix height = .error e) ↔ height = 0) ∧
    ∀ heightPush, buildBip34HeightPrefix height = .ok heightPush →
      (height.toNat ≤ 16 → heightPush = [UInt8.ofNat (0x50 + height.toNat)]) ∧
      (16 < height.toNat → ∃ payload, DirectPush height.toNat heightPush payload) ∧
      (∀ rest, ScriptNum.pushReader (heightPush ++ rest) = some (height.toNat, rest)) ∧
      ∀ other otherPush, buildBip34HeightPrefix other = .ok otherPush → heightPush <+: otherPush →
        other = height := by
  have hzero : buildBip34HeightPrefix 0 = .error .heightZero := rfl
  by_cases hz : height = 0
  · rw [hz, hzero]
    refine ⟨iff_of_true ⟨_, rfl⟩ rfl, fun heightPush h => ?_⟩
    exact absurd h (by simp only [reduceCtorEq, not_false_eq_true])
  rw [buildBip34HeightPrefix_eq height hz]
  refine ⟨iff_of_false (fun ⟨e, h⟩ => ?_) hz, fun heightPush h => ?_⟩
  · exact absurd h (by simp only [reduceCtorEq, not_false_eq_true])
  rw [Except.ok.injEq] at h
  subst h
  refine ⟨fun hsmall => by rw [ScriptNum.push, if_pos hsmall], fun hlarge => ?_,
    height_decodes height hz, fun other otherPush hother hprefix => ?_⟩
  · exact ⟨_, push_directPush height.toNat hlarge (lt_of_lt_of_le height.toNat_lt (by norm_num))⟩
  · -- The other height is positive as well, and one reader reads both.
    by_cases hother0 : other = 0
    · rw [hother0, hzero] at hother
      exact absurd hother (by simp only [reduceCtorEq, not_false_eq_true])
    rw [buildBip34HeightPrefix_eq other hother0, Except.ok.injEq] at hother
    rw [← hother] at hprefix
    have hsame := Wire.decodes_of_prefix _ _ _ _ _ (height_decodes height hz)
      (height_decodes other hother0) hprefix
    exact (UInt32.toNat_inj.mp hsame).symm

/-- Three payload bytes, because two would be a negative number. -/
example : buildBip34HeightPrefix 32768 = .ok [0x03, 0x00, 0x80, 0x00] := by decide +kernel

end MercaMiner
