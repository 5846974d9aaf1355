import MercaMiner.Basis.CompactSize
import MercaMiner.Core.Serialization

/-!
# Variable-Length Integers are Canonical

What the variable-length writer appends can be read back, in one way only.

The writer narrows its value into the shortest form that holds it, so a reader
that insists on the shortest form accepts it, and no encoding is the beginning
of another. Script lengths and transaction counts are found in a block that
way, without any separator.

## Main definitions

* `compactSizeBytes`: The bytes appended for a number.

## Theorems

* `appendCompactSize_append`: What was in the buffer stays in front.
* `compactSize_canonical`: The encoding is read back, is the shortest, and is
  no beginning of another.
-/

namespace MercaMiner

/-- The bytes appended for a number, to an empty buffer. -/
def compactSizeBytes (value : UInt64) : Bytes :=
  appendCompactSize [] value

theorem compactSizeBytes_eq (value : UInt64) :
    compactSizeBytes value = Wire.encodeCompactSize value.toNat := by
  unfold compactSizeBytes
  rw [appendCompactSize_eq, List.nil_append]

/-- The bytes already in the buffer stay, and do not matter. -/
theorem appendCompactSize_append (out : Bytes) (value : UInt64) :
    appendCompactSize out value = out ++ compactSizeBytes value := by
  rw [appendCompactSize_eq, compactSizeBytes_eq]

theorem compactSizeBytes_decodes (value : UInt64) :
    Wire.Decodes Wire.compactSize (compactSizeBytes value) value.toNat := by
  rw [compactSizeBytes_eq]
  exact Wire.compactSize_decodes value.toNat value.toNat_lt

theorem compactSizeBytes_strict (value : UInt64) :
    Wire.Decodes Wire.strictCompactSize (compactSizeBytes value) value.toNat := by
  intro rest
  rw [compactSizeBytes_eq]
  exact (Wire.strictCompactSize_iff _ rest value.toNat).mpr ⟨value.toNat_lt, rfl⟩

theorem compactSizeBytes_prefix (value value' : UInt64)
    (h : compactSizeBytes value <+: compactSizeBytes value') : value = value' := by
  have heq := Wire.decodes_of_prefix Wire.compactSize _ _ _ _ (compactSizeBytes_decodes value)
    (compactSizeBytes_decodes value') h
  exact UInt64.toNat_inj.mp heq

/-- Whatever is in the buffer and whatever follows, the number is read back
    and the rest is left. Of the forms that hold the number the encoding is the
    only shortest, so the strict reader accepts it and none of the others, and
    it is no beginning of another number's encoding. -/
theorem compactSize_canonical (out rest : Bytes) (n : UInt64) :
    appendCompactSize out n = out ++ compactSizeBytes n ∧
    Wire.compactSize (compactSizeBytes n ++ rest) = some (n.toNat, rest) ∧
    Wire.strictCompactSize (compactSizeBytes n ++ rest) = some (n.toNat, rest) ∧
    (∃ f : Wire.CompactForm, f.Holds n.toNat ∧ compactSizeBytes n = f.encode n.toNat ∧
      ∀ f' : Wire.CompactForm, f'.Holds n.toNat → f' ≠ f →
        (compactSizeBytes n).length < (f'.encode n.toNat).length ∧
        Wire.compactSize (f'.encode n.toNat ++ rest) = some (n.toNat, rest) ∧
        Wire.strictCompactSize (f'.encode n.toNat ++ rest) = none) ∧
    ∀ m : UInt64, compactSizeBytes n <+: compactSizeBytes m → n = m := by
  refine ⟨appendCompactSize_append out n, compactSizeBytes_decodes n rest,
    compactSizeBytes_strict n rest, ?_, compactSizeBytes_prefix n⟩
  have hform : compactSizeBytes n = (Wire.shortest n.toNat).encode n.toNat := by
    rw [compactSizeBytes_eq, Wire.encodeCompactSize_form]
  refine ⟨Wire.shortest n.toNat, (Wire.shortest_spec n.toNat n.toNat_lt).2, hform, ?_⟩
  intro f' hf' hne
  refine ⟨?_, Wire.compactSize_form f' n.toNat hf' rest,
    Wire.strictCompactSize_longer n.toNat n.toNat_lt f' hf' hne rest⟩
  rw [hform, Wire.CompactForm.length_encode, Wire.CompactForm.length_encode]
  exact Wire.width_shortest_lt n.toNat n.toNat_lt f' hf' hne

-- The largest number of each form.
example : compactSizeBytes 252 = [0xfc] ∧ compactSizeBytes 65535 = [0xfd, 0xff, 0xff] ∧
    compactSizeBytes 0xffffffff = [0xfe, 0xff, 0xff, 0xff, 0xff] := by decide

end MercaMiner
