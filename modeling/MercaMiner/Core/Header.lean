import MercaMiner.Core.Serialization

/-!
# Block Headers

The 80-byte header, from `header.cpp`.

The serializer fills six fields at fixed offsets, so its output is their
concatenation. `BlockHeader.reader` reads a header back, and
`serialize_decodes` says it recovers every field.

## Main definitions

* `BlockHeader`: The six fields.
* `serialize`: The 80-byte form.
* `BlockHeader.reader`: The reader of that form.

## Theorems

* `length_serialize`: A serialized header has 80 bytes.
* `serialize_decodes`: A serialized header is read back.
* `serialize_inj`: Serialization forgets nothing.
-/

namespace MercaMiner

structure BlockHeader where
  version : Int32
  previousBlock : UInt256
  merkleRoot : UInt256
  time : UInt32
  bits : UInt32
  nonce : UInt32
  deriving DecidableEq

namespace BlockHeader

def serializedSize : Nat := 80

/-- Four bytes, least significant first. -/
def writeLE32 (value : UInt32) : Bytes :=
  [value.toUInt8, (value >>> 8).toUInt8, (value >>> 16).toUInt8, (value >>> 24).toUInt8]

/-- The fields at offsets 0, 4, 36, 68, 72 and 76. -/
def serialize (h : BlockHeader) : Bytes :=
  writeLE32 h.version.toUInt32 ++ (h.previousBlock.bytes ++ (h.merkleRoot.bytes ++
    (writeLE32 h.time ++ (writeLE32 h.bits ++ writeLE32 h.nonce))))

theorem writeLE32_eq (value : UInt32) : writeLE32 value = LittleEndian.bytes 4 value.toNat := by
  have h := appendLE32_eq [] value
  simpa only [appendLE32, List.nil_append, writeLE32] using h

theorem length_writeLE32 (value : UInt32) : (writeLE32 value).length = 4 := rfl

theorem length_serialize (h : BlockHeader) : h.serialize.length = serializedSize := by
  simp only [serialize, List.length_append, length_writeLE32, h.previousBlock.size_eq,
    h.merkleRoot.size_eq, serializedSize]

/-- Everything before the nonce. -/
def serializeFront (h : BlockHeader) : Bytes :=
  writeLE32 h.version.toUInt32 ++ (h.previousBlock.bytes ++ (h.merkleRoot.bytes ++
    (writeLE32 h.time ++ writeLE32 h.bits)))

theorem length_serializeFront (h : BlockHeader) : h.serializeFront.length = 76 := by
  simp only [serializeFront, List.length_append, length_writeLE32, h.previousBlock.size_eq,
    h.merkleRoot.size_eq]

/-- The nonce is the last four bytes and nothing else depends on it. -/
theorem serialize_nonce (h : BlockHeader) (nonce : UInt32) :
    serialize { h with nonce := nonce } = h.serializeFront ++ writeLE32 nonce := by
  simp only [serialize, serializeFront, List.append_assoc]

open Wire Wire.Reader in
/-- A 32-byte number. -/
def hashReader : Reader UInt256 := fun s =>
  if h : 32 ≤ s.length then some (⟨s.take 32, List.length_take_of_le h⟩, s.drop 32) else none

open Wire Wire.Reader in
/-- A header, field by field. -/
def reader : Reader BlockHeader :=
  andThen (number 4) fun version => andThen hashReader fun previousBlock =>
    andThen hashReader fun merkleRoot => andThen (number 4) fun time =>
      andThen (number 4) fun bits => andThen (number 4) fun nonce =>
        ret ⟨(UInt32.ofNat version).toInt32, previousBlock, merkleRoot, UInt32.ofNat time,
          UInt32.ofNat bits, UInt32.ofNat nonce⟩

theorem hashReader_decodes (x : UInt256) : Wire.Decodes hashReader x.bytes x := by
  intro rest
  have hlen : 32 ≤ (x.bytes ++ rest).length := by
    rw [List.length_append, x.size_eq]
    omega
  have htake : (x.bytes ++ rest).take 32 = x.bytes := List.take_left' x.size_eq
  have hdrop : (x.bytes ++ rest).drop 32 = rest := List.drop_left' x.size_eq
  simp only [hashReader, dif_pos hlen, htake, hdrop]

theorem writeLE32_decodes (value : UInt32) :
    Wire.Decodes (Wire.Reader.number 4) (writeLE32 value) value.toNat := by
  rw [writeLE32_eq]
  exact Wire.number_decodes 4 _ value.toNat_lt

theorem serialize_decodes (h : BlockHeader) : Wire.Decodes reader h.serialize h := by
  have hread : Wire.Decodes reader h.serialize
      ⟨(UInt32.ofNat h.version.toUInt32.toNat).toInt32, h.previousBlock, h.merkleRoot,
        UInt32.ofNat h.time.toNat, UInt32.ofNat h.bits.toNat, UInt32.ofNat h.nonce.toNat⟩ :=
    Wire.decodes_andThen _ _ _ _ _ _ (writeLE32_decodes h.version.toUInt32)
      (Wire.decodes_andThen _ _ _ _ _ _ (hashReader_decodes h.previousBlock)
        (Wire.decodes_andThen _ _ _ _ _ _ (hashReader_decodes h.merkleRoot)
          (Wire.decodes_andThen _ _ _ _ _ _ (writeLE32_decodes h.time)
            (Wire.decodes_andThen _ _ _ _ _ _ (writeLE32_decodes h.bits)
              (Wire.decodes_map _ _ _ _ (writeLE32_decodes h.nonce))))))
  simp only [UInt32.ofNat_toNat, Int32.toInt32_toUInt32] at hread
  exact hread

theorem serialize_inj (h g : BlockHeader) (heq : h.serialize = g.serialize) : h = g := by
  have hh := serialize_decodes h []
  have hg := serialize_decodes g []
  rw [heq, hg] at hh
  simpa only [Option.some.injEq, Prod.mk.injEq, and_true] using hh.symm

end BlockHeader

end MercaMiner
