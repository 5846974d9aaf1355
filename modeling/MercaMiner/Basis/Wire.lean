import MercaMiner.Basis.LittleEndian

/-!
# Wire Readers

Readers of a byte stream, and the transaction format of the Bitcoin family.

A reader takes the bytes ahead of it and gives back a value with what is left.
`Decodes` says a reader consumes exactly one encoding, whatever follows it;
that form composes, so a round trip for a record is assembled field by field
with `decodes_andThen` and never looks at the bytes again.

The transaction reader accepts both serializations. A zero where the input
count would stand is the marker of the extended one, and is followed by a flag
byte, the inputs and outputs, and then one stack of witness items for each
input.

## Main definitions

* `Reader`: A function consuming a front part of a byte string.
* `Decodes`: A reader consumes one encoding and nothing more.
* `compactSize`, `encodeCompactSize`: The variable-length integers.
* `Transaction`: The decoded form.
* `encodeLegacy`, `encodeExtended`: The two serializations.
* `Transaction.reader`: The reader of either.
* `Transaction.legacyReader`: The reader of the legacy form alone.

## Theorems

* `decodes_andThen`: Sequencing two readers concatenates their encodings.
* `decodes_of_prefix`: What a reader decodes is prefix-free.
* `decodes_many`: A counted repetition.
* `decodes_tag`: A tag byte decides what follows.
* `compactSize_decodes`: Variable-length integers are read back.
* `Transaction.legacyReader_decodes`: The legacy serialization is read back.
* `Transaction.reader_extended`: The extended serialization is read back.
-/

namespace Wire

/-- A reader consumes a front part of a byte string. -/
abbrev Reader (α : Type*) := List UInt8 → Option (α × List UInt8)

namespace Reader

variable {α β : Type*}

def ret (x : α) : Reader α := fun s => some (x, s)

def andThen (r : Reader α) (f : α → Reader β) : Reader β := fun s => match r s with
  | none => none
  | some (x, rest) => f x rest

def fail : Reader α := fun _ => none

/-- Run a reader a given number of times. -/
def many (item : Reader α) : Nat → Reader (List α)
  | 0 => ret []
  | n + 1 => andThen item fun x => andThen (many item n) fun xs => ret (x :: xs)

/-- The next `n` bytes. -/
def take (n : Nat) : Reader (List UInt8) := fun s =>
  if n ≤ s.length then some (s.take n, s.drop n) else none

/-- A fixed-width number. -/
def number (n : Nat) : Reader Nat := andThen (take n) fun s => ret (LittleEndian.value s)

end Reader

open Reader

variable {α β : Type*}

/-- A reader consumes exactly this encoding of a value, whatever follows. -/
def Decodes (r : Reader α) (enc : List UInt8) (x : α) : Prop :=
  ∀ rest, r (enc ++ rest) = some (x, rest)

theorem decodes_ret (x : α) : Decodes (Reader.ret x) [] x := fun _ => rfl

theorem decodes_andThen (r : Reader α) (f : α → Reader β) (enc enc' : List UInt8) (x : α) (y : β)
    (hr : Decodes r enc x) (hf : Decodes (f x) enc' y) : Decodes (andThen r f) (enc ++ enc') y := by
  intro rest
  simp only [andThen, List.append_assoc, hr (enc' ++ rest)]
  exact hf rest

/-- A reader followed by a computation that reads nothing. -/
theorem decodes_map (r : Reader α) (f : α → β) (enc : List UInt8) (x : α)
    (hr : Decodes r enc x) : Decodes (andThen r fun x => Reader.ret (f x)) enc (f x) := by
  intro rest
  simp only [andThen, hr rest]
  rfl

/-- Encodings that one reader tells apart are not prefixes of each other. -/
theorem decodes_of_prefix (r : Reader α) (enc enc' : List UInt8) (x y : α)
    (hx : Decodes r enc x) (hy : Decodes r enc' y) (h : enc <+: enc') : x = y := by
  rcases h with ⟨rest, rfl⟩
  -- The reader stops after the shorter one and after the longer one.
  have hlong := hy []
  rw [List.append_nil, hx rest, Option.some.injEq, Prod.mk.injEq] at hlong
  exact hlong.1

theorem decodes_many (item : Reader α) (enc : α → List UInt8) (xs : List α)
    (hitem : ∀ x ∈ xs, Decodes item (enc x) x) :
    Decodes (many item xs.length) (xs.flatMap enc) xs := by
  induction xs with
  | nil => exact decodes_ret []
  | cons x xs ih =>
      have htail := ih fun y hy => hitem y (List.mem_cons_of_mem x hy)
      rw [List.flatMap_cons]
      exact decodes_andThen item _ _ _ x (x :: xs) (hitem x List.mem_cons_self)
        (decodes_map _ _ _ _ htail)

theorem take_decodes (s : List UInt8) : Decodes (take s.length) s s := by
  intro rest
  simp only [take, List.length_append, Nat.le_add_right, if_true, List.take_left', List.drop_left']

theorem number_decodes (n v : Nat) (h : v < 256 ^ n) :
    Decodes (number n) (LittleEndian.bytes n v) v := by
  have htake := take_decodes (LittleEndian.bytes n v)
  rw [LittleEndian.length_bytes] at htake
  have hmap := decodes_map (take n) LittleEndian.value _ _ htake
  rwa [LittleEndian.value_bytes, Nat.mod_eq_of_lt h] at hmap

/-- The variable-length integers: one byte below 253, else a tag byte and two,
    four or eight bytes. -/
def encodeCompactSize (n : Nat) : List UInt8 :=
  if n < 253 then LittleEndian.bytes 1 n
  else if n ≤ 0xffff then 253 :: LittleEndian.bytes 2 n
  else if n ≤ 0xffffffff then 254 :: LittleEndian.bytes 4 n
  else 255 :: LittleEndian.bytes 8 n

def compactSize : Reader Nat :=
  andThen (number 1) fun tag =>
    if tag < 253 then Reader.ret tag
    else if tag = 253 then number 2
    else if tag = 254 then number 4
    else number 8

/-- A tag byte is read and decides what follows. -/
theorem decodes_tag (f : Nat → Reader α) (tag : Nat) (tail : List UInt8) (x : α)
    (hlt : tag < 256) (htail : Decodes (f tag) tail x) :
    Decodes (andThen (number 1) f) (LittleEndian.bytes 1 tag ++ tail) x :=
  decodes_andThen (number 1) f _ tail tag x (number_decodes 1 tag (by omega)) htail

theorem compactSize_decodes (n : Nat) (h : n < 2 ^ 64) :
    Decodes compactSize (encodeCompactSize n) n := by
  -- One case for each width, told apart by the first byte.
  rw [encodeCompactSize]
  by_cases h1 : n < 253
  · rw [if_pos h1, ← List.append_nil (LittleEndian.bytes 1 n)]
    refine decodes_tag _ n [] n (by omega) ?_
    rw [if_pos h1]
    exact decodes_ret n
  · rw [if_neg h1]
    by_cases h2 : n ≤ 0xffff
    · rw [if_pos h2]
      exact decodes_tag _ 253 _ n (by omega) (number_decodes 2 n (by omega))
    · rw [if_neg h2]
      by_cases h4 : n ≤ 0xffffffff
      · rw [if_pos h4]
        exact decodes_tag _ 254 _ n (by omega) (number_decodes 4 n (by omega))
      · rw [if_neg h4]
        exact decodes_tag _ 255 _ n (by omega) (number_decodes 8 n (by omega))

/-- A byte string with its length in front. -/
def encodeVar (s : List UInt8) : List UInt8 :=
  encodeCompactSize s.length ++ s

def var : Reader (List UInt8) := andThen compactSize take

theorem var_decodes (s : List UInt8) (h : s.length < 2 ^ 64) : Decodes var (encodeVar s) s :=
  decodes_andThen compactSize take _ _ s.length s (compactSize_decodes _ h) (take_decodes s)

structure Input where
  prevHash : List UInt8
  prevIndex : Nat
  scriptSig : List UInt8
  sequence : Nat
  deriving DecidableEq

structure Output where
  amount : Nat
  script : List UInt8
  deriving DecidableEq

/-- A decoded transaction. The legacy form has no witness; the extended one
    has a stack of items for each input. -/
structure Transaction where
  version : Nat
  inputs : List Input
  outputs : List Output
  witness : List (List (List UInt8))
  lockTime : Nat
  deriving DecidableEq

namespace Input

def encode (i : Input) : List UInt8 :=
  i.prevHash ++ (LittleEndian.bytes 4 i.prevIndex ++
    (encodeVar i.scriptSig ++ LittleEndian.bytes 4 i.sequence))

def reader : Reader Input :=
  andThen (take 32) fun prevHash => andThen (number 4) fun prevIndex => andThen var fun scriptSig =>
    andThen (number 4) fun sequence => Reader.ret ⟨prevHash, prevIndex, scriptSig, sequence⟩

structure Valid (i : Input) : Prop where
  prevHash : i.prevHash.length = 32
  prevIndex : i.prevIndex < 256 ^ 4
  scriptSig : i.scriptSig.length < 2 ^ 64
  sequence : i.sequence < 256 ^ 4

theorem reader_decodes (i : Input) (h : i.Valid) : Decodes reader i.encode i := by
  have hhash := take_decodes i.prevHash
  rw [h.prevHash] at hhash
  exact decodes_andThen _ _ _ _ _ _ hhash
    (decodes_andThen _ _ _ _ _ _ (number_decodes 4 _ h.prevIndex)
      (decodes_andThen _ _ _ _ _ _ (var_decodes _ h.scriptSig)
        (decodes_map _ _ _ _ (number_decodes 4 _ h.sequence))))

end Input

namespace Output

def encode (o : Output) : List UInt8 :=
  LittleEndian.bytes 8 o.amount ++ encodeVar o.script

def reader : Reader Output :=
  andThen (number 8) fun amount => andThen var fun script => Reader.ret ⟨amount, script⟩

structure Valid (o : Output) : Prop where
  amount : o.amount < 256 ^ 8
  script : o.script.length < 2 ^ 64

theorem reader_decodes (o : Output) (h : o.Valid) : Decodes reader o.encode o :=
  decodes_andThen _ _ _ _ _ _ (number_decodes 8 _ h.amount)
    (decodes_map _ _ _ _ (var_decodes _ h.script))

end Output

/-- A list with its count in front. -/
def encodeList (enc : α → List UInt8) (xs : List α) : List UInt8 :=
  encodeCompactSize xs.length ++ xs.flatMap enc

def list (item : Reader α) : Reader (List α) := andThen compactSize (many item)

theorem list_decodes (item : Reader α) (enc : α → List UInt8) (xs : List α)
    (hlen : xs.length < 2 ^ 64) (hitem : ∀ x ∈ xs, Decodes item (enc x) x) :
    Decodes (list item) (encodeList enc xs) xs :=
  decodes_andThen compactSize (many item) _ _ xs.length xs (compactSize_decodes _ hlen)
    (decodes_many item enc xs hitem)

namespace Transaction

/-- The serialization without witness, which the transaction id hashes. -/
def encodeLegacy (t : Transaction) : List UInt8 :=
  LittleEndian.bytes 4 t.version ++ (encodeList Input.encode t.inputs ++
    (encodeList Output.encode t.outputs ++ LittleEndian.bytes 4 t.lockTime))

/-- The serialization with marker, flag and witness. -/
def encodeExtended (t : Transaction) : List UInt8 :=
  LittleEndian.bytes 4 t.version ++ (encodeCompactSize 0 ++ (LittleEndian.bytes 1 1 ++
    (encodeList Input.encode t.inputs ++ (encodeList Output.encode t.outputs ++
      (t.witness.flatMap (encodeList encodeVar) ++ LittleEndian.bytes 4 t.lockTime)))))

/-- The rest of a legacy transaction, its input count already read. -/
def legacyBody (version count : Nat) : Reader Transaction :=
  andThen (many Input.reader count) fun inputs => andThen (list Output.reader) fun outputs =>
    andThen (number 4) fun lockTime => Reader.ret ⟨version, inputs, outputs, [], lockTime⟩

/-- The rest of an extended transaction, its marker already read. -/
def extendedBody (version : Nat) : Reader Transaction :=
  andThen (number 1) fun flag => if flag ≠ 1 then fail else
    andThen (list Input.reader) fun inputs => andThen (list Output.reader) fun outputs =>
      andThen (many (list var) inputs.length) fun witness =>
        andThen (number 4) fun lockTime => Reader.ret ⟨version, inputs, outputs, witness, lockTime⟩

/-- Either serialization. -/
def reader : Reader Transaction :=
  andThen (number 4) fun version => andThen compactSize fun count =>
    if count = 0 then extendedBody version else legacyBody version count

/-- The legacy serialization alone, where a zero count means no inputs. -/
def legacyReader : Reader Transaction :=
  andThen (number 4) fun version => andThen compactSize fun count => legacyBody version count

/-- The field bounds both serializations need. -/
structure Valid (t : Transaction) : Prop where
  version : t.version < 256 ^ 4
  inputsLength : t.inputs.length < 2 ^ 64
  inputs : ∀ i ∈ t.inputs, i.Valid
  outputsLength : t.outputs.length < 2 ^ 64
  outputs : ∀ o ∈ t.outputs, o.Valid
  lockTime : t.lockTime < 256 ^ 4

theorem legacyBody_decodes (t : Transaction) (h : t.Valid) :
    Decodes (legacyBody t.version t.inputs.length)
      (t.inputs.flatMap Input.encode ++ (encodeList Output.encode t.outputs ++
        LittleEndian.bytes 4 t.lockTime)) ⟨t.version, t.inputs, t.outputs, [], t.lockTime⟩ :=
  decodes_andThen _ _ _ _ _ _
    (decodes_many _ _ _ fun i hi => Input.reader_decodes i (h.inputs i hi))
    (decodes_andThen _ _ _ _ _ _
      (list_decodes _ _ _ h.outputsLength fun o ho => Output.reader_decodes o (h.outputs o ho))
      (decodes_map _ _ _ _ (number_decodes 4 _ h.lockTime)))

/-- The legacy serialization is read back, without the witness. -/
theorem legacyReader_decodes (t : Transaction) (h : t.Valid) :
    Decodes legacyReader t.encodeLegacy { t with witness := [] } := by
  rw [encodeLegacy, encodeList, List.append_assoc]
  exact decodes_andThen _ _ _ _ _ _ (number_decodes 4 _ h.version)
    (decodes_andThen _ _ _ _ _ _ (compactSize_decodes _ h.inputsLength) (legacyBody_decodes t h))

/-- The extended serialization is read back when there is one witness stack
    for each input. -/
theorem reader_extended (t : Transaction) (h : t.Valid)
    (hlen : t.witness.length = t.inputs.length)
    (hstack : ∀ stack ∈ t.witness, stack.length < 2 ^ 64)
    (hitem : ∀ stack ∈ t.witness, ∀ item ∈ stack, item.length < 2 ^ 64) :
    Decodes reader t.encodeExtended t := by
  -- As many stacks are read as there were inputs.
  have hwitness : Decodes (many (list var) t.inputs.length)
      (t.witness.flatMap (encodeList encodeVar)) t.witness := by
    rw [← hlen]
    exact decodes_many _ _ _ fun stack hs =>
      list_decodes _ _ _ (hstack stack hs) fun item hi => var_decodes _ (hitem stack hs item hi)
  refine decodes_andThen _ _ _ _ _ _ (number_decodes 4 _ h.version)
    (decodes_andThen _ _ _ _ _ _ (compactSize_decodes 0 (by omega)) ?_)
  rw [if_pos rfl]
  refine decodes_andThen _ _ _ _ _ _ (number_decodes 1 1 (by omega)) ?_
  rw [if_neg (by omega)]
  exact decodes_andThen _ _ _ _ _ _
    (list_decodes _ _ _ h.inputsLength fun i hi => Input.reader_decodes i (h.inputs i hi))
    (decodes_andThen _ _ _ _ _ _
      (list_decodes _ _ _ h.outputsLength fun o ho => Output.reader_decodes o (h.outputs o ho))
      (decodes_andThen _ _ _ _ _ _ hwitness
        (decodes_map _ _ _ _ (number_decodes 4 _ h.lockTime))))

end Transaction

end Wire
