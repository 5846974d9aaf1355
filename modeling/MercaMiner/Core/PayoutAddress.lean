import MercaMiner.Basis.Outcome
import MercaMiner.Core.Json

/-!
# Payout Addresses

Reading the node's answer to `validateaddress`, from `payout_address.cpp`.

The answer must call the address valid, a witness address and of version 2,
and give its program and its script as hexadecimal text. The script is read on
its own and compared with the program byte by byte.

What can go wrong beside the exception of this code is kept apart: a JSON
conversion of a value of the wrong type throws one of the library's own, and
reading past the end of a vector has no defined result.

## Main definitions

* `PayoutFailure`: How the reading can fail.
* `parseExactHex`: A text field of exactly so many bytes.
* `parsePayoutAddressResponse`: The whole answer.
-/

namespace MercaMiner

open Outcome

/-- A `PayoutAddressException` with its text, the JSON library's type error, or
    a read past the end of a vector. -/
inductive PayoutFailure where
  | payoutAddress (what : Text)
  | typeError
  | outOfBounds
  deriving DecidableEq

def throwPayout {α : Type} (what : String) : Except PayoutFailure α :=
  .error (.payoutAddress (text what))

/-- A conversion of a JSON value. -/
def orTypeError {α : Type} : Option α → Except PayoutFailure α
  | none => .error .typeError
  | some x => .ok x

/-- Indexing a vector. -/
def byteAt (b : Bytes) (i : Nat) : Except PayoutFailure UInt8 :=
  match b[i]? with
  | none => .error .outOfBounds
  | some x => .ok x

/-- The digit table of this file, which throws. -/
def payoutHexDigit (c : UInt8) : Except PayoutFailure UInt8 :=
  match Hex.digit c with
  | none => throwPayout "validateaddress returned invalid hexadecimal data"
  | some d => .ok d

/-- The loop over pairs of digits. -/
def parseExactHexLoop : Text → Except PayoutFailure Bytes
  | h :: l :: rest => do
      let high ← payoutHexDigit h
      let low ← payoutHexDigit l
      let tail ← parseExactHexLoop rest
      return ((high <<< 4) ||| low) :: tail
  | _ => return []

def parseExactHex (value : Json) (expectedBytes : Nat) (field : String) :
    Except PayoutFailure Bytes := do
  check (value.isString = true)
    (.payoutAddress (text ("validateaddress field '" ++ field ++ "' is not a string")))
  let hex ← orTypeError value.getString
  check (hex.length = expectedBytes * 2)
    (.payoutAddress (text ("validateaddress field '" ++ field ++ "' has an unexpected length")))
  parseExactHexLoop hex

/-- The text about an address the node calls invalid, with the node's own
    reason when it gives one. -/
def invalidAddressText (error : Option Json) : Text :=
  match error with
  | some (.string reason) =>
      if reason.isEmpty then text "payout address is invalid"
      else text "payout address is invalid" ++ text ": " ++ reason
  | _ => text "payout address is invalid"

/-- The member `isvalid`. -/
def requireValid (result : Json) : Except PayoutFailure Unit :=
  match result.find "isvalid" with
  | none => throwPayout "validateaddress result is missing boolean isvalid"
  | some valid => do
      check (valid.isBoolean = true)
        (.payoutAddress (text "validateaddress result is missing boolean isvalid"))
      let isValid ← orTypeError valid.getBool
      check (isValid = true) (.payoutAddress (invalidAddressText (result.find "error")))

/-- The member `iswitness`. -/
def requireWitness (result : Json) : Except PayoutFailure Unit :=
  match result.find "iswitness" with
  | none => throwPayout "payout address is not a witness address"
  | some witness => do
      check (witness.isBoolean = true)
        (.payoutAddress (text "payout address is not a witness address"))
      let isWitness ← orTypeError witness.getBool
      check (isWitness = true) (.payoutAddress (text "payout address is not a witness address"))

/-- The member `witness_version`. -/
def requireVersion (result : Json) : Except PayoutFailure Unit :=
  match result.find "witness_version" with
  | none => throwPayout "payout address is not Mercatura PQ witness v2"
  | some version => do
      check ((version.isNumberInteger || version.isNumberUnsigned) = true)
        (.payoutAddress (text "payout address is not Mercatura PQ witness v2"))
      let number ← orTypeError version.getInt64
      check (number = 2) (.payoutAddress (text "payout address is not Mercatura PQ witness v2"))

/-- A hexadecimal member of an exact length. -/
def requireHex (result : Json) (name : String) (expectedBytes : Nat) :
    Except PayoutFailure Bytes :=
  match result.find name with
  | none => throwPayout ("validateaddress result is missing " ++ name)
  | some value => parseExactHex value expectedBytes name

/-- The comparison of `count` bytes from an offset on with given ones. -/
def equalAt (b : Bytes) (offset : Nat) : Bytes → Except PayoutFailure Bool
  | [] => .ok true
  | x :: rest => do
      let y ← byteAt b offset
      if x = y then equalAt b (offset + 1) rest else return false

def parsePayoutAddressResponse (result : Json) : Except PayoutFailure Bytes := do
  check (result.isObject = true)
    (.payoutAddress (text "validateaddress returned a non-object result"))
  requireValid result
  requireWitness result
  requireVersion result
  let program ← requireHex result "witness_program" 32
  let script ← requireHex result "scriptPubKey" 34
  let first ← byteAt script 0
  let second ← byteAt script 1
  check (¬(first ≠ 0x52 ∨ second ≠ 0x20))
    (.payoutAddress (text "Mercatura PQ payout script is not canonical witness v2"))
  let equal ← equalAt script 2 program
  check (equal = true)
    (.payoutAddress (text "validateaddress witness program does not match scriptPubKey"))
  return script

end MercaMiner
