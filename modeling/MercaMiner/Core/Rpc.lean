import MercaMiner.Basis.Outcome
import MercaMiner.Core.Json

/-!
# RPC Replies

What the miner asks a node while it submits a block, and how it reads the
answers, from `rpc.cpp` and `mine_loop.cpp`.

A call returns the `result` member of the reply or throws. Two exceptions
matter to the callers: an `RpcException`, after which a call is tried again,
and the `RpcCancelledException` derived from it, which says that a
cancellation flag was seen raised. A value of the wrong type makes the reader
throw something else.

The body of a response is read by the JSON library, which is a parameter. It
either returns a value or throws one of two exceptions that are not related to
each other.

## Main definitions

* `RpcRequest`: The calls that submit a block and confirm it.
* `JsonParser`: The JSON library's parser.
* `RpcFailure`: The exceptions of reading a response.
* `parseRpcResponse`: Reading a response.
* `RpcReply`: How a call ends.
* `classifySubmitBlockResult`: Reading the reply to `submitblock`.
* `parseRpcHeight`, `parseRpcHash`: Reading a height and a block hash.

## Theorems

* `classify_known`, `classify_rejected`: Which replies are a rejection.
-/

namespace MercaMiner

open Outcome

/-- The calls `submitblock`, `getblockcount` and `getbestblockhash`. -/
inductive RpcRequest where
  | submitBlock (data : Text)
  | getBlockCount
  | getBestBlockHash
  deriving DecidableEq

/-- What the library's parser does with a text: it returns the value, or throws
    a `parse_error` or an `out_of_range`. The latter is for a number too large
    for a double. -/
inductive JsonParse where
  | value (v : Json)
  | parseError (what : Text)
  | outOfRange (what : Text)

/-- The library's parser. An empty text is a syntax error. -/
structure JsonParser where
  parse : Text → JsonParse
  parse_nil : ∃ what, parse [] = .parseError what

/-- The exceptions that leave the reading of a response: an `RpcException`, or
    one of the library's. -/
inductive RpcFailure where
  | rpcException (what : Text) (code : Option Int32)
  | outOfRange (what : Text)

/-- The HTTP status as the messages show it. -/
def statusText (httpStatus : Int64) : Text :=
  text (toString httpStatus)

/-- The code of an error object. -/
def rpcErrorCode (error : Json) : Option Int32 :=
  match error.find "code" with
  | some code => if code.isNumberInteger then code.getInt else none
  | none => none

/-- The text of an error object. -/
def rpcErrorMessage (error : Json) : Text :=
  match error.find "message" with
  | some (.string message) => message
  | _ => text "JSON-RPC error"

/-- What is thrown for an `error` member. -/
def rpcErrorOf (error : Json) : RpcFailure :=
  if error.isObject then .rpcException (rpcErrorMessage error) (rpcErrorCode error)
  else .rpcException (text "JSON-RPC error") none

/-- The `error` member, unless it is absent or null. -/
def rpcErrorMember (response : Json) : Option Json :=
  match response.find "error" with
  | some error => if error.isNull then none else some error
  | none => none

/-- The body as a value. -/
def parseBody (library : JsonParser) (body : Text) (httpStatus : Int64) : Except RpcFailure Json :=
  match library.parse body with
  | .value response => .ok response
  | .parseError what =>
      .error (.rpcException (text "Invalid JSON-RPC response" ++ text " (HTTP " ++
        statusText httpStatus ++ text "): " ++ what) none)
  -- Not a `parse_error`, so the handler around the call does not catch it.
  | .outOfRange what => .error (.outOfRange what)

def parseRpcResponse (library : JsonParser) (body : Text) (httpStatus : Int64) :
    Except RpcFailure Json := do
  check (¬(httpStatus = 401 ∨ httpStatus = 403))
    (.rpcException (text "RPC authentication failed" ++ text " (HTTP " ++ statusText httpStatus ++
      text ")") none)
  check (body ≠ [])
    (.rpcException (text "Empty RPC response body" ++ text " (HTTP " ++ statusText httpStatus ++
      text ")") none)
  let response ← parseBody library body httpStatus
  check (response.isObject = true)
    (.rpcException (text "JSON-RPC response is not an object") none)
  match rpcErrorMember response with
  | some error => .error (rpcErrorOf error)
  | none => do
      check (¬(httpStatus < 200 ∨ httpStatus ≥ 300))
        (.rpcException (text "RPC HTTP request failed with status " ++ statusText httpStatus) none)
      match response.find "result" with
      | none => .error (.rpcException (text "JSON-RPC response is missing result") none)
      | some result => return result

/-- How a call ends: with a result, with one of the two exceptions the callers
    distinguish, or with another one. -/
inductive RpcReply where
  | value (result : Json)
  | rpcException (what : String)
  | rpcCancelled
  | otherException (what : String)

/-- The bytes of an exception's text as characters. -/
def ofText (t : Text) : String :=
  String.ofList (t.map fun b => Char.ofNat b.toNat)

/-- How a call ends whose response was received. -/
def RpcReply.ofResponse : Except RpcFailure Json → RpcReply
  | .ok result => .value result
  | .error (.rpcException what _) => .rpcException (ofText what)
  | .error (.outOfRange what) => .otherException (ofText what)

inductive SubmitBlockResult where
  | needsTipConfirmation
  | rejected
  deriving DecidableEq

/-- The result is classified, with the text of the rejection. -/
def classifySubmitBlockResult (result : Json) : Except String (SubmitBlockResult × Text) :=
  match result with
  | .null => .ok (.needsTipConfirmation, [])
  | .string rejection =>
      if rejection = text "duplicate" ∨ rejection = text "inconclusive" then
        .ok (.needsTipConfirmation, rejection)
      else .ok (.rejected, rejection)
  | _ => .error "submitblock returned unexpected non-null result"

def parseRpcHeight (value : Json) (description : String) : Except String UInt64 :=
  match value with
  | .numberUnsigned n => .ok n
  | .numberInteger n =>
      if n < 0 then .error (description ++ " RPC result is negative") else .ok n.toUInt64
  | _ => .error (description ++ " RPC result is not an integer")

def parseRpcHash (value : Json) (description : String) : Except String UInt256 :=
  match value with
  | .string s => match UInt256.fromHexBE s with
    | none => .error (description ++ " RPC result is not a 256-bit hash")
    | some hash => .ok hash
  | _ => .error (description ++ " RPC result is not a string")

theorem classify_known (reply : Text) (h : reply = text "duplicate" ∨ reply = text "inconclusive") :
    classifySubmitBlockResult (.string reply) = .ok (.needsTipConfirmation, reply) := by
  simp only [classifySubmitBlockResult]
  exact if_pos h

/-- A rejection is exactly a text other than the two that mean the node may
    hold the block. -/
theorem classify_rejected (result : Json) (rejection : Text) :
    classifySubmitBlockResult result = .ok (.rejected, rejection) ↔
      result = .string rejection ∧ rejection ≠ text "duplicate" ∧
        rejection ≠ text "inconclusive" := by
  cases result with
  | string s =>
      simp only [classifySubmitBlockResult]
      by_cases h : s = text "duplicate" ∨ s = text "inconclusive"
      · rw [if_pos h]
        refine iff_of_false (by simp only [Except.ok.injEq, Prod.mk.injEq, reduceCtorEq,
          false_and, not_false_eq_true]) ?_
        rintro ⟨heq, hd, hi⟩
        rw [Json.string.injEq] at heq
        rw [heq] at h
        exact h.elim hd hi
      · rw [if_neg h]
        simp only [Except.ok.injEq, Prod.mk.injEq, true_and, Json.string.injEq]
        refine ⟨fun heq => ⟨heq, ?_⟩, fun hs => hs.1⟩
        rw [← heq]
        exact not_or.mp h
  | _ => simp only [classifySubmitBlockResult, Except.ok.injEq, Prod.mk.injEq, reduceCtorEq,
      false_and]

end MercaMiner
