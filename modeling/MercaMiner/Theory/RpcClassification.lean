import MercaMiner.Core.MineLoop

/-!
# How Responses Are Classified

What the reader of a response returns or throws, for every body and every HTTP
status, and whether the callers try again.

The reader asks in a fixed order: the authentication status, the body, the
error member, the status, the result. All of its own exceptions are of the
class the callers retry on. The JSON library has two exceptions of its own,
and only one of them is translated, so a well-formed body with a number that
is too large for a double makes the other one pass through the reader, and
through the handlers around it.

## Main definitions

* `Answers`: A response with a result and no error.
* `Classified`: What a caller relies on.
* `overflowLibrary`, `overflowBody`: A number the library cannot hold.

## Theorems

* `parseRpcResponse_ok_iff`: Which responses have a result.
* `parseRpcResponse_coded`: The code of an error object is passed on.
* `parseRpcResponse_class`: Which exceptions are thrown.
* `overflow_not_classified`: A response that ends the miner.
* `classified_iff`: Exactly those responses do.
-/

namespace MercaMiner

open Outcome

/-- The status is a success, the body is an object whose error member is absent
    or null, and its result member is the one given. -/
structure Answers (library : JsonParser) (body : Text) (httpStatus : Int64) (result : Json) :
    Prop where
  lower : 200 ≤ httpStatus
  upper : httpStatus < 300
  nonempty : body ≠ []
  value : ∃ response, library.parse body = .value response ∧ response.isObject = true ∧
    (response.find "error" = none ∨ response.find "error" = some .null) ∧
    response.find "result" = some result

/-- The status says that the credentials were refused. -/
def AuthenticationStatus (httpStatus : Int64) : Prop :=
  httpStatus = 401 ∨ httpStatus = 403

/-- What the callers rely on: a result is returned exactly for an answer, the
    code of an error object is passed on whatever the status is, every failure
    is an `RpcException`, and the two loops that retry do so on it. -/
structure Classified (library : JsonParser) (body : Text) (httpStatus : Int64) : Prop where
  returns : ∀ result, parseRpcResponse library body httpStatus = .ok result ↔
    Answers library body httpStatus result
  coded : ¬AuthenticationStatus httpStatus → ∀ response error code (n : Int32),
    library.parse body = .value response → response.isObject = true →
    response.find "error" = some error → error.isObject = true →
    error.find "code" = some code → code.integer = some n.toInt →
    ∃ what, parseRpcResponse library body httpStatus = .error (.rpcException what (some n))
  fails : ∀ e, parseRpcResponse library body httpStatus = .error e →
    ∃ what code, e = .rpcException what code
  resubmits : ∀ e, parseRpcResponse library body httpStatus = .error e →
    ∀ (f : SubmitFrame) (next : Json → SubmitFrame),
      f.caught (RpcReply.ofResponse (.error e)) next = f.goto .reloadCookie
  retries : ∀ e, parseRpcResponse library body httpStatus = .error e →
    ∀ s : LoopState, s.shutdown = false →
      threadStep (s.throw (LoopException.ofFailure e)) .advance = some (s.goto .reloadCookie)

theorem rpcErrorMember_none (response : Json) :
    rpcErrorMember response = none ↔
      response.find "error" = none ∨ response.find "error" = some .null := by
  unfold rpcErrorMember
  cases response.find "error" with
  | none => simp only [true_or]
  | some error =>
      cases error with
      | null => simp only [Json.isNull, if_true, or_true]
      | _ => simp only [Json.isNull, Bool.false_eq_true, if_false, reduceCtorEq, Option.some.injEq,
          or_self]

theorem parseBody_ok (library : JsonParser) (body : Text) (httpStatus : Int64) (response : Json) :
    parseBody library body httpStatus = .ok response ↔ library.parse body = .value response := by
  unfold parseBody
  cases library.parse body with
  | value v => simp only [Except.ok.injEq, JsonParse.value.injEq]
  | parseError what => simp only [reduceCtorEq]
  | outOfRange what => simp only [reduceCtorEq]

/-- An empty text is a syntax error, so any other body has something in it. -/
theorem nonempty_of_read (library : JsonParser) (body : Text)
    (h : ∀ what, library.parse body ≠ .parseError what) : body ≠ [] := by
  intro hnil
  rcases library.parse_nil with ⟨what, hwhat⟩
  rw [← hnil] at hwhat
  exact h what hwhat

/-- A result is returned exactly for an answer. -/
theorem parseRpcResponse_ok_iff (library : JsonParser) (body : Text) (httpStatus : Int64)
    (result : Json) : parseRpcResponse library body httpStatus = .ok result ↔
      Answers library body httpStatus result := by
  simp only [parseRpcResponse, bind_ok, check_ok, parseBody_ok, exists_const]
  constructor
  · intro hparts
    rcases hparts with ⟨_, hbody, response, hparse, hobject, h⟩
    -- A result is looked for only behind an absent error and a success.
    cases herror : rpcErrorMember response with
    | some error =>
        rw [herror] at h
        exact absurd h (by simp only [reduceCtorEq, not_false_eq_true])
    | none =>
        rw [herror] at h
        simp only [bind_ok, check_ok, exists_const] at h
        rcases h with ⟨hstatus, h⟩
        cases hresult : response.find "result" with
        | none =>
            rw [hresult] at h
            exact absurd h (by simp only [reduceCtorEq, not_false_eq_true])
        | some found =>
            rw [hresult] at h
            rw [not_or, Int64.not_lt, ge_iff_le, Int64.not_le] at hstatus
            refine ⟨hstatus.1, hstatus.2, hbody, response, hparse, hobject,
              (rpcErrorMember_none response).mp herror, ?_⟩
            rw [hresult, (pure_ok _ _).mp h]
  · intro hparts
    rcases hparts with ⟨hlower, hupper, hbody, response, hparse, hobject, herror, hresult⟩
    refine ⟨?_, hbody, response, hparse, hobject, ?_⟩
    · -- A success is not one of the two authentication statuses.
      intro hauth
      rcases hauth with h | h
      · rw [h] at hupper
        exact absurd hupper (by decide)
      · rw [h] at hupper
        exact absurd hupper (by decide)
    · rw [(rpcErrorMember_none response).mpr herror]
      simp only [bind_ok, check_ok, exists_const, hresult, pure_ok, and_true]
      rw [not_or, Int64.not_lt, ge_iff_le, Int64.not_le]
      exact ⟨hlower, hupper⟩

/-- The conversion of an integer that fits is exact. -/
theorem getInt_of_integer (code : Json) (n : Int32) (h : code.integer = some n.toInt) :
    code.isNumberInteger = true ∧ code.getInt = some n := by
  have hlow := Int32.le_toInt n
  have hhigh := Int32.toInt_lt n
  cases code with
  | numberUnsigned m =>
      simp only [Json.integer, Option.some.injEq] at h
      refine ⟨rfl, ?_⟩
      rw [Json.getInt, Option.some.injEq]
      apply Int32.toInt_inj.mp
      -- The number is not too large for the low half to be all of it.
      have hbits : m.toUInt32.toInt32.toInt = (m.toUInt32.toNat : Int).bmod (2 ^ 32) :=
        BitVec.toInt_eq_toNat_bmod m.toUInt32.toBitVec
      have hsmall : m.toNat % 2 ^ 32 = m.toNat := Nat.mod_eq_of_lt (by omega)
      rw [hbits, UInt64.toNat_toUInt32, hsmall, h]
      exact Int.bmod_eq_of_le (by omega) (by omega)
  | numberInteger m =>
      simp only [Json.integer, Option.some.injEq] at h
      refine ⟨rfl, ?_⟩
      rw [Json.getInt, Option.some.injEq]
      apply Int32.toInt_inj.mp
      rw [Int64.toInt_toInt32, h]
      exact Int.bmod_eq_of_le (by omega) (by omega)
  | _ => exact absurd h (by simp only [Json.integer, reduceCtorEq, not_false_eq_true])

/-- An error object is thrown with its code before the status is looked at. -/
theorem parseRpcResponse_coded (library : JsonParser) (body : Text) (httpStatus : Int64)
    (response error code : Json) (n : Int32) (hauth : ¬AuthenticationStatus httpStatus)
    (hparse : library.parse body = .value response) (hobject : response.isObject = true)
    (herror : response.find "error" = some error) (hshape : error.isObject = true)
    (hcode : error.find "code" = some code) (hn : code.integer = some n.toInt) :
    ∃ what, parseRpcResponse library body httpStatus = .error (.rpcException what (some n)) := by
  have hbody := nonempty_of_read library body fun what' h => by
    rw [hparse] at h
    exact absurd h (by simp only [reduceCtorEq, not_false_eq_true])
  have hmember : rpcErrorMember response = some error := by
    unfold rpcErrorMember
    rw [herror]
    cases error with
    | object members => rfl
    | _ => exact absurd hshape (by simp only [Json.isObject, Bool.false_eq_true,
        not_false_eq_true])
  rcases getInt_of_integer code n hn with ⟨hinteger, hget⟩
  refine ⟨rpcErrorMessage error, ?_⟩
  -- The error member is asked about before the status.
  have hvalue := (parseBody_ok library body httpStatus response).mpr hparse
  simp only [parseRpcResponse, check, AuthenticationStatus] at hauth ⊢
  rw [if_pos hauth, if_pos hbody, hvalue]
  simp only [bind, Except.bind, if_pos hobject, hmember, rpcErrorOf, if_pos hshape, rpcErrorCode,
    hcode, hinteger, if_true, hget]

/-- The reader throws its own exception, or lets the library's other exception
    pass after the authentication status was found harmless. -/
theorem parseRpcResponse_class (library : JsonParser) (body : Text) (httpStatus : Int64)
    (e : RpcFailure) (h : parseRpcResponse library body httpStatus = .error e) :
    (∃ what code, e = .rpcException what code) ∨
      ∃ what, library.parse body = .outOfRange what ∧ ¬AuthenticationStatus httpStatus := by
  simp only [parseRpcResponse, bind_error, check_error, check_ok, exists_const] at h
  -- The checks fail in their order: the credentials, the body, its reading.
  rcases h with ⟨_, rfl⟩ | ⟨hauth, ⟨_, rfl⟩ | ⟨_, hbody | ⟨response, _, h⟩⟩⟩
  · exact Or.inl ⟨_, _, rfl⟩
  · exact Or.inl ⟨_, _, rfl⟩
  · -- The body was not read as a value.
    unfold parseBody at hbody
    cases hparse : library.parse body with
    | value v =>
        rw [hparse] at hbody
        exact absurd hbody (by simp only [reduceCtorEq, not_false_eq_true])
    | parseError what =>
        rw [hparse, Except.error.injEq] at hbody
        exact Or.inl ⟨_, _, hbody.symm⟩
    | outOfRange what => exact Or.inr ⟨what, rfl, hauth⟩
  rcases h with ⟨_, rfl⟩ | ⟨_, h⟩
  · exact Or.inl ⟨_, _, rfl⟩
  cases herror : rpcErrorMember response with
  | some error =>
      rw [herror, Except.error.injEq] at h
      rw [← h, rpcErrorOf]
      by_cases hshape : error.isObject = true
      · rw [if_pos hshape]
        exact Or.inl ⟨_, _, rfl⟩
      · rw [if_neg hshape]
        exact Or.inl ⟨_, _, rfl⟩
  | none =>
      rw [herror] at h
      simp only [bind_error, check_error, check_ok, exists_const] at h
      rcases h with ⟨_, rfl⟩ | ⟨_, h⟩
      · exact Or.inl ⟨_, _, rfl⟩
      cases hresult : response.find "result" with
      | none =>
          rw [hresult, Except.error.injEq] at h
          exact Or.inl ⟨_, _, h.symm⟩
      | some found =>
          rw [hresult] at h
          exact absurd h (by simp only [pure_error, not_false_eq_true])

/-- The library's other exception leaves the reader as it is. -/
theorem parseRpcResponse_outOfRange (library : JsonParser) (body : Text) (httpStatus : Int64)
    (what : Text) (hparse : library.parse body = .outOfRange what)
    (hauth : ¬AuthenticationStatus httpStatus) :
    parseRpcResponse library body httpStatus = .error (.outOfRange what) := by
  have hbody := nonempty_of_read library body fun what' h => by
    rw [hparse] at h
    exact absurd h (by simp only [reduceCtorEq, not_false_eq_true])
  simp only [parseRpcResponse, check, AuthenticationStatus, parseBody, hparse] at hauth ⊢
  rw [if_pos hauth, if_pos hbody]
  rfl

/-- A JSON-RPC response whose result is a number no double can hold. -/
def overflowBody : Text :=
  text "\x7b\"result\":1e400,\"error\":null,\"id\":1\x7d"

/-- The library, as far as it is asked about that response. -/
def overflowLibrary : JsonParser where
  parse body :=
    if body = overflowBody then
      .outOfRange (text "[json.exception.out_of_range.406] number overflow parsing '1e400'")
    else .parseError (text "[json.exception.parse_error.101] parse error")
  parse_nil := ⟨_, if_neg (by decide)⟩

/-- That response, with status 200, is no `RpcException`: the submission loop
    ends with an exception instead of trying again. -/
theorem overflow_not_classified : ¬Classified overflowLibrary overflowBody 200 := by
  intro h
  have hparse : overflowLibrary.parse overflowBody =
      .outOfRange (text "[json.exception.out_of_range.406] number overflow parsing '1e400'") := by
    simp only [overflowLibrary, if_true]
  have hthrown := parseRpcResponse_outOfRange overflowLibrary overflowBody 200 _ hparse (by
    rw [AuthenticationStatus]
    decide)
  rcases h.fails _ hthrown with ⟨what, code, heq⟩
  exact absurd heq (by simp only [reduceCtorEq, not_false_eq_true])

/-- A response is classified as the callers rely on exactly when the status is
    one of the authentication statuses or the library does not throw its
    `out_of_range` on the body. -/
theorem classified_iff (library : JsonParser) (body : Text) (httpStatus : Int64) :
    Classified library body httpStatus ↔
      AuthenticationStatus httpStatus ∨ ∀ what, library.parse body ≠ .outOfRange what := by
  constructor
  · intro h
    by_cases hauth : AuthenticationStatus httpStatus
    · exact Or.inl hauth
    refine Or.inr fun what hparse => ?_
    have hthrown := parseRpcResponse_outOfRange library body httpStatus what hparse hauth
    rcases h.fails _ hthrown with ⟨what', code, heq⟩
    exact absurd heq (by simp only [reduceCtorEq, not_false_eq_true])
  · intro hcondition
    -- Without the library's other exception all failures are the reader's own.
    have hfails : ∀ e, parseRpcResponse library body httpStatus = .error e →
        ∃ what code, e = .rpcException what code := by
      intro e he
      rcases parseRpcResponse_class library body httpStatus e he with hown | ⟨what, hparse, hauth⟩
      · exact hown
      · rcases hcondition with hstatus | hnever
        · exact absurd hstatus hauth
        · exact absurd hparse (hnever what)
    exact {
      returns := parseRpcResponse_ok_iff library body httpStatus
      coded := fun hauth response error code n hparse hobject herror hshape hcode hn =>
        parseRpcResponse_coded library body httpStatus response error code n hauth hparse hobject
          herror hshape hcode hn
      fails := hfails
      resubmits := by
        intro e he f next
        rcases hfails e he with ⟨what, code, rfl⟩
        rfl
      retries := by
        intro e he s hshutdown
        rcases hfails e he with ⟨what, code, rfl⟩
        simp only [LoopException.ofFailure, LoopState.throw, LoopState.goto, threadStep, hshutdown,
          Bool.false_eq_true, if_false] }

end MercaMiner
