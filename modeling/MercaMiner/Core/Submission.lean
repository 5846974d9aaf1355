import MercaMiner.Core.BlockBuilder
import MercaMiner.Core.Rpc
import MercaMiner.Core.Scanner

/-!
# Submitting a Solved Candidate

The retry loop around `submitblock`, from `mine_loop.cpp`.

An attempt submits the block and, unless it is rejected, asks the node for its
height and best block. An `RpcException` anywhere in the attempt leads to a
pause of a second and a new attempt with the same block; before each attempt
and throughout the pause the cancellation flag is read.

The loop is a step function. A step either uses the reply to the request the
loop is waiting on, or it is one the program makes by itself; the flag is an
argument, read by the steps that load it. Reloading credentials between
attempts changes neither the request nor the position and is one of the
latter.

## Main definitions

* `ResolvedSubmitOutcome`: The results of a submission.
* `SubmitArguments`: What is submitted and expected.
* `SubmitFrame`: The loop's position and variables.
* `hex`: The text a block is submitted as.
* `SubmitPc.request`: The request it is waiting on.
* `submitStep`: One step.
* `SubmitEffect`: What a step does.

## Theorems

* `submitStep_effect`: Everything a step can do.
* `submitStep_cancelled`: A submission is given up only with the flag raised.
-/

namespace MercaMiner

inductive ResolvedSubmitOutcome where
  | accepted
  | rejected
  | notCurrentTip
  | cancelled
  deriving DecidableEq

/-- The exceptions that leave the loop. -/
inductive SubmitException where
  | rpcCancelled
  | runtimeError (what : String)
  deriving DecidableEq

structure SubmitArguments where
  candidate : BlockCandidate
  expectedHeight : UInt64
  expectedHash : UInt256
  deriving DecidableEq

/-- Where the loop is. A pause carries the milliseconds that remain. -/
inductive SubmitPc where
  | checkCancelled
  | callSubmit
  | callCount
  | callBest (height : UInt64)
  | handleCancelled
  | reloadCookie
  | sleeping (remaining : Nat)
  | returned (outcome : ResolvedSubmitOutcome)
  | threw (e : SubmitException)
  deriving DecidableEq

structure SubmitFrame where
  pc : SubmitPc
  rejection : Text
  deriving DecidableEq

def SubmitFrame.start : SubmitFrame :=
  ⟨.checkCancelled, []⟩

def hexDigits : Text :=
  text "0123456789abcdef"

/-- One round of the writer: the two digits of byte `i`. -/
def hexStep (bytes : Bytes) (out : Text) (i : Nat) : Text :=
  let byte := bytes.getD i 0
  let out := out.set (2 * i) (hexDigits.getD (byte >>> 4).toNat 0)
  out.set (2 * i + 1) (hexDigits.getD (byte &&& 0x0f).toNat 0)

/-- The text of a byte string, stored into a buffer that has its length. -/
def hex (bytes : Bytes) : Text :=
  (List.range bytes.length).foldl (hexStep bytes) (List.replicate (bytes.length * 2) 0)

/-- The request the loop is waiting on, if it is waiting. The text of the block
    is what `hex` writes. -/
def SubmitPc.request (args : SubmitArguments) : SubmitPc → Option RpcRequest
  | .callSubmit => some (.submitBlock (Hex.encode args.candidate.serializedBlock))
  | .callCount => some .getBlockCount
  | .callBest _ => some .getBestBlockHash
  | _ => none

/-- One round of `InterruptibleSleep`, with the milliseconds left: `none`
    when the flag was raised. -/
def sleepSlice (cancelled : Flag) (remaining : Nat) : Option Nat :=
  if raised cancelled then none else some (remaining - min remaining 10)

/-- The comparison that ends an attempt. -/
def confirmAcceptedTip (args : SubmitArguments) (height : UInt64) (best : UInt256) : Bool :=
  height == args.expectedHeight && best == args.expectedHash

/-- What a step is given: nothing, or the reply to the request. -/
inductive SubmitEvent where
  | advance
  | reply (r : RpcReply)

namespace SubmitFrame

def goto (f : SubmitFrame) (pc : SubmitPc) : SubmitFrame :=
  { f with pc := pc }

theorem goto_pc (f : SubmitFrame) (pc : SubmitPc) : (f.goto pc).pc = pc := rfl

/-- The exception handlers of an attempt. -/
def caught (f : SubmitFrame) (r : RpcReply) (next : Json → SubmitFrame) : SubmitFrame :=
  match r with
  | .value result => next result
  | .rpcCancelled => f.goto .handleCancelled
  | .rpcException _ => f.goto .reloadCookie
  -- Neither handler catches it.
  | .otherException what => f.goto (.threw (.runtimeError what))

/-- After the reply to `submitblock`. -/
def submitted (f : SubmitFrame) (result : Json) : SubmitFrame :=
  match classifySubmitBlockResult result with
  -- A reply of the wrong form is not an RpcException and leaves the loop.
  | .error what => f.goto (.threw (.runtimeError what))
  | .ok (.rejected, rejection) => ⟨.returned .rejected, rejection⟩
  | .ok (.needsTipConfirmation, rejection) => ⟨.callCount, rejection⟩

/-- After the reply to `getblockcount`. -/
def counted (f : SubmitFrame) (result : Json) : SubmitFrame :=
  match parseRpcHeight result "getblockcount" with
  | .error what => f.goto (.threw (.runtimeError what))
  | .ok height => f.goto (.callBest height)

/-- After the reply to `getbestblockhash`. -/
def confirmed (f : SubmitFrame) (args : SubmitArguments) (height : UInt64) (result : Json) :
    SubmitFrame :=
  match parseRpcHash result "getbestblockhash" with
  | .error what => f.goto (.threw (.runtimeError what))
  | .ok best =>
      if confirmAcceptedTip args height best then f.goto (.returned .accepted)
      else f.goto (.returned .notCurrentTip)

end SubmitFrame

def submitStep (args : SubmitArguments) (cancelled : Flag) (f : SubmitFrame) (e : SubmitEvent) :
    Option SubmitFrame :=
  match f.pc, e with
  | .checkCancelled, .advance =>
      -- A new attempt forgets the rejection of the one before.
      if raised cancelled then some (f.goto (.returned .cancelled)) else some ⟨.callSubmit, []⟩
  | .callSubmit, .reply r => some (f.caught r f.submitted)
  | .callCount, .reply r => some (f.caught r f.counted)
  | .callBest height, .reply r => some (f.caught r (f.confirmed args height))
  | .handleCancelled, .advance =>
      if raised cancelled then some (f.goto (.returned .cancelled))
      else some (f.goto (.threw .rpcCancelled))
  | .reloadCookie, .advance => some (f.goto (.sleeping 1000))
  | .sleeping remaining, .advance =>
      if remaining = 0 then some (f.goto .checkCancelled)
      else match sleepSlice cancelled remaining with
        | none => some (f.goto (.returned .cancelled))
        | some left => some (f.goto (.sleeping left))
  | _, _ => none

/-- The positions from which the next request is a `submitblock`. -/
def SubmitPc.betweenAttempts : SubmitPc → Bool
  | .checkCancelled | .callSubmit | .handleCancelled | .reloadCookie | .sleeping _ => true
  | _ => false

/-- What a step does: it moves between attempts, ends the loop at a flag, or
    uses the reply to one of the three requests. -/
inductive SubmitEffect (args : SubmitArguments) (cancelled : Flag) (f : SubmitFrame) :
    SubmitEvent → SubmitFrame → Prop
  | moved (f' : SubmitFrame) (h : f'.pc.betweenAttempts = true) :
      SubmitEffect args cancelled f .advance f'
  | gaveUp (h : raised cancelled = true) :
      SubmitEffect args cancelled f .advance (f.goto (.returned .cancelled))
  | rethrew (h : raised cancelled = false) :
      SubmitEffect args cancelled f .advance (f.goto (.threw .rpcCancelled))
  | submitted (r : RpcReply) (h : f.pc = .callSubmit) :
      SubmitEffect args cancelled f (.reply r) (f.caught r f.submitted)
  | counted (r : RpcReply) (h : f.pc = .callCount) :
      SubmitEffect args cancelled f (.reply r) (f.caught r f.counted)
  | confirmed (r : RpcReply) (height : UInt64) (h : f.pc = .callBest height) :
      SubmitEffect args cancelled f (.reply r) (f.caught r (f.confirmed args height))

theorem submitStep_effect (args : SubmitArguments) (cancelled : Flag) (f f' : SubmitFrame)
    (e : SubmitEvent) (h : submitStep args cancelled f e = some f') :
    SubmitEffect args cancelled f e f' := by
  revert h
  fun_cases submitStep args cancelled f e with
  | case1 _ hflag | case6 _ hflag =>
      rintro ⟨⟩
      exact .gaveUp hflag
  | case2 | case8 | case9 | case11 =>
      rintro ⟨⟩
      exact .moved _ rfl
  | case3 r hpc =>
      rintro ⟨⟩
      exact .submitted r hpc
  | case4 r hpc =>
      rintro ⟨⟩
      exact .counted r hpc
  | case5 height r hpc =>
      rintro ⟨⟩
      exact .confirmed r height hpc
  | case7 _ hflag =>
      rintro ⟨⟩
      exact .rethrew (Bool.eq_false_iff.mpr hflag)
  | case10 remaining _ _ hslice =>
      -- A pause is cut short only at a raised flag.
      rintro ⟨⟩
      refine .gaveUp ?_
      by_contra hflag
      rw [sleepSlice, if_neg hflag] at hslice
      exact absurd hslice (by simp only [reduceCtorEq, not_false_eq_true])
  | case12 =>
      intro h
      exact absurd h (by simp only [reduceCtorEq, not_false_eq_true])

/-- A reply that is no exception is read, an exception goes to its handler or
    leaves the loop. -/
theorem SubmitFrame.caught_cases (f : SubmitFrame) (r : RpcReply) (next : Json → SubmitFrame) :
    (∃ result, r = .value result ∧ f.caught r next = next result) ∨
      (f.caught r next).pc.betweenAttempts = true ∨
      ∃ e, (f.caught r next).pc = .threw e := by
  cases r with
  | value result => exact Or.inl ⟨result, rfl, rfl⟩
  | rpcException what => exact Or.inr (Or.inl rfl)
  | rpcCancelled => exact Or.inr (Or.inl rfl)
  | otherException what => exact Or.inr (Or.inr ⟨_, rfl⟩)

theorem SubmitPc.betweenAttempts_returned (outcome : ResolvedSubmitOutcome) :
    ¬(SubmitPc.returned outcome).betweenAttempts = true :=
  Bool.false_ne_true

/-- No reply makes the loop give up. -/
theorem SubmitFrame.caught_not_cancelled (f : SubmitFrame) (r : RpcReply)
    (next : Json → SubmitFrame) (hnext : ∀ result, (next result).pc ≠ .returned .cancelled) :
    (f.caught r next).pc ≠ .returned .cancelled := by
  intro hpc
  rcases f.caught_cases r next with ⟨result, _, hf⟩ | hidle | ⟨e, hthrew⟩
  · rw [hf] at hpc
    exact hnext result hpc
  · rw [hpc] at hidle
    exact SubmitPc.betweenAttempts_returned _ hidle
  · exact absurd (hthrew.symm.trans hpc) (by simp only [reduceCtorEq, not_false_eq_true])

theorem SubmitFrame.submitted_not_cancelled (f : SubmitFrame) (result : Json) :
    (f.submitted result).pc ≠ .returned .cancelled := by
  unfold SubmitFrame.submitted
  cases classifySubmitBlockResult result with
  | error what => simp only [goto_pc, ne_eq, reduceCtorEq, not_false_eq_true]
  | ok classified =>
      rcases classified with ⟨_ | _, rejection⟩
      · simp only [ne_eq, reduceCtorEq, not_false_eq_true]
      · simp only [ne_eq, SubmitPc.returned.injEq, reduceCtorEq, not_false_eq_true]

theorem SubmitFrame.counted_not_cancelled (f : SubmitFrame) (result : Json) :
    (f.counted result).pc ≠ .returned .cancelled := by
  unfold SubmitFrame.counted
  cases parseRpcHeight result "getblockcount" with
  | error what => simp only [goto_pc, ne_eq, reduceCtorEq, not_false_eq_true]
  | ok height => simp only [goto_pc, ne_eq, reduceCtorEq, not_false_eq_true]

theorem SubmitFrame.confirmed_not_cancelled (f : SubmitFrame) (args : SubmitArguments)
    (height : UInt64) (result : Json) :
    (f.confirmed args height result).pc ≠ .returned .cancelled := by
  unfold SubmitFrame.confirmed
  cases parseRpcHash result "getbestblockhash" with
  | error what => simp only [goto_pc, ne_eq, reduceCtorEq, not_false_eq_true]
  | ok best =>
      by_cases htip : confirmAcceptedTip args height best = true
      · simp only [if_pos htip, goto_pc, ne_eq, SubmitPc.returned.injEq, reduceCtorEq,
          not_false_eq_true]
      · simp only [if_neg htip, goto_pc, ne_eq, SubmitPc.returned.injEq, reduceCtorEq,
          not_false_eq_true]

/-- Giving up is a step that found the flag raised. -/
theorem submitStep_cancelled (args : SubmitArguments) (cancelled : Flag) (f f' : SubmitFrame)
    (e : SubmitEvent) (h : submitStep args cancelled f e = some f')
    (hpc : f'.pc = .returned .cancelled) : raised cancelled = true := by
  rcases submitStep_effect args cancelled f f' e h with
    ⟨_, hidle⟩ | hflag | _ | ⟨r, _⟩ | ⟨r, _⟩ | ⟨r, height, _⟩
  · rw [hpc] at hidle
    exact absurd hidle (SubmitPc.betweenAttempts_returned _)
  · exact hflag
  · exact absurd hpc (by simp only [SubmitFrame.goto_pc, reduceCtorEq, not_false_eq_true])
  · exact absurd hpc (f.caught_not_cancelled r _ f.submitted_not_cancelled)
  · exact absurd hpc (f.caught_not_cancelled r _ f.counted_not_cancelled)
  · exact absurd hpc (f.caught_not_cancelled r _ (f.confirmed_not_cancelled args height))

end MercaMiner
