import MercaMiner.Core.MineLoop
import MercaMiner.Core.NetworkTable
import MercaMiner.Core.PayoutAddress
import MercaMiner.Core.Session

/-!
# Waiting for the Node

`WaitForStartupRpc` of `mine_loop.cpp`: the program waits until it has a
connection to a node of the right network that accepts its payout address.

An attempt reads the cookie, constructs a client, asks the node for its chain
and its first block, and has it validate the address. An `RpcException` ends
the attempt and leads to a pause of a second and a new one; every other
exception leaves the loop. As in the submission, a step reads the flag, the
file system or the reply to a request, and what it reads is its event.

## Main definitions

* `StartupRpcState`: What is returned.
* `StartupPc`, `StartupState`: Where the loop is.
* `StartupEvent`, `startupStep`: One step.
-/

namespace MercaMiner

structure StartupRpcState where
  credentials : RpcCredentials
  rpc : RpcClient
  payoutScript : Bytes
  deriving DecidableEq

/-- Where the loop is, with the variables of the attempt. `stopped` is the
    return without a value. -/
inductive StartupPc where
  | loadCancelled
  | readCookie
  | construct (credentials : RpcCredentials)
  | callInfo (connected : RpcState)
  | callGenesis (connected : RpcState) (blockchain : BlockchainInfo)
  | callValidate (connected : RpcState)
  | caughtCancelled
  | sleeping (remaining : Nat)
  | returned (state : StartupRpcState)
  | stopped
  | threw (e : LoopException)
  deriving DecidableEq

/-- The flag is absent when no pointer to one was given. -/
structure StartupState where
  cancelled : Flag
  pc : StartupPc
  deriving DecidableEq

/-- What a step reads: nothing but the flag, the cookie file, the result of
    initialising the HTTP library, or the reply to a request. -/
inductive StartupEvent where
  | advance
  | cookie (file : Option Text)
  | initialized (failure : Option Text)
  | reply (r : RpcReply)

/-- A payout exception with its text. The other two failures do not happen
    (`parsePayout_throws`). -/
def LoopException.ofPayout : PayoutFailure → LoopException
  | .payoutAddress what => .other (ofText what)
  | .typeError => .other "type_error"
  | .outOfBounds => .other "out_of_range"

namespace StartupState

def goto (s : StartupState) (pc : StartupPc) : StartupState :=
  { s with pc := pc }

/-- The handlers around an attempt. -/
def throw (s : StartupState) (e : LoopException) : StartupState :=
  match e with
  | .rpcCancelled => s.goto .caughtCancelled
  | .rpc _ => s.goto (.sleeping 1000)
  | .other what => s.goto (.threw (.other what))

/-- A statement of an attempt ends, with a value or with an exception. -/
def complete {α : Type} (s : StartupState) (result : Except LoopException α)
    (next : α → StartupPc) : StartupState :=
  match result with
  | .ok value => s.goto (next value)
  | .error e => s.throw e

end StartupState

/-- A call was made on the client. -/
def RpcState.nextRequest (s : RpcState) : RpcState :=
  { s with rpc := s.rpc.nextRequest }

/-- The reply to `getblockhash 0`, and the check of the node's network. -/
def startupGenesis (network : NetworkRow) (blockchain : BlockchainInfo) (r : RpcReply) :
    Except LoopException Unit := do
  let value ← r.result
  let liveGenesis ← (parseRpcHash value "getblockhash 0").mapError .other
  (validateNetworkIdentity network blockchain liveGenesis).mapError fun e => .other (ofText e)

/-- The reply to `validateaddress`. -/
def startupScript (r : RpcReply) : Except LoopException Bytes := do
  let value ← r.result
  (parsePayoutAddressResponse value).mapError LoopException.ofPayout

/-- The next step after the network was checked. An empty address is refused
    before the request. -/
def startupAddress (connected : RpcState) (address : Text) : Except LoopException RpcState :=
  if address = [] then .error (.other "payout address must not be empty")
  else .ok connected

def startupStep (network : NetworkRow) (connection : RpcConnectionSettings) (address : Text)
    (s : StartupState) (e : StartupEvent) : Option StartupState :=
  match s.pc, e with
  | .loadCancelled, .advance =>
      if raised s.cancelled then some (s.goto .stopped) else some (s.goto .readCookie)
  | .readCookie, .cookie file =>
      some (s.complete ((RpcCredentials.fromCookieFile connection.cookieFile file).mapError
        LoopException.ofFailure) .construct)
  | .construct credentials, .initialized failure =>
      some (s.complete ((RpcClient.construct failure connection.rpcUrl credentials).mapError
        LoopException.ofFailure) fun rpc => .callInfo ⟨credentials, rpc⟩)
  | .callInfo connected, .reply r =>
      some (s.complete (fetchInfo r) fun blockchain =>
        .callGenesis connected.nextRequest blockchain)
  | .callGenesis connected blockchain, .reply r =>
      some (s.complete (do
        startupGenesis network blockchain r
        startupAddress connected.nextRequest address) .callValidate)
  | .callValidate connected, .reply r =>
      some (s.complete (startupScript r) fun payoutScript =>
        let connected := connected.nextRequest
        .returned ⟨connected.credentials, connected.rpc, payoutScript⟩)
  | .caughtCancelled, .advance =>
      if raised s.cancelled then some (s.goto .stopped)
      else some (s.goto (.threw .rpcCancelled))
  | .sleeping remaining, .advance =>
      if remaining = 0 then some (s.goto .loadCancelled)
      else match sleepSlice s.cancelled remaining with
        | none => some (s.goto .stopped)
        | some left => some (s.goto (.sleeping left))
  | _, _ => none

def startupStart (cancelled : Flag) : StartupState :=
  ⟨cancelled, .loadCancelled⟩

end MercaMiner
