import Mathlib.Data.List.DropRight
import MercaMiner.Core.Rpc

/-!
# The RPC Client and its Cookie

How a client is built from the node's cookie file and replaced when the cookie
has changed, from `rpc.cpp`, `rpc_connection.cpp` and `mine_loop.cpp`.

The file system is outside: an attempt is given what it finds under the path,
`none` when the file cannot be opened. The initialisation of the HTTP library
is a parameter, the reason of its failure or `none`; once it has succeeded it
is not repeated.

A reload changes two objects by reference, so it is a computation on both,
and what was assigned before an exception would stay assigned.

## Main definitions

* `RpcCredentials`, `RpcClient`, `RpcConnectionSettings`: The three records.
* `RpcCredentials.fromCookieFile`: Reading the cookie.
* `RpcClient.construct`: The constructor.
* `ReloadM`: Computations on credentials and a client that may throw.
* `reloadRpcClientFromCookie`, `tryReloadRpcCookie`: A reload, and a reload
  whose exceptions are reported.
-/

namespace MercaMiner

open Outcome

structure RpcCredentials where
  basicAuth : Text
  deriving DecidableEq

structure RpcConnectionSettings where
  rpcUrl : Text
  cookieFile : Text

structure RpcClient where
  url : Text
  credentials : RpcCredentials
  nextId : UInt64
  deriving DecidableEq

/-- The first line of a text, without its end. -/
def getline (contents : Text) : Text :=
  contents.takeWhile (· ≠ '\n'.toUInt8)

def isLineEnding (c : UInt8) : Bool :=
  c == '\n'.toUInt8 || c == '\r'.toUInt8

/-- The source pops line endings off the back. -/
def trimLineEnding (value : Text) : Text :=
  value.rdropWhile isLineEnding

/-- The test of the separator: there is none, it comes first, or nothing
    follows it. -/
def cookieMalformed (cookie : Text) : Bool :=
  match cookie.idxOf? ':'.toUInt8 with
  | none => true
  | some separator => separator == 0 || separator + 1 ≥ cookie.length

def RpcCredentials.fromCookieFile (path : Text) (file : Option Text) :
    Except RpcFailure RpcCredentials :=
  match file with
  | none => .error (.rpcException (text "Unable to open RPC cookie file: " ++ path) none)
  | some contents => do
      let cookie := trimLineEnding (getline contents)
      check (¬cookieMalformed cookie)
        (.rpcException (text "Malformed RPC cookie file: " ++ path) none)
      return ⟨cookie⟩

def ensureCurlInitialized (failure : Option Text) : Except RpcFailure Unit :=
  match failure with
  | none => .ok ()
  | some reason => .error (.rpcException (text "curl_global_init failed: " ++ reason) none)

def RpcClient.construct (curl : Option Text) (url : Text) (credentials : RpcCredentials) :
    Except RpcFailure RpcClient := do
  check (url ≠ []) (.rpcException (text "RPC URL must not be empty") none)
  ensureCurlInitialized curl
  return ⟨url, credentials, 0⟩

/-- A call takes the next request number. -/
def RpcClient.nextRequest (rpc : RpcClient) : RpcClient :=
  { rpc with nextId := rpc.nextId + 1 }

/-- The two objects a reload is given by reference. -/
structure RpcState where
  credentials : RpcCredentials
  rpc : RpcClient
  deriving DecidableEq

/-- A computation on the two objects. -/
abbrev ReloadM (α : Type) := ExceptT RpcFailure (StateM RpcState) α

/-- A call that does not touch the two objects. -/
def ReloadM.lift {α : Type} (result : Except RpcFailure α) : ReloadM α :=
  fun s => (result, s)

def reloadRpcClientFromCookie (curl : Option Text) (connection : RpcConnectionSettings)
    (file : Option Text) : ReloadM Bool := do
  let refreshedCredentials ←
    ReloadM.lift (RpcCredentials.fromCookieFile connection.cookieFile file)
  if refreshedCredentials.basicAuth = (← get).credentials.basicAuth then
    return false
  else
    let refreshedRpc ←
      ReloadM.lift (RpcClient.construct curl connection.rpcUrl refreshedCredentials)
    modify fun s => { s with credentials := refreshedCredentials }
    modify fun s => { s with rpc := refreshedRpc }
    return true

/-- The reload of the mining loop, which returns what it prints. -/
def tryReloadRpcCookie (curl : Option Text) (connection : RpcConnectionSettings)
    (file : Option Text) : ReloadM Text := fun s =>
  match reloadRpcClientFromCookie curl connection file s with
  | (.ok true, s') => (.ok (text "RPC cookie credentials changed; reloaded credentials\n"), s')
  | (.ok false, s') => (.ok [], s')
  | (.error (.rpcException what _), s') =>
      (.ok (text "Unable to reload RPC cookie credentials: " ++ what ++
        text "; retaining previous credentials\n"), s')
  | (.error (.outOfRange what), s') => (.error (.outOfRange what), s')

end MercaMiner
