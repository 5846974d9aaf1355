import MercaMiner.Core.Gbt
import MercaMiner.Core.Network
import MercaMiner.Core.RpcConnection

/-!
# The Table of Networks

The rows of the table in `network.cpp` with all their columns, the checks that
use them, and where a local node of a network is found, from
`rpc_connection.cpp`.

## Main definitions

* `NetworkRow`, `networkRows`, `findNetworkRow`: The table.
* `supportsDirectPowMining`, `validateNetworkIdentity`: The checks.
* `localRpcConnectionForHome`, `defaultLocalRpcConnection`: The local node.

## Theorems

* `networkRows_identities`: The rows are those of `networks`.
* `networkRows_genesis`: Every genesis constant parses.
* `validateNetworkIdentity_ok`: When a node passes.
-/

namespace MercaMiner

open Outcome

structure NetworkRow extends NetworkIdentity where
  defaultRpcPort : UInt16
  dataDir : Text
  genesisHash : Text
  deriving DecidableEq

def networkRows : List NetworkRow :=
  [{ chain := "main"
     defaultRpcPort := 27776
     dataDir := []
     genesisHash := text "cd797c78731d68a82b664b3e359a2e69508ea873fe5747b686488589cc7d6f15"
     powLimit := text "7fffffffffffffffffffffffffffffffffffffffffffffffffffffffffffffff" },
   { chain := "test"
     defaultRpcPort := 27775
     dataDir := text "testnet"
     genesisHash := text "b3fc707c9a89dc45d1cf6a837284b22ad2b6fd41b99af601079db9dcbeff6920"
     powLimit := text "003fffffffffffffffffffffffffffffffffffffffffffffffffffffffffffff" },
   { chain := "signet"
     defaultRpcPort := 27774
     dataDir := text "signet"
     genesisHash := text "eebe2b23469b0d91056cc9240387ba7ee601ce138160da3c508142e039e1f36b"
     powLimit := text "7fffffffffffffffffffffffffffffffffffffffffffffffffffffffffffffff" },
   { chain := "regtest"
     defaultRpcPort := 27773
     dataDir := text "regtest"
     genesisHash := text "8e2308efb3a16b126e69444329cc0ed81bea0596e99db1032ccd750e7028f685"
     powLimit := text "7fffffffffffffffffffffffffffffffffffffffffffffffffffffffffffffff" }]

def findNetworkRow (chain : Text) : Option NetworkRow :=
  networkRows.find? fun network => text network.chain == chain

def supportsDirectPowMining (network : NetworkRow) : Bool :=
  network.chain == "main" || network.chain == "test" || network.chain == "regtest"

/-- The exception carries its text. -/
def validateNetworkIdentity (expected : NetworkRow) (blockchain : BlockchainInfo)
    (liveGenesis : UInt256) : Except Text Unit := do
  check (blockchain.chain = text expected.chain)
    (text "RPC node reports chain '" ++ blockchain.chain ++
      text ("' but MercaMiner expected '" ++ expected.chain ++ "'"))
  match UInt256.fromHexBE expected.genesisHash with
  | none => .error (text "Internal MercaMiner genesis constant is invalid")
  | some expectedGenesis =>
      check (liveGenesis = expectedGenesis)
        (text ("RPC node genesis hash does not match the expected Mercatura " ++ expected.chain ++
          " genesis"))

def slash : UInt8 := '/'.toUInt8

/-- Appending to a path. An absolute path replaces it, and a path that ends
    with a separator, or is empty, needs no other. -/
def joinPath (path part : Text) : Text :=
  if part.head? = some slash then part
  else if path = [] ∨ path.getLast? = some slash then path ++ part
  else path ++ slash :: part

def localRpcConnectionForHome (network : NetworkRow) (homeDirectory : Text) :
    Except Text RpcConnectionSettings :=
  if homeDirectory = [] then
    .error (text "HOME directory is empty; specify RPC URL and cookie file explicitly")
  else
    let cookiePath := joinPath homeDirectory (text ".mercatura")
    let cookiePath :=
      if network.dataDir = [] then cookiePath else joinPath cookiePath network.dataDir
    .ok ⟨text ("http://127.0.0.1:" ++ toString network.defaultRpcPort.toNat),
      joinPath cookiePath (text ".cookie")⟩

/-- The environment's `HOME` is given, if it is set. -/
def defaultLocalRpcConnection (network : NetworkRow) (home : Option Text) :
    Except Text RpcConnectionSettings :=
  match home with
  | none | some [] =>
      .error (text "HOME is not set; specify RPC URL and cookie file explicitly")
  | some home => localRpcConnectionForHome network home

/-- The two tables have the same networks. -/
theorem networkRows_identities : networkRows.map NetworkRow.toNetworkIdentity = networks := rfl

/-- The constants of the table are well formed. -/
theorem networkRows_genesis : ∀ network ∈ networkRows,
    (UInt256.fromHexBE network.genesisHash).isSome := by decide +kernel

/-- A node passes exactly when it reports the chain and has the genesis block
    of the network. -/
theorem validateNetworkIdentity_ok (expected : NetworkRow) (blockchain : BlockchainInfo)
    (liveGenesis : UInt256) (u : Unit) :
    validateNetworkIdentity expected blockchain liveGenesis = .ok u ↔
      blockchain.chain = text expected.chain ∧
        UInt256.fromHexBE expected.genesisHash = some liveGenesis := by
  rw [validateNetworkIdentity]
  cases UInt256.fromHexBE expected.genesisHash with
  | none => simp only [bind_ok, check_ok, exists_const, reduceCtorEq, and_false]
  | some expectedGenesis =>
      simp only [bind_ok, check_ok, exists_const, Option.some.injEq]
      exact and_congr_right fun _ => eq_comm

end MercaMiner
