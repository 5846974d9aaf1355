import MercaMiner.Core.Target
import MercaMiner.Basis.Outcome

/-!
# Networks

The networks the miner knows and the bound each sets on targets, from
`network.cpp`.

## Main definitions

* `networks`: The table of networks.
* `findNetworkIdentity`: Looking one up by its chain name.
* `validateProofOfWorkTarget`: The check against the proof-of-work limit.

## Theorems

* `networks_powLimit`: Every limit of the table parses.
* `validateProofOfWorkTarget_ok`: When a target passes.
-/

namespace MercaMiner

open Outcome

structure NetworkIdentity where
  chain : String
  powLimit : Text
  deriving DecidableEq

inductive NetworkException where
  | invalidPowLimit
  | targetAbovePowLimit (chain : String)
  deriving DecidableEq

def NetworkException.what : NetworkException → String
  | invalidPowLimit => "Internal MercaMiner powLimit constant is invalid"
  | targetAbovePowLimit chain =>
      "proof-of-work target exceeds Mercatura " ++ chain ++ " powLimit"

def networks : List NetworkIdentity :=
  [⟨"main", text "7fffffffffffffffffffffffffffffffffffffffffffffffffffffffffffffff"⟩,
   ⟨"test", text "003fffffffffffffffffffffffffffffffffffffffffffffffffffffffffffff"⟩,
   ⟨"signet", text "7fffffffffffffffffffffffffffffffffffffffffffffffffffffffffffffff"⟩,
   ⟨"regtest", text "7fffffffffffffffffffffffffffffffffffffffffffffffffffffffffffffff"⟩]

def findNetworkIdentity (chain : String) : Option NetworkIdentity :=
  networks.find? fun network => network.chain == chain

def validateProofOfWorkTarget (network : NetworkIdentity) (target : UInt256) :
    Except NetworkException Unit :=
  match UInt256.fromHexBE network.powLimit with
  | none => .error .invalidPowLimit
  | some powLimit => check (¬powLimit < target) (.targetAbovePowLimit network.chain)

/-- The constants of the table are well formed, so the internal error cannot
    happen for a known network. -/
theorem networks_powLimit : ∀ network ∈ networks,
    (UInt256.fromHexBE network.powLimit).isSome := by decide +kernel

/-- A target passes exactly when the limit parses and is not exceeded. -/
theorem validateProofOfWorkTarget_ok (network : NetworkIdentity) (target : UInt256) (u : Unit) :
    validateProofOfWorkTarget network target = .ok u ↔
      ∃ powLimit, UInt256.fromHexBE network.powLimit = some powLimit ∧
        target.value ≤ powLimit.value := by
  rw [validateProofOfWorkTarget]
  cases UInt256.fromHexBE network.powLimit with
  | none => simp only [reduceCtorEq, false_and, exists_false]
  | some powLimit => simp only [check_ok, Option.some.injEq, exists_eq_left',
      UInt256.lt_iff_value, Nat.not_lt]

end MercaMiner
