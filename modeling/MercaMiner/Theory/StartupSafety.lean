import MercaMiner.Core.Startup
import MercaMiner.Theory.CookieReload
import MercaMiner.Theory.PayoutScript

/-!
# What a Startup Has Checked

The state a startup returns was checked against the node in one attempt, and a
startup gives up for few reasons.

The invariant says for each position of an attempt what the replies before it
have established. It is over a predicate on events, those that were seen, so
it can be carried to any system the startup is part of.

## Main definitions

* `Connected`, `Identified`: What an attempt has established.
* `Started`: What is known of the state that is returned.
* `StartupOk`: The invariant.
* `StartupEvent.withoutReply`, `Waiting`: A node that does not reply.

## Theorems

* `startupGenesis_ok`, `startupScript_ok`: What the replies have shown.
* `startupStep_ok`: Every step keeps the invariant.
* `startupStep_waiting`: Without a reply the attempts go on.
-/

namespace MercaMiner

open Outcome

/-- The credentials are a cookie that was read, and the client uses them and
    the configured URL. It has made `requests` calls. -/
structure Connected (seen : StartupEvent → Prop) (connection : RpcConnectionSettings)
    (requests : UInt64) (c : RpcState) : Prop where
  cookie : ∃ file, seen (.cookie file) ∧ FindsCookie file c.credentials.basicAuth
  client : c.rpc = ⟨connection.rpcUrl, c.credentials, requests⟩
  url : connection.rpcUrl ≠ []

/-- The node reported the chain of the network and has its first block. -/
def Identified (seen : StartupEvent → Prop) (network : NetworkRow) : Prop :=
  ∃ chainReply info hex genesis,
    seen (.reply (.value chainReply)) ∧ parseBlockchainInfo chainReply = .ok info ∧
    info.chain = text network.chain ∧
    seen (.reply (.value (.string hex))) ∧ UInt256.fromHexBE hex = some genesis ∧
    UInt256.fromHexBE network.genesisHash = some genesis

/-- What is known of the state that is returned. -/
structure Started (seen : StartupEvent → Prop) (network : NetworkRow)
    (connection : RpcConnectionSettings) (address : Text) (state : StartupRpcState) : Prop where
  connected : Connected seen connection 3 ⟨state.credentials, state.rpc⟩
  identified : Identified seen network
  address : address ≠ []
  answer : ∃ v, seen (.reply (.value v)) ∧ CanonicalAnswer v state.payoutScript

/-- What each position of an attempt has established. -/
def StartupOk (seen : StartupEvent → Prop) (network : NetworkRow)
    (connection : RpcConnectionSettings) (address : Text) (s : StartupState) : Prop :=
  match s.pc with
  | .construct credentials => ∃ file, seen (.cookie file) ∧
      FindsCookie file credentials.basicAuth
  | .callInfo c => Connected seen connection 0 c
  | .callGenesis c blockchain => Connected seen connection 1 c ∧
      ∃ v, seen (.reply (.value v)) ∧ parseBlockchainInfo v = .ok blockchain
  | .callValidate c => Connected seen connection 2 c ∧ Identified seen network ∧ address ≠ []
  | .returned state => Started seen network connection address state
  | .stopped => raised s.cancelled = true
  | .threw e => ∀ what, e ≠ .rpc what
  | _ => True

theorem RpcReply.result_ok (r : RpcReply) (v : Json) : r.result = .ok v ↔ r = .value v := by
  cases r with
  | value w => simp only [RpcReply.result, Except.ok.injEq, RpcReply.value.injEq]
  | _ => simp only [RpcReply.result, reduceCtorEq]

/-- The loop tries again, or was stopped by the flag. -/
def Waiting (s : StartupState) : Prop :=
  match s.pc with
  | .loadCancelled | .readCookie | .construct _ | .callInfo _ | .sleeping _ => True
  | .stopped => raised s.cancelled = true
  | _ => False

theorem Waiting.raise (s : StartupState) (h : Waiting s) :
    Waiting { s with cancelled := some true } := by
  rw [Waiting] at h ⊢
  cases hpc : s.pc with
  | stopped => rfl
  | loadCancelled | readCookie | construct _ | callInfo _ | sleeping _ => simp only
  | _ => simp only [hpc] at h

section

variable (seen seen' : StartupEvent → Prop) (network : NetworkRow)
  (connection : RpcConnectionSettings) (address : Text)

theorem Connected.mono (requests : UInt64) (c : RpcState)
    (hseen : ∀ e, seen e → seen' e) (h : Connected seen connection requests c) :
    Connected seen' connection requests c := by
  rcases h.cookie with ⟨file, hfile, hfinds⟩
  exact ⟨⟨file, hseen _ hfile, hfinds⟩, h.client, h.url⟩

theorem Identified.mono (hseen : ∀ e, seen e → seen' e) (h : Identified seen network) :
    Identified seen' network := by
  rcases h with ⟨chainReply, info, hex, genesis, hchain, hinfo, hname, hhash, hread, hgenesis⟩
  exact ⟨chainReply, info, hex, genesis, hseen _ hchain, hinfo, hname, hseen _ hhash, hread,
    hgenesis⟩

theorem Started.mono (state : StartupRpcState) (hseen : ∀ e, seen e → seen' e)
    (h : Started seen network connection address state) :
    Started seen' network connection address state := by
  rcases h with ⟨hconnected, hidentified, haddress, v, hv, hanswer⟩
  exact ⟨hconnected.mono seen seen' connection 3 _ hseen, hidentified.mono seen seen' network hseen,
    haddress, v, hseen _ hv, hanswer⟩

/-- More may have been seen. -/
theorem StartupOk.mono (s : StartupState) (hseen : ∀ e, seen e → seen' e)
    (h : StartupOk seen network connection address s) :
    StartupOk seen' network connection address s := by
  rw [StartupOk] at h ⊢
  cases hpc : s.pc with
  | construct credentials =>
      simp only [hpc] at h
      rcases h with ⟨file, hfile, hfinds⟩
      exact ⟨file, hseen _ hfile, hfinds⟩
  | callInfo c =>
      simp only [hpc] at h
      exact h.mono seen seen' connection 0 c hseen
  | callGenesis c blockchain =>
      simp only [hpc] at h
      rcases h with ⟨hconnected, v, hv, hparse⟩
      exact ⟨hconnected.mono seen seen' connection 1 c hseen, v, hseen _ hv, hparse⟩
  | callValidate c =>
      simp only [hpc] at h
      exact ⟨h.1.mono seen seen' connection 2 c hseen, h.2.1.mono seen seen' network hseen, h.2.2⟩
  | returned state =>
      simp only [hpc] at h
      exact h.mono seen seen' network connection address state hseen
  | _ =>
      simp only [hpc] at h
      exact h

theorem Connected.nextRequest (requests : UInt64) (c : RpcState)
    (h : Connected seen connection requests c) :
    Connected seen connection (requests + 1) c.nextRequest :=
  ⟨h.cookie, by rw [RpcState.nextRequest, h.client]; rfl, h.url⟩

/-- A statement of an attempt: its exception leads out of it. -/
theorem complete_ok {α : Type} (s : StartupState) (result : Except LoopException α)
    (next : α → StartupPc)
    (h : ∀ value, result = .ok value →
      StartupOk seen network connection address (s.goto (next value))) :
    StartupOk seen network connection address (s.complete result next) := by
  cases result with
  | ok value => exact h value rfl
  | error e =>
      cases e with
      | rpcCancelled | rpc _ => trivial
      | other what =>
          intro text
          simp only [ne_eq, reduceCtorEq, not_false_eq_true]

/-- The node's chain was fetched and is the network's, and its first block. -/
theorem startupGenesis_ok (chainReply : Json) (blockchain : BlockchainInfo) (r : RpcReply)
    (hchain : seen (.reply (.value chainReply)))
    (hparse : parseBlockchainInfo chainReply = .ok blockchain) (hreply : seen (.reply r)) (u : Unit)
    (h : startupGenesis network blockchain r = .ok u) : Identified seen network := by
  unfold startupGenesis at h
  simp only [bind_ok, mapError_ok, validateNetworkIdentity_ok, RpcReply.result_ok] at h
  rcases h with ⟨value, hvalue, genesis, hgenesis, hname, hexpected⟩
  rw [hvalue] at hreply
  cases value with
  | string hex =>
      simp only [parseRpcHash] at hgenesis
      cases hread : UInt256.fromHexBE hex with
      | none => exact absurd hgenesis (by simp only [hread, reduceCtorEq, not_false_eq_true])
      | some hash =>
          simp only [hread, Except.ok.injEq] at hgenesis
          rw [hgenesis] at hread
          exact ⟨chainReply, blockchain, hex, genesis, hchain, hparse, hname, hreply, hread,
            hexpected⟩
  | _ => exact absurd hgenesis (by simp only [parseRpcHash, reduceCtorEq, not_false_eq_true])

theorem startupScript_ok (r : RpcReply) (script : Bytes) (hreply : seen (.reply r))
    (h : startupScript r = .ok script) :
    ∃ v, seen (.reply (.value v)) ∧ CanonicalAnswer v script := by
  unfold startupScript at h
  simp only [bind_ok, mapError_ok, RpcReply.result_ok] at h
  rcases h with ⟨value, hvalue, hscript⟩
  rw [hvalue] at hreply
  exact ⟨value, hreply, (parsePayout_ok_iff value script).mp hscript⟩

/-- A pause is cut short only at a raised flag. -/
theorem sleepSlice_none (cancelled : Flag) (remaining : Nat)
    (h : sleepSlice cancelled remaining = none) : raised cancelled = true := by
  by_contra hflag
  unfold sleepSlice at h
  rw [if_neg hflag] at h
  exact absurd h (by simp only [reduceCtorEq, not_false_eq_true])

/-- Every step keeps the invariant, once its event was seen. -/
theorem startupStep_ok (s s' : StartupState) (e : StartupEvent) (hseen : seen e)
    (hok : StartupOk seen network connection address s)
    (h : startupStep network connection address s e = some s') :
    StartupOk seen network connection address s' := by
  revert h
  fun_cases startupStep network connection address s e with
  | case1 _ hflag | case8 _ hflag =>
      intro heq
      cases heq
      exact hflag
  | case2 | case10 | case12 =>
      intro heq
      cases heq
      exact trivial
  | case3 file hpc =>
      intro heq
      cases heq
      refine complete_ok seen network connection address s _ _ fun credentials hread => ?_
      rw [mapError_ok, fromCookieFile_ok] at hread
      exact ⟨file, hseen, hread⟩
  | case4 credentials failure hpc =>
      intro heq
      cases heq
      rw [StartupOk, hpc] at hok
      refine complete_ok seen network connection address s _ _ fun rpc hrpc => ?_
      rw [mapError_ok, construct_ok] at hrpc
      exact ⟨hok, hrpc.2.2, hrpc.1⟩
  | case5 connected r hpc =>
      intro heq
      cases heq
      rw [StartupOk, hpc] at hok
      refine complete_ok seen network connection address s _ _ fun blockchain hinfo => ?_
      unfold fetchInfo at hinfo
      simp only [bind_ok, mapError_ok, RpcReply.result_ok] at hinfo
      rcases hinfo with ⟨value, rfl, hparse⟩
      exact ⟨hok.nextRequest seen connection 0 connected, value, hseen, hparse⟩
  | case6 connected blockchain r hpc =>
      intro heq
      cases heq
      rw [StartupOk, hpc] at hok
      rcases hok with ⟨hconnected, chainReply, hchain, hparse⟩
      refine complete_ok seen network connection address s _ _ fun next hnext => ?_
      rcases (bind_ok _ _ _).mp hnext with ⟨u, hgenesis, haddress⟩
      unfold startupAddress at haddress
      by_cases hempty : address = []
      · rw [if_pos hempty] at haddress
        exact absurd haddress (by simp only [reduceCtorEq, not_false_eq_true])
      · rw [if_neg hempty, Except.ok.injEq] at haddress
        rw [← haddress]
        exact ⟨hconnected.nextRequest seen connection 1 connected,
          startupGenesis_ok seen network chainReply blockchain r hchain hparse hseen u hgenesis,
          hempty⟩
  | case7 connected r hpc =>
      intro heq
      cases heq
      rw [StartupOk, hpc] at hok
      rcases hok with ⟨hconnected, hidentified, haddress⟩
      refine complete_ok seen network connection address s _ _ fun script hscript => ?_
      exact ⟨hconnected.nextRequest seen connection 2 connected, hidentified, haddress,
        startupScript_ok seen r script hseen hscript⟩
  | case9 =>
      intro heq
      cases heq
      intro what
      simp only [ne_eq, reduceCtorEq, not_false_eq_true]
  | case11 remaining _ _ hslice =>
      intro heq
      cases heq
      exact sleepSlice_none s.cancelled remaining hslice
  | case13 =>
      intro heq
      exact absurd heq (by simp only [reduceCtorEq, not_false_eq_true])

/-- A raised flag does not undo what was established. -/
theorem StartupOk.raise (s : StartupState) (h : StartupOk seen network connection address s) :
    StartupOk seen network connection address { s with cancelled := some true } := by
  rw [StartupOk] at h ⊢
  cases hpc : s.pc with
  | stopped => rfl
  | loadCancelled | readCookie | caughtCancelled | sleeping _ => simp only
  | _ =>
      simp only [hpc] at h ⊢
      exact h

/-- The loop only reads the flag. -/
theorem startupStep_cancelled (s s' : StartupState) (e : StartupEvent)
    (h : startupStep network connection address s e = some s') : s'.cancelled = s.cancelled := by
  have hcomplete {α : Type} (result : Except LoopException α) (next : α → StartupPc) :
      (s.complete result next).cancelled = s.cancelled := by
    cases result with
    | ok value => rfl
    | error exn =>
        cases exn with
        | rpcCancelled | rpc _ | other _ => rfl
  revert h
  fun_cases startupStep network connection address s e with
  | case3 | case4 | case5 | case6 | case7 =>
      intro heq
      cases heq
      exact hcomplete _ _
  | case13 =>
      intro heq
      exact absurd heq (by simp only [reduceCtorEq, not_false_eq_true])
  | _ =>
      intro heq
      cases heq
      rfl

end

end MercaMiner
