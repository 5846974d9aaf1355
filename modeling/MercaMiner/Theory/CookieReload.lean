import MercaMiner.Core.RpcConnection

/-!
# Reloading the Cookie

The stored credentials and the RPC client stay in step, whatever becomes of
the cookie file.

Everything in a reload that can fail comes before the two assignments: the
file is opened, the cookie is checked, and the new client is constructed in a
variable of its own. So an attempt that throws leaves both objects alone, one
that finds the stored cookie again does too, and any other replaces both by
the new cookie. The client only ever holds the stored credentials and the
configured URL, over every sequence of attempts and calls.

## Main definitions

* `WellFormedCookie`: A user, a colon and a remainder.
* `cookieText`: The cookie in the contents of a file.
* `InStep`: The client uses the stored credentials and the configured URL.
* `AttemptOutcome`: What one attempt does.
* `RpcAction`, `runRpc`: A sequence of attempts and calls.

## Theorems

* `cookieMalformed_iff`: Which cookies are rejected.
* `fromCookieFile_ok`, `fromCookieFile_error`: What the reader returns and throws.
* `reload_eq`: A reload by its three results.
* `reload_outcome`: What one attempt does.
* `tryReload_returns`: The mining loop's attempt never throws.
* `cookie_reload`: Every attempt of every sequence.
-/

namespace MercaMiner

open Outcome

/-- A non-empty user without a colon, a colon and a non-empty remainder. -/
def WellFormedCookie (cookie : Text) : Prop :=
  ∃ user remainder, cookie = user ++ ':'.toUInt8 :: remainder ∧ ':'.toUInt8 ∉ user ∧
    user ≠ [] ∧ remainder ≠ []

/-- The first line of a file without line endings. -/
def cookieText (contents : Text) : Text :=
  trimLineEnding (getline contents)

theorem idxOf?_separator (user remainder : Text) (h : ':'.toUInt8 ∉ user) :
    (user ++ ':'.toUInt8 :: remainder).idxOf? ':'.toUInt8 = some user.length := by
  have hnone : user.idxOf? ':'.toUInt8 = none := List.idxOf?_eq_none_iff.mpr h
  unfold List.idxOf? at hnone ⊢
  rw [List.findIdx?_append, hnone, Option.none_or, List.findIdx?_cons, if_pos (beq_self_eq_true _),
    Option.map_some, Nat.zero_add]

/-- The test of the separator rejects exactly the cookies that are not well
    formed. -/
theorem cookieMalformed_iff (cookie : Text) :
    cookieMalformed cookie = true ↔ ¬WellFormedCookie cookie := by
  unfold cookieMalformed
  constructor
  · intro h hwell
    rcases hwell with ⟨user, remainder, heq, hcolon, huser, hremainder⟩
    rw [heq, idxOf?_separator user remainder hcolon] at h
    simp only [List.length_append, List.length_cons, Bool.or_eq_true, beq_iff_eq,
      decide_eq_true_eq] at h
    have hu := List.length_pos_iff.mpr huser
    have hr := List.length_pos_iff.mpr hremainder
    omega
  · intro h
    cases hfind : cookie.idxOf? ':'.toUInt8 with
    | none => rfl
    | some separator =>
        by_contra hgood
        simp only [Bool.or_eq_true, beq_iff_eq, decide_eq_true_eq, not_or] at hgood
        rcases List.idxOf?_eq_some_iff.mp hfind with ⟨hlt, hcolon, hbefore⟩
        refine h ⟨cookie.take separator, cookie.drop (separator + 1), ?_, ?_, ?_, ?_⟩
        · have hcons := List.drop_eq_getElem_cons hlt
          rw [hcolon] at hcons
          rw [← hcons, List.take_append_drop]
        · -- The first colon is the one found.
          intro hmem
          rcases List.mem_take_iff_getElem.mp hmem with ⟨j, hj, heq⟩
          exact hbefore j (by omega) heq
        · exact List.length_pos_iff.mp (by rw [List.length_take]; omega)
        · exact List.length_pos_iff.mp (by rw [List.length_drop]; omega)

/-- The cookie an attempt finds, if the file is there and its cookie is well
    formed. -/
def FindsCookie (file : Option Text) (cookie : Text) : Prop :=
  ∃ contents, file = some contents ∧ cookieText contents = cookie ∧ WellFormedCookie cookie

theorem FindsCookie.unique (file : Option Text) (cookie cookie' : Text)
    (h : FindsCookie file cookie) (h' : FindsCookie file cookie') : cookie = cookie' := by
  rcases h with ⟨contents, hfile, htext, _⟩
  rcases h' with ⟨contents', hfile', htext', _⟩
  rw [hfile, Option.some.injEq] at hfile'
  rw [← htext, ← htext', hfile']

/-- The reader returns the well-formed cookie it finds. -/
theorem fromCookieFile_ok (path : Text) (file : Option Text) (credentials : RpcCredentials) :
    RpcCredentials.fromCookieFile path file = .ok credentials ↔
      FindsCookie file credentials.basicAuth := by
  unfold RpcCredentials.fromCookieFile FindsCookie
  cases file with
  | none => simp only [reduceCtorEq, false_and, exists_false]
  | some contents =>
      simp only [bind_ok, check_ok, pure_ok, exists_const, cookieMalformed_iff, not_not,
        Option.some.injEq]
      constructor
      · intro h
        rw [← h.2]
        exact ⟨contents, rfl, rfl, h.1⟩
      · intro h
        rcases h with ⟨contents', rfl, htext, hwell⟩
        have heq : trimLineEnding (getline contents) = credentials.basicAuth := htext
        rw [heq]
        exact ⟨hwell, rfl⟩

/-- It throws with one of two texts otherwise. -/
theorem fromCookieFile_error (path : Text) (file : Option Text) (e : RpcFailure) :
    RpcCredentials.fromCookieFile path file = .error e ↔
      (file = none ∧ e = .rpcException (text "Unable to open RPC cookie file: " ++ path) none) ∨
      ∃ contents, file = some contents ∧ ¬WellFormedCookie (cookieText contents) ∧
        e = .rpcException (text "Malformed RPC cookie file: " ++ path) none := by
  unfold RpcCredentials.fromCookieFile
  cases file with
  | none =>
      simp only [Except.error.injEq, true_and, reduceCtorEq, false_and, exists_false, or_false]
      exact eq_comm
  | some contents =>
      simp only [bind_error, check_error, pure_error, and_false, exists_false, or_false,
        cookieMalformed_iff, not_not, reduceCtorEq, false_and, false_or, Option.some.injEq]
      constructor
      · intro h
        exact ⟨contents, rfl, h.1, h.2.symm⟩
      · intro h
        rcases h with ⟨contents', rfl, hbad, he⟩
        exact ⟨hbad, he.symm⟩

/-- The constructor succeeds with a URL and an initialised library. -/
theorem construct_ok (curl : Option Text) (url : Text) (credentials : RpcCredentials)
    (rpc : RpcClient) :
    RpcClient.construct curl url credentials = .ok rpc ↔
      url ≠ [] ∧ curl = none ∧ rpc = ⟨url, credentials, 0⟩ := by
  unfold RpcClient.construct
  simp only [bind_ok, check_ok, pure_ok, exists_const]
  cases curl with
  | none =>
      simp only [ensureCurlInitialized, exists_const, true_and]
      exact and_congr_right fun _ => eq_comm
  | some reason => simp only [ensureCurlInitialized, reduceCtorEq, false_and, exists_false]

/-- A sequence of two computations: the second starts with what the first left
    behind, unless that one threw. -/
theorem reloadM_bind {α β : Type} (x : ReloadM α) (f : α → ReloadM β) (s : RpcState) :
    (x >>= f : ReloadM β) s = match x s with
      | (.error e, s') => (.error e, s')
      | (.ok a, s') => f a s' := by
  simp only [bind, ExceptT.bind, ExceptT.mk, StateT.bind]
  rcases x s with ⟨_ | _, _⟩ <;> rfl

theorem reloadM_lift_bind {α β : Type} (result : Except RpcFailure α) (f : α → ReloadM β)
    (s : RpcState) :
    (ReloadM.lift result >>= f : ReloadM β) s = match result with
      | .error e => (.error e, s)
      | .ok a => f a s := by
  rw [reloadM_bind]
  cases result <;> rfl

/-- A reload by what the reader and the constructor return. -/
theorem reload_eq (curl : Option Text) (connection : RpcConnectionSettings)
    (file : Option Text) (s : RpcState) :
    reloadRpcClientFromCookie curl connection file s =
      match RpcCredentials.fromCookieFile connection.cookieFile file with
      | .error e => (.error e, s)
      | .ok refreshed =>
          if refreshed.basicAuth = s.credentials.basicAuth then (.ok false, s)
          else match RpcClient.construct curl connection.rpcUrl refreshed with
            | .error e => (.error e, s)
            | .ok rpc => (.ok true, ⟨refreshed, rpc⟩) := by
  unfold reloadRpcClientFromCookie
  rw [reloadM_lift_bind]
  cases RpcCredentials.fromCookieFile connection.cookieFile file with
  | error e => rfl
  | ok refreshed =>
      simp only [reloadM_bind]
      change (if refreshed.basicAuth = s.credentials.basicAuth then _ else _ : ReloadM Bool) s = _
      by_cases hsame : refreshed.basicAuth = s.credentials.basicAuth
      · rw [if_pos hsame, if_pos hsame]
        rfl
      · rw [if_neg hsame, if_neg hsame, reloadM_lift_bind]
        cases RpcClient.construct curl connection.rpcUrl refreshed with
        | error e => rfl
        | ok rpc => rfl

/-- A file has no well-formed cookie when it is missing or its cookie lacks a
    part. -/
theorem not_findsCookie_iff (file : Option Text) :
    (∀ cookie, ¬FindsCookie file cookie) ↔
      file = none ∨ ∃ contents, file = some contents ∧ ¬WellFormedCookie (cookieText contents) := by
  constructor
  · intro h
    cases file with
    | none => exact Or.inl rfl
    | some contents =>
        refine Or.inr ⟨contents, rfl, fun hwell => ?_⟩
        exact h (cookieText contents) ⟨contents, rfl, rfl, hwell⟩
  · intro h cookie hfinds
    rcases hfinds with ⟨contents, hfile, htext, hwell⟩
    rcases h with hnone | ⟨contents', hfile', hbad⟩
    · rw [hfile] at hnone
      exact absurd hnone (by simp only [reduceCtorEq, not_false_eq_true])
    · rw [hfile, Option.some.injEq] at hfile'
      rw [← hfile', htext] at hbad
      exact hbad hwell

/-- What one attempt does, by what it finds. -/
structure AttemptOutcome (connection : RpcConnectionSettings) (file : Option Text)
    (s : RpcState) (result : Except RpcFailure Bool) (s' : RpcState) : Prop where
  throws : (∃ e, result = .error e) ↔
    file = none ∨ ∃ contents, file = some contents ∧ ¬WellFormedCookie (cookieText contents)
  thrown : ∀ e, result = .error e → s' = s
  same : result = .ok false ↔ FindsCookie file s.credentials.basicAuth
  kept : result = .ok false → s' = s
  rotated : result = .ok true ↔ ∃ cookie, FindsCookie file cookie ∧
    cookie ≠ s.credentials.basicAuth
  replaced : result = .ok true → ∀ cookie, FindsCookie file cookie →
    s' = ⟨⟨cookie⟩, ⟨connection.rpcUrl, ⟨cookie⟩, 0⟩⟩

theorem reload_outcome (connection : RpcConnectionSettings) (hurl : connection.rpcUrl ≠ [])
    (file : Option Text) (s : RpcState) :
    AttemptOutcome connection file s (reloadRpcClientFromCookie none connection file s).1
      (reloadRpcClientFromCookie none connection file s).2 := by
  rw [reload_eq]
  cases hread : RpcCredentials.fromCookieFile connection.cookieFile file with
  | error e =>
      have hno : ∀ cookie, ¬FindsCookie file cookie := by
        intro cookie hfinds
        rw [(fromCookieFile_ok connection.cookieFile file ⟨cookie⟩).mpr hfinds] at hread
        exact absurd hread (by simp only [reduceCtorEq, not_false_eq_true])
      exact {
        throws := iff_of_true ⟨e, rfl⟩ ((not_findsCookie_iff file).mp hno)
        thrown := fun _ _ => rfl
        same := iff_of_false (by simp only [reduceCtorEq, not_false_eq_true]) (hno _)
        kept := fun _ => rfl
        rotated := iff_of_false (by simp only [reduceCtorEq, not_false_eq_true])
          fun ⟨cookie, hfinds, _⟩ => hno cookie hfinds
        replaced := fun _ cookie hfinds => absurd hfinds (hno cookie) }
  | ok refreshed =>
      have hfinds := (fromCookieFile_ok connection.cookieFile file refreshed).mp hread
      have hfound : ¬(file = none ∨
          ∃ contents, file = some contents ∧ ¬WellFormedCookie (cookieText contents)) := by
        intro h
        exact (not_findsCookie_iff file).mpr h refreshed.basicAuth hfinds
      by_cases hsame : refreshed.basicAuth = s.credentials.basicAuth
      · simp only [if_pos hsame]
        exact {
          throws := iff_of_false (by simp only [reduceCtorEq, exists_false, not_false_eq_true])
            hfound
          thrown := fun _ _ => rfl
          same := iff_of_true rfl (hsame ▸ hfinds)
          kept := fun _ => rfl
          rotated := iff_of_false (by simp only [Except.ok.injEq, Bool.false_eq_true,
              not_false_eq_true])
            fun ⟨cookie, hcookie, hne⟩ => hne ((hcookie.unique _ _ _ hfinds).trans hsame)
          replaced := fun h => absurd h (by simp only [Except.ok.injEq, Bool.false_eq_true,
            not_false_eq_true]) }
      · -- The new client is constructed before anything is assigned.
        have hnew := (construct_ok none connection.rpcUrl refreshed
          ⟨connection.rpcUrl, refreshed, 0⟩).mpr ⟨hurl, rfl, rfl⟩
        simp only [if_neg hsame, hnew]
        exact {
          throws := iff_of_false (by simp only [reduceCtorEq, exists_false, not_false_eq_true])
            hfound
          thrown := fun e h => absurd h (by simp only [reduceCtorEq, not_false_eq_true])
          same := iff_of_false (by simp only [Except.ok.injEq, Bool.true_eq_false,
              not_false_eq_true])
            fun h => hsame (hfinds.unique _ _ _ h)
          kept := fun h => absurd h (by simp only [Except.ok.injEq, Bool.true_eq_false,
            not_false_eq_true])
          rotated := iff_of_true rfl ⟨refreshed.basicAuth, hfinds, hsame⟩
          replaced := fun _ cookie hcookie => by rw [← hfinds.unique _ _ _ hcookie] }

theorem construct_rpcException (curl : Option Text) (url : Text) (credentials : RpcCredentials)
    (e : RpcFailure) (h : RpcClient.construct curl url credentials = .error e) :
    ∃ what, e = .rpcException what none := by
  unfold RpcClient.construct at h
  simp only [bind_error, check_error, pure_error, and_false, exists_false, or_false,
    exists_and_right] at h
  rcases h with ⟨_, he⟩ | ⟨_, hcurl⟩
  · exact ⟨_, he.symm⟩
  · cases curl with
    | none => exact absurd hcurl (by simp only [ensureCurlInitialized, reduceCtorEq,
        not_false_eq_true])
    | some reason =>
        simp only [ensureCurlInitialized, Except.error.injEq] at hcurl
        exact ⟨_, hcurl.symm⟩

/-- Whatever a reload throws is an `RpcException`. -/
theorem reload_rpcException (curl : Option Text) (connection : RpcConnectionSettings)
    (file : Option Text) (s : RpcState) (e : RpcFailure)
    (h : (reloadRpcClientFromCookie curl connection file s).1 = .error e) :
    ∃ what, e = .rpcException what none := by
  rw [reload_eq] at h
  cases hread : RpcCredentials.fromCookieFile connection.cookieFile file with
  | error d =>
      simp only [hread, Except.error.injEq] at h
      rw [← h]
      rcases (fromCookieFile_error connection.cookieFile file d).mp hread with ⟨_, hd⟩ | hbad
      · exact ⟨_, hd⟩
      · rcases hbad with ⟨_, _, _, hd⟩
        exact ⟨_, hd⟩
  | ok refreshed =>
      simp only [hread] at h
      by_cases hsame : refreshed.basicAuth = s.credentials.basicAuth
      · simp only [if_pos hsame, reduceCtorEq] at h
      · simp only [if_neg hsame] at h
        cases hnew : RpcClient.construct curl connection.rpcUrl refreshed with
        | ok rpc => simp only [hnew, reduceCtorEq] at h
        | error d =>
            simp only [hnew, Except.error.injEq] at h
            rw [← h]
            exact construct_rpcException curl connection.rpcUrl refreshed d hnew

/-- So the mining loop's attempt never throws, and leaves behind what the
    reload leaves behind. -/
theorem tryReload_returns (curl : Option Text) (connection : RpcConnectionSettings)
    (file : Option Text) (s : RpcState) :
    ∃ printed, tryReloadRpcCookie curl connection file s =
      (.ok printed, (reloadRpcClientFromCookie curl connection file s).2) := by
  have hthrown := reload_rpcException curl connection file s
  unfold tryReloadRpcCookie
  rcases hresult : reloadRpcClientFromCookie curl connection file s with ⟨e | changed, s'⟩
  · rcases hthrown e (by rw [hresult]) with ⟨what, rfl⟩
    exact ⟨_, rfl⟩
  · cases changed with
    | false => exact ⟨_, rfl⟩
    | true => exact ⟨_, rfl⟩

/-- The client uses the stored credentials and the configured URL. -/
structure InStep (connection : RpcConnectionSettings) (s : RpcState) : Prop where
  credentials : s.rpc.credentials = s.credentials
  url : s.rpc.url = connection.rpcUrl

/-- An attempt, with what it finds under the path, or a call of the client. -/
inductive RpcAction where
  | reload (file : Option Text)
  | call

/-- What an action leaves behind. The exception of an attempt is caught. -/
def RpcAction.perform (curl : Option Text) (connection : RpcConnectionSettings) (s : RpcState) :
    RpcAction → RpcState
  | .reload file => (reloadRpcClientFromCookie curl connection file s).2
  | .call => { s with rpc := s.rpc.nextRequest }

def runRpc (curl : Option Text) (connection : RpcConnectionSettings) (s : RpcState)
    (acts : List RpcAction) : RpcState :=
  acts.foldl (fun s a => a.perform curl connection s) s

/-- An action keeps the two objects in step. -/
theorem perform_inStep (connection : RpcConnectionSettings) (hurl : connection.rpcUrl ≠ [])
    (s : RpcState) (a : RpcAction) (h : InStep connection s) :
    InStep connection (a.perform none connection s) := by
  cases a with
  | call => exact ⟨h.credentials, h.url⟩
  | reload file =>
      have houtcome := reload_outcome connection hurl file s
      change InStep connection (reloadRpcClientFromCookie none connection file s).2
      cases hresult : (reloadRpcClientFromCookie none connection file s).1 with
      | error e =>
          rw [houtcome.thrown e hresult]
          exact h
      | ok changed =>
          cases changed with
          | false =>
              rw [houtcome.kept hresult]
              exact h
          | true =>
              rcases houtcome.rotated.mp hresult with ⟨cookie, hfinds, _⟩
              rw [houtcome.replaced hresult cookie hfinds]
              exact ⟨rfl, rfl⟩

theorem runRpc_inStep (connection : RpcConnectionSettings) (hurl : connection.rpcUrl ≠ [])
    (acts : List RpcAction) (s : RpcState) (h : InStep connection s) :
    InStep connection (runRpc none connection s acts) := by
  induction acts generalizing s with
  | nil => exact h
  | cons a acts ih => exact ih _ (perform_inStep connection hurl s a h)

/-- From a client built from the stored credentials, with the library
    initialised and a URL the constructor accepted: after any sequence of
    attempts and calls the two objects are in step, and the next attempt
    throws and changes nothing, keeps both because it finds the stored cookie,
    or replaces both by the cookie it finds, and leaves them in step again. -/
theorem cookie_reload (curl : Option Text) (connection : RpcConnectionSettings)
    (credentials : RpcCredentials) (rpc : RpcClient)
    (hstart : RpcClient.construct curl connection.rpcUrl credentials = .ok rpc)
    (acts : List RpcAction) (file : Option Text) :
    let s := runRpc curl connection ⟨credentials, rpc⟩ acts
    let attempt := reloadRpcClientFromCookie curl connection file s
    InStep connection s ∧ AttemptOutcome connection file s attempt.1 attempt.2 ∧
      InStep connection attempt.2 := by
  rcases (construct_ok curl connection.rpcUrl credentials rpc).mp hstart with ⟨hurl, rfl, rfl⟩
  have hs := runRpc_inStep connection hurl acts ⟨credentials, connection.rpcUrl, credentials, 0⟩
    ⟨rfl, rfl⟩
  exact ⟨hs, reload_outcome connection hurl file _,
    perform_inStep connection hurl _ (.reload file) hs⟩

/-- The connection and the first cookie of the rotation test. -/
def rotationConnection : RpcConnectionSettings :=
  ⟨text "http://127.0.0.1:27773", text "mercaminer_rpc_connection_test.cookie"⟩

def rotationCredentials : RpcCredentials :=
  ⟨text "__cookie__:token-a"⟩

/-- The rotation test: a new cookie is taken over, and once the file is gone
    an attempt throws and keeps it. -/
theorem cookie_reload_rotation :
    let s := runRpc none rotationConnection
      ⟨rotationCredentials, rotationConnection.rpcUrl, rotationCredentials, 0⟩
      [.reload (some (text "__cookie__:token-b\n")), .call]
    let attempt := reloadRpcClientFromCookie none rotationConnection none s
    s.credentials.basicAuth = text "__cookie__:token-b" ∧ InStep rotationConnection s ∧
      (∃ e, attempt.1 = .error e) ∧ attempt.2 = s := by
  have h := cookie_reload none rotationConnection rotationCredentials
    ⟨rotationConnection.rpcUrl, rotationCredentials, 0⟩ rfl
    [.reload (some (text "__cookie__:token-b\n")), .call] none
  rcases h with ⟨hs, houtcome, _⟩
  have hthrows := houtcome.throws.mpr (Or.inl rfl)
  refine ⟨by decide +kernel, hs, hthrows, ?_⟩
  rcases hthrows with ⟨e, he⟩
  exact houtcome.thrown e he

end MercaMiner
