import MercaMiner.Basis.Transition
import MercaMiner.Core.Longpoll
import MercaMiner.Theory.TemplateFacts

/-!
# The Watcher's Flags Agree with Its Status

The longpoll watcher with its owner and with readers of its flags, in every
interleaving.

The thread has four ways to its end, and the owner may ask it to stop between
any two of its steps. On every way the two decisions about the tip are stored
before the status, and the status before the refresh. So the invariant follows
the thread's position: which flags have their final values yet, which status
the thread is going to store, and whether it will ask for a refresh.

## Main definitions

* `LongpollCall.replacement`: The template a call brought, if any.
* `finalTipChanged`, `finalHardCancel`: What the two flags end up as.
* `PublishedOk`: The invariant of the thread.
* `OwnerOk`: The invariant of the owner and the readers.

## Theorems

* `runStep_published`: The thread's steps keep the invariant.
* `beginCancel_eq_some`, `ownerStep_eq_some`, `ownedStep_read_eq_some`: What the
  other steps do.
* `ownedStep_ok`: So do all steps.
* `longpoll_coherent`: What holds once `Finish` has returned, and always.
-/

namespace MercaMiner

open Transition

/-- The template a call brought. -/
def LongpollCall.replacement : LongpollCall → Option BlockTemplate
  | .reply response => (parseBlockTemplate response).toOption
  | _ => none

def finalTipChanged (expected : UInt256) (call : LongpollCall) : Bool :=
  call.replacement.any fun t => longpollTemplateChangesTip expected t.previousBlockHash

def finalHardCancel (expected : UInt256) (call : LongpollCall) : Bool :=
  call.replacement.any fun t =>
    longpollTemplateInvalidatesOldWork expected t.previousBlockHash (t.submitOld.getD true)

/-- Both flags have their final values. -/
def FlagsFinal (expected : UInt256) (call : LongpollCall) (w : Watcher) : Prop :=
  w.tipChanged = finalTipChanged expected call ∧ w.hardCancel = finalHardCancel expected call

/-- What a status says about the call and the request to stop. -/
def EndsAs (call : LongpollCall) (cancelRequested : Bool) : LongpollStatus → Prop
  | .running => False
  | .templateChanged => call.replacement.isSome
  | .cancelled => cancelRequested = true
  | .rpcError => call.replacement = none

/-- What the thread's position says. -/
def PublishedOk (expected : UInt256) (call : LongpollCall) (w : Watcher) : Prop :=
  w.expectedPreviousBlockHash = expected ∧ match w.pc with
  | .calling => w.tipChanged = false ∧ w.hardCancel = false ∧
      w.refreshRequested = false ∧ w.status = .running
  | .storeTipChanged replacement => call.replacement = some replacement ∧
      w.refreshRequested = false ∧ w.status = .running
  | .storeHardCancel replacement => call.replacement = some replacement ∧
      w.tipChanged = finalTipChanged expected call ∧
      w.refreshRequested = false ∧ w.status = .running
  | .loadCancelRequested => FlagsFinal expected call w ∧ call.replacement.isSome ∧
      w.refreshRequested = false ∧ w.status = .running
  | .handleCancelled => FlagsFinal expected call w ∧ call.replacement = none ∧
      w.refreshRequested = false ∧ w.status = .running
  | .storeStatus status => FlagsFinal expected call w ∧ EndsAs call w.cancelRequested status ∧
      w.refreshRequested = false ∧ w.status = .running
  | .storeRefreshRequested => FlagsFinal expected call w ∧
      EndsAs call w.cancelRequested w.status ∧ w.status ≠ .cancelled ∧ w.refreshRequested = false
  | .returned => FlagsFinal expected call w ∧ EndsAs call w.cancelRequested w.status ∧
      (w.refreshRequested = true ↔ w.status ≠ .cancelled)

theorem finalFlags_none (expected : UInt256) (call : LongpollCall)
    (h : call.replacement = none) :
    finalTipChanged expected call = false ∧ finalHardCancel expected call = false := by
  rw [finalTipChanged, finalHardCancel, h]
  exact ⟨rfl, rfl⟩

theorem endsAs_cancel (call : LongpollCall) (cancelRequested : Bool) (status : LongpollStatus)
    (h : EndsAs call cancelRequested status) : EndsAs call true status := by
  cases status with
  | cancelled => rfl
  | _ => exact h

/-- The request to stop is read by the thread but never undoes anything. -/
theorem published_requestCancel (expected : UInt256) (call : LongpollCall) (w : Watcher)
    (h : PublishedOk expected call w) : PublishedOk expected call w.requestCancel := by
  rcases h with ⟨hexpected, hpc⟩
  refine ⟨hexpected, ?_⟩
  cases hw : w.pc with
  | storeStatus status =>
      simp only [hw, Watcher.requestCancel] at hpc ⊢
      exact ⟨hpc.1, endsAs_cancel call _ status hpc.2.1, hpc.2.2⟩
  | storeRefreshRequested | returned =>
      simp only [hw, Watcher.requestCancel] at hpc ⊢
      exact ⟨hpc.1, endsAs_cancel call _ w.status hpc.2.1, hpc.2.2⟩
  | _ =>
      simp only [hw, Watcher.requestCancel] at hpc ⊢
      exact hpc

/-- The thread's steps keep the invariant. -/
theorem runStep_published (expected : UInt256) (call : LongpollCall) (w w' : Watcher)
    (hok : PublishedOk expected call w) (h : runStep w call = some w') :
    PublishedOk expected call w' := by
  rcases hok with ⟨hexpected, hok⟩
  revert h
  fun_cases runStep w call with
  | case1 hpc response replacement hparse =>
      intro heq
      cases heq
      simp only [hpc] at hok
      refine ⟨hexpected, ?_, hok.2.2⟩
      rw [LongpollCall.replacement, hparse]
      rfl
  | case2 hpc response e hparse =>
      -- A reply that is no template is an error, and no flag was stored.
      intro heq
      cases heq
      simp only [hpc] at hok
      have hnone : (LongpollCall.reply response).replacement = none := by
        rw [LongpollCall.replacement, hparse]
        rfl
      rcases finalFlags_none expected _ hnone with ⟨htip, hhard⟩
      exact ⟨hexpected, ⟨hok.1.trans htip.symm, hok.2.1.trans hhard.symm⟩, hnone, hok.2.2⟩
  | case3 hpc =>
      intro heq
      cases heq
      simp only [hpc] at hok
      rcases finalFlags_none expected .rpcCancelled rfl with ⟨htip, hhard⟩
      exact ⟨hexpected, ⟨hok.1.trans htip.symm, hok.2.1.trans hhard.symm⟩, rfl, hok.2.2⟩
  | case4 hpc what =>
      intro heq
      cases heq
      simp only [hpc] at hok
      rcases finalFlags_none expected (.failed what) rfl with ⟨htip, hhard⟩
      exact ⟨hexpected, ⟨hok.1.trans htip.symm, hok.2.1.trans hhard.symm⟩, rfl, hok.2.2⟩
  | case5 _ replacement hpc =>
      intro heq
      cases heq
      simp only [hpc] at hok
      refine ⟨hexpected, hok.1, ?_, hok.2⟩
      rw [finalTipChanged, hok.1, Option.any_some, hexpected]
  | case6 _ replacement hpc =>
      intro heq
      cases heq
      simp only [hpc] at hok
      refine ⟨hexpected, ⟨hok.2.1, ?_⟩, Option.isSome_of_mem hok.1, hok.2.2⟩
      rw [finalHardCancel, hok.1, Option.any_some, hexpected]
  | case7 _ hpc hcancel =>
      intro heq
      cases heq
      simp only [hpc] at hok
      exact ⟨hexpected, hok.1, hcancel, hok.2.2⟩
  | case8 _ hpc hcancel =>
      intro heq
      cases heq
      simp only [hpc] at hok
      exact ⟨hexpected, hok.1, hok.2.1, hok.2.2⟩
  | case9 _ hpc hcancel =>
      intro heq
      cases heq
      simp only [hpc] at hok
      exact ⟨hexpected, hok.1, hcancel, hok.2.2⟩
  | case10 _ hpc hcancel =>
      -- Nobody asked for the cancellation, which makes it an error.
      intro heq
      cases heq
      simp only [hpc] at hok
      exact ⟨hexpected, hok.1, hok.2.1, hok.2.2⟩
  | case11 _ status hpc =>
      intro heq
      cases heq
      simp only [hpc] at hok
      rcases hok with ⟨hflags, hends, hrefresh, _⟩
      by_cases hcancelled : status = .cancelled
      · refine ⟨hexpected, ?_⟩
        simp only [if_pos hcancelled]
        exact ⟨hflags, hends, iff_of_false (by simp only [hrefresh, Bool.false_eq_true,
          not_false_eq_true]) (not_not.mpr hcancelled)⟩
      · refine ⟨hexpected, ?_⟩
        simp only [if_neg hcancelled]
        exact ⟨hflags, hends, hcancelled, hrefresh⟩
  | case12 _ hpc =>
      intro heq
      cases heq
      simp only [hpc] at hok
      exact ⟨hexpected, hok.1, hok.2.1, iff_of_true rfl hok.2.2.1⟩
  | case13 =>
      intro h
      exact absurd h (by simp only [reduceCtorEq, not_false_eq_true])

theorem runStep_cancelRequested (w w' : Watcher) (call : LongpollCall)
    (h : runStep w call = some w') : w'.cancelRequested = w.cancelRequested := by
  revert h
  fun_cases runStep w call with
  | case13 =>
      intro h
      exact absurd h (by simp only [reduceCtorEq, not_false_eq_true])
  | _ =>
      intro heq
      cases heq
      rfl

/-- A thread that has returned takes no step. -/
theorem runStep_moving (w w' : Watcher) (call : LongpollCall) (h : runStep w call = some w') :
    w.pc ≠ .returned := by
  intro hpc
  simp only [runStep, hpc, reduceCtorEq] at h

/-- The refresh is requested in the thread's last step. -/
theorem published_refresh (expected : UInt256) (call : LongpollCall) (w : Watcher)
    (hok : PublishedOk expected call w) (h : w.refreshRequested = true) :
    w.pc = .returned ∧ FlagsFinal expected call w := by
  rcases hok with ⟨_, hok⟩
  cases hpc : w.pc with
  | returned =>
      simp only [hpc] at hok
      exact ⟨rfl, hok.1⟩
  | _ =>
      simp only [hpc, h, Bool.true_eq_false, false_and, and_false] at hok

/-- What a flag reads as once the refresh was requested. -/
def settledValue (expected : UInt256) (call : LongpollCall) : WatcherFlag → Bool
  | .hardCancel => finalHardCancel expected call
  | .refreshRequested => true
  | .tipChanged => finalTipChanged expected call

/-- Whoever saw the refresh requested reads final values from then on. -/
def FinalAfter (expected : UInt256) (call : LongpollCall) (early late : WatcherFlag × Bool) :
    Prop :=
  early = (.refreshRequested, true) → late.2 = settledValue expected call late.1

/-- The invariant of the owner and the readers, after the given actions. -/
structure OwnerOk (expected : UInt256) (call : LongpollCall) (tr : List WatcherAction)
    (s : OwnedWatcher) : Prop where
  published : PublishedOk expected call s.watcher
  joined : s.joinable = false → s.watcher.pc = .returned
  loading : s.owner = .loadStatus → s.watcher.pc = .returned
  finished : ∀ status ∈ s.finished, s.watcher.pc = .returned ∧ status = s.watcher.status
  requested : s.watcher.cancelRequested = true → .beginFinish ∈ tr ∨ .beginDestructor ∈ tr
  seen : (.refreshRequested, true) ∈ s.reads → s.watcher.refreshRequested = true
  reads : s.reads.Pairwise (FinalAfter expected call)

theorem ownerOk_start (expected : UInt256) (call : LongpollCall) :
    OwnerOk expected call [] (OwnedWatcher.start expected) where
  published := ⟨rfl, rfl, rfl, rfl, rfl⟩
  joined := fun h => absurd h (by simp only [OwnedWatcher.start, Bool.true_eq_false,
    not_false_eq_true])
  loading := fun h => absurd h (by simp only [OwnedWatcher.start, reduceCtorEq,
    not_false_eq_true])
  finished := fun status h => absurd h List.not_mem_nil
  requested := fun h => absurd h Bool.false_ne_true
  seen := fun h => absurd h List.not_mem_nil
  reads := List.Pairwise.nil

/-- A call is begun between two calls, and asks the thread to stop. -/
theorem beginCancel_eq_some (s s' : OwnedWatcher) (destroying : Bool)
    (h : s.beginCancel destroying = some s') :
    s.owner = .idle ∧
      s' = { s with watcher := s.watcher.requestCancel, owner := .joining destroying } := by
  unfold OwnedWatcher.beginCancel at h
  by_cases hidle : s.owner = .idle
  · rw [if_pos hidle, Option.some.injEq] at h
    exact ⟨hidle, h.symm⟩
  · exact absurd h (by simp only [if_neg hidle, reduceCtorEq, not_false_eq_true])

/-- A join that need not wait, or the return statement. -/
theorem ownerStep_eq_some (s s' : OwnedWatcher) (h : s.ownerStep = some s') :
    (∃ destroying, s.owner = .joining destroying ∧
      (s.joinable = true → s.watcher.pc = .returned) ∧
      s' = { s with
        joinable := false
        owner := if destroying then .destroyed else .loadStatus }) ∨
    (s.owner = .loadStatus ∧
      s' = { s with finished := s.finished ++ [s.watcher.status], owner := .idle }) := by
  unfold OwnedWatcher.ownerStep at h
  cases howner : s.owner with
  | joining destroying =>
      simp only [howner] at h
      by_cases hwait : s.joinable = true ∧ s.watcher.pc ≠ .returned
      · exact absurd h (by simp only [if_pos hwait, reduceCtorEq, not_false_eq_true])
      · rw [if_neg hwait, Option.some.injEq] at h
        refine Or.inl ⟨destroying, rfl, fun hjoinable => ?_, h.symm⟩
        exact not_not.mp fun hne => hwait ⟨hjoinable, hne⟩
  | loadStatus =>
      simp only [howner, Option.some.injEq] at h
      exact Or.inr ⟨rfl, h.symm⟩
  | _ => exact absurd h (by simp only [howner, reduceCtorEq, not_false_eq_true])

/-- A flag is read while the watcher exists. -/
theorem ownedStep_read_eq_some (call : LongpollCall) (s s' : OwnedWatcher) (flag : WatcherFlag)
    (h : ownedStep call s (.read flag) = some s') :
    s.owner ≠ .destroyed ∧ s' = { s with reads := s.reads ++ [(flag, s.watcher.flag flag)] } := by
  simp only [ownedStep] at h
  by_cases hgone : s.owner = .destroyed
  · exact absurd h (by simp only [if_pos hgone, reduceCtorEq, not_false_eq_true])
  · rw [if_neg hgone, Option.some.injEq] at h
    exact ⟨hgone, h.symm⟩

section

variable (expected : UInt256) (call : LongpollCall) (tr : List WatcherAction)

theorem requested_snoc (a : WatcherAction) (h : .beginFinish ∈ tr ∨ .beginDestructor ∈ tr) :
    .beginFinish ∈ tr ++ [a] ∨ .beginDestructor ∈ tr ++ [a] :=
  h.imp (List.mem_append_left [a]) (List.mem_append_left [a])

/-- A step of the thread. It has not returned, so nothing was read or finished
    that the step could change. -/
theorem ownerOk_run (s : OwnedWatcher) (w : Watcher) (hok : OwnerOk expected call tr s)
    (h : runStep s.watcher call = some w) :
    OwnerOk expected call (tr ++ [.run]) { s with watcher := w } := by
  have hmoving := runStep_moving s.watcher w call h
  refine ⟨runStep_published expected call s.watcher w hok.published h,
    fun hj => absurd (hok.joined hj) hmoving, fun hl => absurd (hok.loading hl) hmoving,
    fun status hs => absurd (hok.finished status hs).1 hmoving, fun hc => ?_, fun hs => ?_,
    hok.reads⟩
  · rw [runStep_cancelRequested s.watcher w call h] at hc
    exact requested_snoc tr .run (hok.requested hc)
  · have hreturned := published_refresh expected call s.watcher hok.published (hok.seen hs)
    exact absurd hreturned.1 hmoving

/-- Beginning `Finish` or the destructor. -/
theorem ownerOk_beginCancel (s s' : OwnedWatcher) (destroying : Bool) (a : WatcherAction)
    (ha : a = .beginFinish ∨ a = .beginDestructor) (hok : OwnerOk expected call tr s)
    (h : s.beginCancel destroying = some s') : OwnerOk expected call (tr ++ [a]) s' := by
  rcases beginCancel_eq_some s s' destroying h with ⟨_, rfl⟩
  refine ⟨published_requestCancel expected call s.watcher hok.published, hok.joined,
    fun hl => absurd hl (by simp only [reduceCtorEq, not_false_eq_true]), hok.finished,
    fun _ => ?_, hok.seen, hok.reads⟩
  rcases ha with rfl | rfl
  · exact Or.inl (List.mem_append_right tr List.mem_cons_self)
  · exact Or.inr (List.mem_append_right tr List.mem_cons_self)

/-- A step of the owner: a join of a thread that has returned, or the return
    statement after it. -/
theorem ownerOk_owner (s s' : OwnedWatcher) (hok : OwnerOk expected call tr s)
    (h : s.ownerStep = some s') : OwnerOk expected call (tr ++ [.owner]) s' := by
  rcases ownerStep_eq_some s s' h with ⟨destroying, _, hjoin, rfl⟩ | ⟨hload, rfl⟩
  · -- Either the thread has returned now, or it had when it was joined.
    have hreturned : s.watcher.pc = .returned := by
      by_cases hjoinable : s.joinable = true
      · exact hjoin hjoinable
      · exact hok.joined (Bool.eq_false_iff.mpr hjoinable)
    exact ⟨hok.published, fun _ => hreturned, fun _ => hreturned, hok.finished,
      fun hc => requested_snoc tr .owner (hok.requested hc), hok.seen, hok.reads⟩
  · refine ⟨hok.published, hok.joined,
      fun hl => absurd hl (by simp only [reduceCtorEq, not_false_eq_true]),
      fun status hstatus => ?_, fun hc => requested_snoc tr .owner (hok.requested hc), hok.seen,
      hok.reads⟩
    rcases List.mem_append.mp hstatus with hold | hnew
    · exact hok.finished status hold
    · exact ⟨hok.loading hload, List.mem_singleton.mp hnew⟩

/-- A read. If the reader saw the refresh before, the flags are final. -/
theorem ownerOk_read (s : OwnedWatcher) (flag : WatcherFlag) (hok : OwnerOk expected call tr s) :
    OwnerOk expected call (tr ++ [.read flag])
      { s with reads := s.reads ++ [(flag, s.watcher.flag flag)] } := by
  refine ⟨hok.published, hok.joined, hok.loading, hok.finished,
    fun hc => requested_snoc tr (.read flag) (hok.requested hc), fun hs => ?_, ?_⟩
  · rcases List.mem_append.mp hs with hold | hnew
    · exact hok.seen hold
    · rw [List.mem_singleton, Prod.mk.injEq] at hnew
      rw [← hnew.1] at hnew
      exact hnew.2.symm
  · refine List.pairwise_append.mpr ⟨hok.reads, List.pairwise_singleton _ _, ?_⟩
    intro early hearly late hlate hrefresh
    rw [hrefresh] at hearly
    have hvalue := hok.seen hearly
    rcases published_refresh expected call s.watcher hok.published hvalue with
      ⟨_, htip, hhard⟩
    rw [List.mem_singleton.mp hlate]
    cases flag with
    | hardCancel => exact hhard
    | refreshRequested => exact hvalue
    | tipChanged => exact htip

/-- All steps keep the invariant. -/
theorem ownedStep_ok (s s' : OwnedWatcher) (a : WatcherAction) (hok : OwnerOk expected call tr s)
    (h : ownedStep call s a = some s') : OwnerOk expected call (tr ++ [a]) s' := by
  cases a with
  | run =>
      rcases Option.map_eq_some_iff.mp h with ⟨w, hw, rfl⟩
      exact ownerOk_run expected call tr s w hok hw
  | beginFinish => exact ownerOk_beginCancel expected call tr s s' false _ (Or.inl rfl) hok h
  | beginDestructor => exact ownerOk_beginCancel expected call tr s s' true _ (Or.inr rfl) hok h
  | owner => exact ownerOk_owner expected call tr s s' hok h
  | read flag =>
      rcases ownedStep_read_eq_some call s s' flag h with ⟨_, rfl⟩
      exact ownerOk_read expected call tr s flag hok

end

/-- Every reachable state satisfies the invariant. -/
theorem owned_reachable_ok (expected : UInt256) (call : LongpollCall)
    (acts : List WatcherAction) (s : OwnedWatcher)
    (hrun : run (ownedStep call) (OwnedWatcher.start expected) acts = some s) :
    OwnerOk expected call acts s :=
  run_trace_invariant (ownedStep call) (OwnerOk expected call) (OwnedWatcher.start expected)
    (ownerOk_start expected call)
    (fun tr t a t' _ hok ha => ownedStep_ok expected call tr t t' a hok ha) acts s hrun

/-- After the thread has returned, only the request to stop can still be
    stored. -/
theorem ownedStep_returned (call : LongpollCall) (s s' : OwnedWatcher) (a : WatcherAction)
    (hreturned : s.watcher.pc = .returned) (h : ownedStep call s a = some s') :
    s'.watcher = s.watcher ∨ s'.watcher = s.watcher.requestCancel := by
  cases a with
  | run =>
      rcases Option.map_eq_some_iff.mp h with ⟨w, hw, _⟩
      exact absurd hreturned (runStep_moving s.watcher w call hw)
  | beginFinish =>
      rcases beginCancel_eq_some s s' false h with ⟨_, rfl⟩
      exact Or.inr rfl
  | beginDestructor =>
      rcases beginCancel_eq_some s s' true h with ⟨_, rfl⟩
      exact Or.inr rfl
  | owner =>
      rcases ownerStep_eq_some s s' h with ⟨_, _, _, rfl⟩ | ⟨_, rfl⟩
      · exact Or.inl rfl
      · exact Or.inl rfl
  | read flag =>
      rcases ownedStep_read_eq_some call s s' flag h with ⟨_, rfl⟩
      exact Or.inl rfl

/-- The thread has returned and left the given variables. -/
structure ReturnedAs (w u : Watcher) : Prop where
  pc : u.pc = .returned
  status : u.status = w.status
  refreshRequested : u.refreshRequested = w.refreshRequested
  hardCancel : u.hardCancel = w.hardCancel
  tipChanged : u.tipChanged = w.tipChanged

/-- Once the thread has returned, its variables stay as they are. -/
theorem returned_stays (call : LongpollCall) (s u : OwnedWatcher) (later : List WatcherAction)
    (hreturned : s.watcher.pc = .returned)
    (hrun : run (ownedStep call) s later = some u) : ReturnedAs s.watcher u.watcher := by
  refine run_invariant (ownedStep call) (fun t => ReturnedAs s.watcher t.watcher)
    (fun t a t' ht ha => ?_) s ⟨hreturned, rfl, rfl, rfl, rfl⟩ later u hrun
  rcases ownedStep_returned call t t' a ht.pc ha with hsame | hsame
  · rw [hsame]
    exact ht
  · rw [hsame]
    exact ⟨ht.pc, ht.status, ht.refreshRequested, ht.hardCancel, ht.tipChanged⟩

/-- What holds of a watcher whose thread has returned. -/
structure Coherent (expected : UInt256) (call : LongpollCall) (w : Watcher) : Prop where
  ended : w.status ≠ .running
  templateChanged : w.status = .templateChanged → w.refreshRequested = true
  cancelled : w.status = .cancelled → w.refreshRequested = false ∧ w.cancelRequested = true
  rpcError : w.status = .rpcError →
    w.refreshRequested = true ∧ w.tipChanged = false ∧ w.hardCancel = false
  hardCancel : w.hardCancel = true ↔ ∃ response t, call = .reply response ∧
    parseBlockTemplate response = .ok t ∧
    (t.previousBlockHash ≠ expected ∨ t.submitOld = some false)
  tipChanged : w.tipChanged = true → w.hardCancel = true

theorem finalHardCancel_iff (expected : UInt256) (call : LongpollCall) :
    finalHardCancel expected call = true ↔ ∃ response t, call = .reply response ∧
      parseBlockTemplate response = .ok t ∧
      (t.previousBlockHash ≠ expected ∨ t.submitOld = some false) := by
  have hdecision (t : BlockTemplate) :
      longpollTemplateInvalidatesOldWork expected t.previousBlockHash (t.submitOld.getD true) = true
        ↔ t.previousBlockHash ≠ expected ∨ t.submitOld = some false := by
    simp only [longpollTemplateInvalidatesOldWork, longpollTemplateChangesTip, Bool.or_eq_true,
      bne_iff_ne, Bool.not_eq_true']
    refine or_congr ne_comm ?_
    -- An absent member counts as true.
    rcases t.submitOld with _ | _ | _ <;> simp only [Option.getD_none, Option.getD_some,
      Bool.true_eq_false, reduceCtorEq, Option.some.injEq]
  unfold finalHardCancel
  cases call with
  | reply response =>
      simp only [LongpollCall.replacement]
      cases hparse : parseBlockTemplate response with
      | error e => simp only [Except.toOption, Option.any_none, Bool.false_eq_true,
          LongpollCall.reply.injEq, exists_and_left, exists_eq_left', hparse, reduceCtorEq,
          false_and, exists_false]
      | ok t => simp only [Except.toOption, Option.any_some, hdecision,
          LongpollCall.reply.injEq, exists_and_left, exists_eq_left', hparse, Except.ok.injEq]
  | _ => simp only [LongpollCall.replacement, Option.any_none, Bool.false_eq_true, reduceCtorEq,
      false_and, exists_false]

theorem finalTipChanged_hard (expected : UInt256) (call : LongpollCall)
    (h : finalTipChanged expected call = true) : finalHardCancel expected call = true := by
  rw [finalTipChanged, Option.any_eq_true] at h
  rcases h with ⟨t, ht, htip⟩
  rw [finalHardCancel, Option.any_eq_true]
  exact ⟨t, ht, by rw [longpollTemplateInvalidatesOldWork, htip, Bool.true_or]⟩

/-- The invariant at the thread's end. -/
theorem coherent_of_returned (expected : UInt256) (call : LongpollCall) (w : Watcher)
    (hok : PublishedOk expected call w) (hreturned : w.pc = .returned) :
    Coherent expected call w := by
  rcases hok with ⟨_, hok⟩
  simp only [hreturned] at hok
  rcases hok with ⟨⟨htip, hhard⟩, hends, hrefresh⟩
  refine ⟨fun hrunning => ?_, fun hchanged => ?_, fun hcancelled => ?_, fun herror => ?_, ?_,
    fun hchanged => ?_⟩
  · rw [hrunning] at hends
    exact hends
  · rw [hrefresh, hchanged]
    simp only [ne_eq, reduceCtorEq, not_false_eq_true]
  · rw [hcancelled] at hends
    refine ⟨Bool.eq_false_iff.mpr fun h => hrefresh.mp h hcancelled, hends⟩
  · rw [herror] at hends
    rcases finalFlags_none expected call hends with ⟨htipFalse, hhardFalse⟩
    refine ⟨hrefresh.mpr ?_, htip.trans htipFalse, hhard.trans hhardFalse⟩
    rw [herror]
    simp only [ne_eq, reduceCtorEq, not_false_eq_true]
  · rw [hhard]
    exact finalHardCancel_iff expected call
  · rw [htip] at hchanged
    rw [hhard]
    exact finalTipChanged_hard expected call hchanged

/-- A status other than the initial one was stored, and the thread had read
    the request to stop if it says so. -/
theorem published_cancelled (expected : UInt256) (call : LongpollCall) (w : Watcher)
    (hok : PublishedOk expected call w) (h : w.status = .cancelled) :
    w.cancelRequested = true := by
  rcases hok with ⟨_, hok⟩
  cases hpc : w.pc with
  | storeRefreshRequested =>
      simp only [hpc] at hok
      exact absurd h hok.2.2.1
  | returned =>
      simp only [hpc, h] at hok
      exact hok.2.1
  | _ => simp only [hpc, h, reduceCtorEq, and_false] at hok

/-- The watcher in every interleaving of its thread with calls of its owner and
    reads of its flags, for every end of the longpoll call.

    Every `Finish` that has returned returned the status of a thread that had
    returned, and from then on status and flags are coherent and stay as they
    are. The status is never `CANCELLED` unless `Finish` or the destructor had
    asked for it by then. At every moment, a requested refresh means that the
    two other flags are final, so that whoever has seen the request reads
    their final values. -/
theorem longpoll_coherent (expected : UInt256) (call : LongpollCall)
    (acts : List WatcherAction) (s : OwnedWatcher)
    (hrun : run (ownedStep call) (OwnedWatcher.start expected) acts = some s) :
    (∀ status ∈ s.finished, s.watcher.pc = .returned ∧ status = s.watcher.status) ∧
    (s.watcher.pc = .returned → Coherent expected call s.watcher ∧
      ∀ later u, run (ownedStep call) s later = some u → ReturnedAs s.watcher u.watcher) ∧
    (s.watcher.status = .cancelled → .beginFinish ∈ acts ∨ .beginDestructor ∈ acts) ∧
    (s.watcher.refreshRequested = true → FlagsFinal expected call s.watcher ∧
      ∀ later u, run (ownedStep call) s later = some u → ReturnedAs s.watcher u.watcher) ∧
    s.reads.Pairwise (FinalAfter expected call) := by
  have hok := owned_reachable_ok expected call acts s hrun
  refine ⟨hok.finished, fun hreturned => ?_, fun hcancelled => ?_, fun hrefresh => ?_, hok.reads⟩
  · exact ⟨coherent_of_returned expected call s.watcher hok.published hreturned,
      fun later u hlater => returned_stays call s u later hreturned hlater⟩
  · exact hok.requested (published_cancelled expected call s.watcher hok.published hcancelled)
  · rcases published_refresh expected call s.watcher hok.published hrefresh with
      ⟨hreturned, hfinal⟩
    exact ⟨hfinal, fun later u hlater => returned_stays call s u later hreturned hlater⟩

/-- A reply with another tip, with the request to stop between the two stores,
    and `Finish` called twice. -/
theorem longpoll_coherent_cancelled :
    ∃ s, run (ownedStep (.reply regtestReply)) (OwnedWatcher.start UInt256.zero)
        [.run, .run, .beginFinish, .run, .run, .run, .owner, .owner, .beginFinish, .owner, .owner]
        = some s ∧
      s.finished = [.cancelled, .cancelled] ∧ s.watcher.hardCancel = true ∧
      Coherent UInt256.zero (.reply regtestReply) s.watcher := by
  have hends : (run (ownedStep (.reply regtestReply)) (OwnedWatcher.start UInt256.zero)
      [.run, .run, .beginFinish, .run, .run, .run, .owner, .owner, .beginFinish, .owner,
        .owner]).map (fun s => (s.finished, s.watcher.hardCancel, s.watcher.pc))
      = some ([.cancelled, .cancelled], true, .returned) := by decide +kernel
  rcases Option.map_eq_some_iff.mp hends with ⟨s, hrun, hs⟩
  simp only [Prod.mk.injEq] at hs
  rcases hs with ⟨hfinished, hhard, hreturned⟩
  rcases longpoll_coherent UInt256.zero (.reply regtestReply) _ s hrun with ⟨_, hcoherent, _⟩
  exact ⟨s, hrun, hfinished, hhard, (hcoherent hreturned).1⟩

end MercaMiner
