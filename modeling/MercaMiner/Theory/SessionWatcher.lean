import MercaMiner.Theory.LoopPhases
import MercaMiner.Theory.SessionSteps

/-!
# The Watchers of a Session

What the loop has done with the watcher of its turn, in every state of a
session.

Each turn constructs one watcher and calls `Finish` on it at most once. How far
it is with that can be told from the loop's position, and outside of a turn the
watcher is being destroyed or gone. So nobody is ever waited for twice, and the
owner never begins a call inside another one.

Once the watcher was finished its thread has returned and its flags are final,
so the three decisions about a solved candidate, which read one flag after
another, agree with each other: `Permits` holds wherever a block is submitted.

## Main definitions

* `FinishStage`, `stage`: How far a turn is with its watcher.
* `Attended`: A watcher whose call ends as the session says.
* `Permits`: What the watcher published allows a submission.
* `WatchOk`: The invariant.

## Theorems

* `threadStep_watch`, `sessionStep_watch`: Every step keeps it.
* `session_watchOk`: It holds in every session.
-/

namespace MercaMiner

open Transition

/-- Whether `Finish` is yet to be called, running or over. -/
inductive FinishStage where
  | before
  | joining
  | after
  deriving DecidableEq

def foundStage : FoundPc → FinishStage
  | .finishing => .before
  | .joining => .joining
  | _ => .after

/-- At the test of the inner loop, and after it, the variable says whether the
    watcher was finished. -/
def testStage (it : Iteration) : FinishStage :=
  if it.refreshTemplate then .after else .before

def innerStage (it : Iteration) : InnerPc → FinishStage
  | .test => testStage it
  | .nextCandidate | .mining _ | .loadRefresh | .finishing _ => .before
  | .joining _ => .joining
  | .loadShutdown _ | .report _ | .loadInvalidated | .submitting _ _ => .after
  | .found _ pc => foundStage pc

def stage : LoopPc → Option FinishStage
  | .inner it pc => some (innerStage it pc)
  | .afterInner it => some (testStage it)
  | .finishExhausted => some .before
  | .joinExhausted => some .joining
  | _ => none

/-- The turn a position belongs to. -/
def LoopPc.turn : LoopPc → Option Iteration
  | .inner it _ | .afterInner it => some it
  | _ => none

/-- The positions a turn is left to. -/
def LoopPc.leftTurn : LoopPc → Bool
  | .whileTest | .catching _ | .uncaught _ => true
  | _ => false

/-- The watcher's thread is in its call or ended it as some action said, and
    it was joined at its end. -/
structure Attended (tr : List SessionAction) (expected : UInt256) (w : OwnedWatcher) : Prop where
  published : ∃ call, PublishedOk expected call w.watcher ∧
    (w.watcher.pc = .calling ∨ .watcher call ∈ tr)
  joined : w.joinable = false → w.watcher.pc = .returned

/-- What the owner does in each stage. -/
def StageOk (w : OwnedWatcher) : FinishStage → Prop
  | .before => w.owner = .idle ∧ w.joinable = true
  | .joining => w.owner = .joining false ∨ w.owner = .loadStatus ∧ w.joinable = false
  | .after => w.owner = .idle ∧ w.joinable = false

/-- A watcher that failed, or asked for no refresh, does not stop a submission;
    otherwise its old work must still be valid. -/
def Permits (w : Watcher) : Prop :=
  w.refreshRequested = true → w.status ≠ .rpcError → w.hardCancel = false

/-- What was read from the watcher is what it holds. -/
def FoundStatus (w : Watcher) : FoundPc → Prop
  | .loadShutdown status | .loadRefresh status => status = w.status
  | .loadInvalidated => w.refreshRequested = true ∧ w.status ≠ .rpcError
  | .decided .submit => Permits w
  | _ => True

def StatusOk (w : Watcher) : LoopPc → Prop
  | .inner _ (.found _ pc) => FoundStatus w pc
  | .inner _ (.submitting _ _) => Permits w
  | _ => True

/-- The watcher of the turn at a position. -/
structure TurnWatched (tr : List SessionAction) (pc : LoopPc) (st : FinishStage)
    (expected : UInt256) (w : OwnedWatcher) : Prop where
  attended : Attended tr expected w
  owner : StageOk w st
  status : StatusOk w.watcher pc
  turn : ∀ it, pc.turn = some it → it.work.blockTemplate.previousBlockHash = expected

/-- A watcher on its way to its end. -/
structure Released (tr : List SessionAction) (w : OwnedWatcher) : Prop where
  attended : ∃ expected, Attended tr expected w
  owner : w.owner = .idle ∨ w.owner = .joining true

/-- The invariant of a session's watcher. -/
def WatchOk (tr : List SessionAction) (pc : LoopPc) (watcher : Option OwnedWatcher) : Prop :=
  match stage pc with
  | some st => ∃ w expected, watcher = some w ∧ TurnWatched tr pc st expected w
  | none => ∀ w, watcher = some w → pc.leftTurn = true ∧ Released tr w

section

variable (tr : List SessionAction)

theorem WatchOk.inTurn (pc : LoopPc) (watcher : Option OwnedWatcher) (st : FinishStage)
    (h : WatchOk tr pc watcher) (hstage : stage pc = some st) :
    ∃ w expected, watcher = some w ∧ TurnWatched tr pc st expected w := by
  rw [WatchOk, hstage] at h
  exact h

theorem WatchOk.outside (pc : LoopPc) (watcher : Option OwnedWatcher) (w : OwnedWatcher)
    (h : WatchOk tr pc watcher) (hstage : stage pc = none) (hw : watcher = some w) :
    pc.leftTurn = true ∧ Released tr w := by
  rw [WatchOk, hstage] at h
  exact h w hw

/-- Where no watcher is left, the loop is outside of a turn. -/
theorem watchOk_none (pc : LoopPc) (hstage : stage pc = none) : WatchOk tr pc none := by
  rw [WatchOk, hstage]
  intro w hw
  exact absurd hw (by simp only [reduceCtorEq, not_false_eq_true])

/-- A step within a turn. -/
theorem TurnWatched.move (pc pc' : LoopPc) (st : FinishStage) (expected : UInt256)
    (w : OwnedWatcher) (h : TurnWatched tr pc st expected w) (hstage : stage pc' = some st)
    (hstatus : StatusOk w.watcher pc')
    (hturn : pc'.turn = none ∨ ∃ it it', pc.turn = some it ∧ pc'.turn = some it' ∧
      it'.work = it.work) : WatchOk tr pc' (some w) := by
  rw [WatchOk, hstage]
  refine ⟨w, expected, rfl, h.attended, h.owner, hstatus, fun it' hit' => ?_⟩
  rcases hturn with hnone | ⟨it, it'', hit, hsome, hwork⟩
  · exact absurd (hnone.symm.trans hit') (by simp only [reduceCtorEq, not_false_eq_true])
  · rw [hit', Option.some.injEq] at hsome
    rw [hsome, hwork]
    exact h.turn it hit

/-- Leaving a turn before or after its watcher was finished. -/
theorem TurnWatched.leave (pc pc' : LoopPc) (st : FinishStage) (expected : UInt256)
    (w : OwnedWatcher) (h : TurnWatched tr pc st expected w) (hst : st ≠ .joining)
    (hstage : stage pc' = none) (hleft : pc'.leftTurn = true) : WatchOk tr pc' (some w) := by
  rw [WatchOk, hstage]
  intro v hv
  rw [Option.some.injEq] at hv
  rw [← hv]
  have hidle : w.owner = .idle := by
    have howner := h.owner
    cases st with
    | joining => exact absurd rfl hst
    | before | after => exact howner.1
  exact ⟨hleft, ⟨⟨expected, h.attended⟩, Or.inl hidle⟩⟩

/-- Actions that came later do not matter. -/
theorem Attended.snoc (expected : UInt256) (w : OwnedWatcher) (a : SessionAction)
    (h : Attended tr expected w) : Attended (tr ++ [a]) expected w := by
  rcases h with ⟨⟨call, hpublished, horigin⟩, hjoined⟩
  exact ⟨⟨call, hpublished, horigin.imp id (List.mem_append_left [a])⟩, hjoined⟩

theorem WatchOk.snoc (pc : LoopPc) (watcher : Option OwnedWatcher) (a : SessionAction)
    (h : WatchOk tr pc watcher) : WatchOk (tr ++ [a]) pc watcher := by
  cases hstage : stage pc with
  | some st =>
      rcases h.inTurn tr pc watcher st hstage with ⟨w, expected, hw, hturn⟩
      rw [WatchOk, hstage]
      exact ⟨w, expected, hw, hturn.attended.snoc tr expected w a, hturn.owner, hturn.status,
        hturn.turn⟩
  | none =>
      rw [WatchOk, hstage]
      intro w hw
      rcases h.outside tr pc watcher w hstage hw with ⟨hleft, ⟨⟨expected, hattended⟩, howner⟩⟩
      exact ⟨hleft, ⟨⟨expected, hattended.snoc tr expected w a⟩, howner⟩⟩

/-- The constructor has started the thread. -/
theorem attended_start (expected : UInt256) :
    Attended tr expected (OwnedWatcher.start expected) :=
  ⟨⟨.rpcCancelled, ⟨rfl, rfl, rfl, rfl, rfl⟩, Or.inl rfl⟩,
    fun h => absurd h (by simp only [OwnedWatcher.start, Bool.true_eq_false, not_false_eq_true])⟩

theorem Attended.requestCancel (expected : UInt256) (w : OwnedWatcher) (owner : OwnerPc)
    (h : Attended tr expected w) :
    Attended tr expected { w with watcher := w.watcher.requestCancel, owner := owner } := by
  rcases h with ⟨⟨call, hpublished, horigin⟩, hjoined⟩
  exact ⟨⟨call, published_requestCancel expected call w.watcher hpublished, horigin⟩, hjoined⟩

/-- Before its first step every call is possible. -/
theorem publishedOk_calling (expected : UInt256) (call call' : LongpollCall) (w : Watcher)
    (h : PublishedOk expected call w) (hpc : w.pc = .calling) : PublishedOk expected call' w := by
  rcases h with ⟨hexpected, h⟩
  refine ⟨hexpected, ?_⟩
  simp only [hpc] at h ⊢
  exact h

/-- After its first step the thread does not read the call. -/
theorem runStep_call (w : Watcher) (call call' : LongpollCall) (h : w.pc ≠ .calling) :
    runStep w call = runStep w call' := by
  cases hpc : w.pc with
  | calling => exact absurd hpc h
  | _ => simp only [runStep, hpc]

/-- A step of the thread. -/
theorem Attended.run (expected : UInt256) (w : OwnedWatcher) (v : Watcher) (call : LongpollCall)
    (h : Attended tr expected w) (hstep : runStep w.watcher call = some v) :
    Attended (tr ++ [.watcher call]) expected { w with watcher := v } := by
  rcases h with ⟨⟨call₀, hpublished, horigin⟩, hjoined⟩
  refine ⟨?_, fun hjoinable => absurd (hjoined hjoinable) (runStep_moving _ v call hstep)⟩
  by_cases hpc : w.watcher.pc = .calling
  · exact ⟨call, runStep_published expected call w.watcher v
      (publishedOk_calling expected call₀ call w.watcher hpublished hpc) hstep,
      Or.inr (List.mem_append_right tr List.mem_cons_self)⟩
  · rw [runStep_call w.watcher call call₀ hpc] at hstep
    have hmem := horigin.resolve_left hpc
    exact ⟨call₀, runStep_published expected call₀ w.watcher v hpublished hstep,
      Or.inr (List.mem_append_left _ hmem)⟩

/-- `Finish` asks the thread to stop. -/
theorem TurnWatched.begin (s t : Session) (pc : LoopPc) (expected : UInt256) (w : OwnedWatcher)
    (h : TurnWatched tr pc .before expected w) (hw : s.watcher = some w)
    (hoffer : s.offer .requestCancel = some t) :
    ∃ w', t.watcher = some w' ∧ TurnWatched tr pc .joining expected w' := by
  rcases offer_requestCancel s t hoffer with ⟨v, hv, _, rfl⟩
  rw [hw, Option.some.injEq] at hv
  subst hv
  exact ⟨_, rfl, h.attended.requestCancel tr expected w _, Or.inl rfl, h.status, h.turn⟩

/-- `Finish` returns the status the thread published. -/
theorem TurnWatched.finish (s t : Session) (pc : LoopPc) (expected : UInt256) (w : OwnedWatcher)
    (status : LongpollStatus) (h : TurnWatched tr pc .joining expected w)
    (hw : s.watcher = some w) (hoffer : s.offer (.joined status) = some t) :
    ∃ w', t.watcher = some w' ∧ TurnWatched tr pc .after expected w' ∧
      status = w'.watcher.status := by
  rcases offer_joined s t status hoffer with ⟨v, hv, hload, hstatus, rfl⟩
  rw [hw, Option.some.injEq] at hv
  subst hv
  -- The owner is past the join.
  have hjoinable : w.joinable = false := by
    rcases h.owner with howner | howner
    · exact absurd (howner.symm.trans hload) (by simp only [reduceCtorEq, not_false_eq_true])
    · exact howner.2
  exact ⟨_, rfl, ⟨⟨h.attended.published, h.attended.joined⟩, ⟨rfl, hjoinable⟩, h.status, h.turn⟩,
    hstatus.symm⟩

/-- The events that end a part of `Finish`. -/
def LoopEvent.finishes : LoopEvent → Bool
  | .requestCancel | .joined _ => true
  | _ => false

/-- The other events leave the watcher alone. -/
theorem offer_watcher (s t : Session) (e : LoopEvent) (h : s.offer e = some t)
    (he : e.finishes = false) : t.watcher = s.watcher := by
  cases e with
  | advance =>
      rcases offer_advance s t h with ⟨rfl, _⟩
      rfl
  | raiseShutdown => exact absurd h (Option.some_ne_none t).symm
  | fetched work =>
      rcases offer_fetched s t work h with ⟨_, rfl⟩
      rfl
  | threw e =>
      rcases offer_threw s t e h with ⟨_, rfl⟩
      rfl
  | mined status candidate =>
      rcases offer_mined s t status candidate h with ⟨_, _, _, _, _, _, rfl⟩
      rfl
  | requestCancel | joined _ =>
      exact absurd he (by simp only [LoopEvent.finishes, Bool.true_eq_false, not_false_eq_true])
  | refreshRequested b | oldWorkInvalidated b =>
      rcases readFlag_eq_some s t _ b h with ⟨_, _, _, rfl⟩
      rfl
  | nextCandidate _ | callSubmit | submitting _ | submitted _ =>
      have hsame : s = t := Option.some.inj h
      rw [hsame]

/-- A step of the loop that moves within the turn without its watcher. -/
theorem TurnWatched.stay (s t : Session) (e : LoopEvent) (pc pc' : LoopPc) (st : FinishStage)
    (expected : UInt256) (w : OwnedWatcher) (h : TurnWatched tr pc st expected w)
    (hw : s.watcher = some w) (hoffer : s.offer e = some t) (he : e.finishes = false)
    (hstage : stage pc' = some st) (hstatus : StatusOk w.watcher pc')
    (hturn : pc'.turn = none ∨ ∃ it it', pc.turn = some it ∧ pc'.turn = some it' ∧
      it'.work = it.work) : WatchOk tr pc' t.watcher := by
  rw [offer_watcher s t e hoffer he, hw]
  exact h.move tr pc pc' st expected w hstage hstatus hturn

/-- A step of the loop that leaves the turn. -/
theorem TurnWatched.quit (s t : Session) (e : LoopEvent) (pc pc' : LoopPc) (st : FinishStage)
    (expected : UInt256) (w : OwnedWatcher) (h : TurnWatched tr pc st expected w)
    (hw : s.watcher = some w) (hoffer : s.offer e = some t) (he : e.finishes = false)
    (hst : st ≠ .joining) (hstage : stage pc' = none) (hleft : pc'.leftTurn = true) :
    WatchOk tr pc' t.watcher := by
  rw [offer_watcher s t e hoffer he, hw]
  exact h.leave tr pc pc' st expected w hst hstage hleft

/-- What was read from a flag is what it holds. -/
theorem readFlag_flag (s t : Session) (w : OwnedWatcher) (flag : WatcherFlag) (b : Bool)
    (hw : s.watcher = some w) (h : s.readFlag flag b = some t) : w.watcher.flag flag = b := by
  rcases readFlag_eq_some s t flag b h with ⟨v, hv, hflag, _⟩
  rw [hw, Option.some.injEq] at hv
  rw [hv]
  exact hflag

/-- The decisions about a solved candidate. -/
theorem foundStep_watch (s t : Session) (stats stats' : RuntimeStats) (it : Iteration)
    (candidate : BlockCandidate) (pc pc' : FoundPc) (e : LoopEvent) (expected : UInt256)
    (w : OwnedWatcher) (hw : s.watcher = some w)
    (h : TurnWatched tr (.inner it (.found candidate pc)) (foundStage pc) expected w)
    (hoffer : s.offer e = some t)
    (hstep : foundStep s.loop.shutdown stats pc e = some (stats', pc')) :
    WatchOk tr (.inner it (.found candidate pc')) t.watcher := by
  have hstatus := h.status
  revert hstep
  fun_cases foundStep s.loop.shutdown stats pc e with
  | case1 =>
      intro heq
      cases heq
      rcases h.begin tr s t _ expected w hw hoffer with ⟨w', hw', h'⟩
      rw [hw']
      exact h'.move tr _ _ .joining expected w' rfl trivial (Or.inr ⟨it, it, rfl, rfl, rfl⟩)
  | case2 status =>
      intro heq
      cases heq
      rcases h.finish tr s t _ expected w status hw hoffer with ⟨w', hw', h', hread⟩
      rw [hw']
      exact h'.move tr _ _ .after expected w' rfl hread (Or.inr ⟨it, it, rfl, rfl, rfl⟩)
  | case3 =>
      intro heq
      cases heq
      exact h.stay tr s t _ _ _ .after expected w hw hoffer rfl rfl trivial
        (Or.inr ⟨it, it, rfl, rfl, rfl⟩)
  | case4 =>
      intro heq
      cases heq
      exact h.stay tr s t _ _ _ .after expected w hw hoffer rfl rfl hstatus
        (Or.inr ⟨it, it, rfl, rfl, rfl⟩)
  | case5 =>
      -- The watcher failed.
      intro heq
      cases heq
      exact h.stay tr s t _ _ _ .after expected w hw hoffer rfl rfl
        (fun _ hne => absurd hstatus.symm hne) (Or.inr ⟨it, it, rfl, rfl, rfl⟩)
  | case6 status herror =>
      intro heq
      cases heq
      refine h.stay tr s t _ _ _ .after expected w hw hoffer rfl rfl
        ⟨readFlag_flag s t w .refreshRequested true hw hoffer, fun h => herror ?_⟩
        (Or.inr ⟨it, it, rfl, rfl, rfl⟩)
      exact Eq.trans hstatus h
  | case7 status b hb =>
      intro heq
      cases heq
      have hread := readFlag_flag s t w .refreshRequested b hw hoffer
      exact h.stay tr s t _ _ _ .after expected w hw hoffer rfl rfl
        (fun hrefresh => absurd (hread.symm.trans hrefresh) hb) (Or.inr ⟨it, it, rfl, rfl, rfl⟩)
  | case8 =>
      intro heq
      cases heq
      exact h.stay tr s t _ _ _ .after expected w hw hoffer rfl rfl trivial
        (Or.inr ⟨it, it, rfl, rfl, rfl⟩)
  | case9 b hb =>
      intro heq
      cases heq
      have hread := readFlag_flag s t w .hardCancel b hw hoffer
      exact h.stay tr s t _ _ _ .after expected w hw hoffer rfl rfl
        (fun _ _ => hread.trans (Bool.eq_false_iff.mpr hb)) (Or.inr ⟨it, it, rfl, rfl, rfl⟩)
  | case10 =>
      intro h
      exact absurd h (by simp only [reduceCtorEq, not_false_eq_true])

theorem testStage_fresh (it : Iteration) (h : it.refreshTemplate = false) :
    testStage it = .before := by
  rw [testStage, h]
  rfl

/-- An exception in a turn leaves it. -/
theorem TurnWatched.throw (s t : Session) (e : LoopEvent) (pc : LoopPc) (st : FinishStage)
    (expected : UInt256) (w : OwnedWatcher) (exn : LoopException)
    (h : TurnWatched tr pc st expected w) (hw : s.watcher = some w) (hoffer : s.offer e = some t)
    (he : e.finishes = false) (hst : st ≠ .joining) :
    WatchOk tr (s.loop.throw exn).pc t.watcher := by
  cases exn with
  | rpcCancelled | rpc _ | other _ =>
      exact h.quit tr s t e pc _ st expected w hw hoffer he hst rfl rfl

/-- A step in the loop over a template's candidates. -/
theorem innerStep_watch (s t : Session) (loop : LoopState) (it : Iteration) (pc : InnerPc)
    (e : LoopEvent) (expected : UInt256) (w : OwnedWatcher) (hw : s.watcher = some w)
    (hshape : InnerShape s.loop.shutdown it pc)
    (h : TurnWatched tr (.inner it pc) (innerStage it pc) expected w)
    (hoffer : s.offer e = some t) (hstep : innerStep s.loop it pc e = some loop) :
    WatchOk tr loop.pc t.watcher := by
  have hstatus := h.status
  -- Most steps go on in the turn and leave its watcher alone.
  have hstay (pc' : LoopPc) (it' : Iteration) (he : e.finishes = false)
      (hstage : stage pc' = some (innerStage it pc)) (hturn : pc'.turn = some it')
      (hwork : it'.work = it.work) (hstatus' : StatusOk w.watcher pc') :
      WatchOk tr pc' t.watcher :=
    h.stay tr s t e _ pc' _ expected w hw hoffer he hstage hstatus'
      (Or.inr ⟨it, it', rfl, hturn, hwork⟩)
  revert hstep
  fun_cases innerStep s.loop it pc e with
  | case1 hmore =>
      intro heq
      cases heq
      simp only [Bool.and_eq_true, Bool.not_eq_true'] at hmore
      refine hstay _ it rfl ?_ rfl rfl trivial
      rw [show innerStage it .test = testStage it from rfl, testStage_fresh it hmore.1.2]
      rfl
  | case2 =>
      intro heq
      cases heq
      exact hstay _ it rfl rfl rfl rfl trivial
  | case3 outOfMemory =>
      intro heq
      cases heq
      cases hnext : it.job.nextCandidate outOfMemory with
      | mk result job =>
          cases result with
          | error err =>
              exact h.throw tr s t _ _ .before expected w (.other err.what) hw hoffer rfl
                (by simp only [ne_eq, reduceCtorEq, not_false_eq_true])
          | ok candidate => exact hstay _ { it with job := job } rfl rfl rfl rfl trivial
  | case4 _ status =>
      intro heq
      cases heq
      cases status with
      | found | exhausted | cancelled => exact hstay _ it rfl rfl rfl rfl trivial
  | case5 _ exn =>
      intro heq
      cases heq
      exact h.throw tr s t _ _ .before expected w exn hw hoffer rfl
        (by simp only [ne_eq, reduceCtorEq, not_false_eq_true])
  | case6 =>
      intro heq
      cases heq
      exact hstay _ it rfl rfl rfl rfl trivial
  | case7 =>
      intro heq
      cases heq
      refine hstay _ it rfl ?_ rfl rfl trivial
      exact congrArg some (testStage_fresh it hshape)
  | case8 site =>
      intro heq
      cases heq
      rcases h.begin tr s t _ expected w hw hoffer with ⟨w', hw', h'⟩
      rw [hw']
      exact h'.move tr _ _ .joining expected w' rfl trivial (Or.inr ⟨it, it, rfl, rfl, rfl⟩)
  | case9 site status =>
      intro heq
      cases heq
      rcases h.finish tr s t _ expected w status hw hoffer with ⟨w', hw', h', _⟩
      rw [hw']
      cases site with
      | cancelled | exhausted =>
          exact h'.move tr _ _ .after expected w' rfl trivial (Or.inr ⟨it, it, rfl, rfl, rfl⟩)
  | case10 | case12 | case14 | case15 | case16 =>
      -- The variable says from here on that the watcher was finished.
      intro heq
      cases heq
      exact hstay _ { it with refreshTemplate := true } rfl rfl rfl rfl trivial
  | case11 | case13 =>
      intro heq
      cases heq
      exact hstay _ it rfl rfl rfl rfl trivial
  | case17 =>
      intro heq
      cases heq
      exact hstay _ it rfl rfl rfl rfl hstatus
  | case18 candidate pc =>
      intro hmap
      rcases Option.map_eq_some_iff.mp hmap with ⟨r, hfound, rfl⟩
      exact foundStep_watch tr s t s.loop.stats r.1 it candidate pc r.2 e expected w hw h hoffer
        hfound
  | case19 args frame e =>
      intro hmap
      rcases Option.map_eq_some_iff.mp hmap with ⟨frame', _, rfl⟩
      exact hstay _ it rfl rfl rfl rfl hstatus
  | case20 args rejection outcome =>
      intro heq
      cases heq
      cases outcome with
      | accepted | rejected | notCurrentTip | cancelled =>
          exact hstay _ { it with refreshTemplate := true } rfl rfl rfl rfl trivial
  | case22 args exn =>
      intro heq
      cases heq
      have hout : (FinishStage.after) ≠ .joining := by
        simp only [ne_eq, reduceCtorEq, not_false_eq_true]
      cases exn with
      | rpcCancelled => exact h.throw tr s t _ _ .after expected w .rpcCancelled hw hoffer rfl hout
      | runtimeError what =>
          exact h.throw tr s t _ _ .after expected w (.other what) hw hoffer rfl hout
  | case21 | case23 =>
      intro h
      exact absurd h (by simp only [reduceCtorEq, not_false_eq_true])

/-- Outside of a turn the loop goes on only without a watcher. -/
theorem advance_gone (s t : Session) (h : s.offer .advance = some t)
    (hout : s.loop.pc.inTurn = false) : t.watcher = none := by
  rcases offer_advance s t h with ⟨rfl, hwait⟩
  cases hw : t.watcher with
  | none => rfl
  | some w =>
      rw [hw] at hwait
      exact absurd (hout.symm.trans (hwait rfl)) Bool.false_ne_true

/-- A position that is neither in a turn nor left to from one has no watcher. -/
theorem WatchOk.gone (s : Session) (h : WatchOk tr s.loop.pc s.watcher)
    (hstage : stage s.loop.pc = none) (hleft : s.loop.pc.leftTurn = false) :
    s.watcher = none := by
  cases hw : s.watcher with
  | none => rfl
  | some w =>
      have hleft' := (h.outside tr _ _ w hstage hw).1
      exact absurd (hleft.symm.trans hleft') Bool.false_ne_true

theorem watchOk_throw (loop : LoopState) (exn : LoopException) :
    WatchOk tr (loop.throw exn).pc none := by
  cases exn with
  | rpcCancelled | rpc _ | other _ => exact watchOk_none tr _ rfl

/-- The watcher is constructed when the turn has its job. -/
theorem fetched_watch (s : Session) (work : CurrentWork) (hgone : s.watcher = none) :
    WatchOk tr (s.loop.fetched work).pc
      (s.afterLoop (.fetched work) (s.loop.fetched work)).watcher := by
  fun_cases LoopState.fetched s.loop work with
  | case1 htip e =>
      rw [show (s.afterLoop (.fetched work) (s.loop.throw (.other e.what))).watcher = s.watcher
        from rfl, hgone]
      exact watchOk_throw tr s.loop (.other e.what)
  | case2 htip job =>
      exact ⟨_, work.blockTemplate.previousBlockHash, rfl, attended_start tr _, ⟨rfl, rfl⟩,
        trivial, fun it hit => by rw [← Option.some.inj hit]⟩
  | case3 =>
      rw [show (s.afterLoop (.fetched work) (s.loop.goto .whileTest)).watcher = s.watcher from rfl,
        hgone]
      exact watchOk_none tr _ rfl

/-- No template is fetched in a turn. -/
theorem innerStep_fetched (loop : LoopState) (it : Iteration) (pc : InnerPc) (work : CurrentWork) :
    innerStep loop it pc (.fetched work) = none := by
  cases pc with
  | found candidate pc =>
      cases pc with
      | decided d =>
          cases d with
          | stop | discard | submit => rfl
      | _ => rfl
  | _ => rfl

/-- Every step of the loop keeps the invariant. -/
theorem threadStep_watch (s t : Session) (loop : LoopState) (e : LoopEvent)
    (hshape : Shape s.loop) (hok : WatchOk tr s.loop.pc s.watcher) (hoffer : s.offer e = some t)
    (hstep : threadStep s.loop e = some loop) :
    WatchOk tr loop.pc (t.afterLoop e loop).watcher := by
  have hgone (he : e = .advance) (hout : s.loop.pc.inTurn = false) (pc : LoopPc)
      (hstage : stage pc = none) : WatchOk tr pc t.watcher := by
    rw [he] at hoffer
    rw [advance_gone s t hoffer hout]
    exact watchOk_none tr pc hstage
  have hnone (he : e.finishes = false) (hstage : stage s.loop.pc = none)
      (hleft : s.loop.pc.leftTurn = false) : t.watcher = none :=
    (offer_watcher s t e hoffer he).trans (hok.gone tr s hstage hleft)
  revert hstep
  fun_cases threadStep s.loop e with
  | case1 hpc | case2 hpc | case10 hpc | case11 hpc | case12 _ _ hpc | case13 _ _ hpc | case14 hpc
  | case15 hpc | case16 _ hpc | case17 _ hpc | case18 hpc | case19 hpc =>
      intro heq
      cases heq
      exact hgone rfl (by rw [hpc]; rfl) _ rfl
  | case3 work hpc =>
      intro heq
      cases heq
      have hloop := (offer_frame s t _ hoffer).1
      rw [← hloop]
      exact fetched_watch tr t work (hnone rfl (by rw [hpc]; rfl) (by rw [hpc]; rfl))
  | case4 exn hpc =>
      intro heq
      cases heq
      rw [show (t.afterLoop (.threw exn) (s.loop.throw exn)).watcher = t.watcher from rfl,
        hnone rfl (by rw [hpc]; rfl) (by rw [hpc]; rfl)]
      exact watchOk_throw tr s.loop exn
  | case5 it pc _ hpc =>
      intro h
      rw [Shape, hpc] at hshape
      rw [hpc] at hok
      rcases hok.inTurn tr _ _ (innerStage it pc) rfl with ⟨w, expected, hw, hturn⟩
      have hwatch := innerStep_watch tr s t loop it pc e expected w hw hshape hturn hoffer h
      have hsame : (t.afterLoop e loop).watcher = t.watcher := by
        cases e with
        | fetched work =>
            exact absurd ((innerStep_fetched s.loop it pc work).symm.trans h) (by simp only
              [reduceCtorEq, not_false_eq_true])
        | _ => rfl
      rw [hsame]
      exact hwatch
  | case6 it hpc hlast =>
      intro heq
      cases heq
      simp only [Bool.and_eq_true, Bool.not_eq_true'] at hlast
      rw [hpc] at hok
      rcases hok.inTurn tr _ _ (testStage it) rfl with ⟨w, expected, hw, hturn⟩
      refine hturn.stay tr s t _ _ .finishExhausted _ expected w hw hoffer rfl ?_ trivial
        (Or.inl rfl)
      exact congrArg some (testStage_fresh it hlast.1.2).symm
  | case7 it hpc =>
      intro heq
      cases heq
      rw [hpc] at hok
      rcases hok.inTurn tr _ _ (testStage it) rfl with ⟨w, expected, hw, hturn⟩
      refine hturn.quit tr s t _ _ .whileTest _ expected w hw hoffer rfl ?_ rfl rfl
      unfold testStage
      by_cases hrefresh : it.refreshTemplate = true
      · simp only [if_pos hrefresh, ne_eq, reduceCtorEq, not_false_eq_true]
      · simp only [if_neg hrefresh, ne_eq, reduceCtorEq, not_false_eq_true]
  | case8 hpc =>
      intro heq
      cases heq
      rw [hpc] at hok
      rcases hok.inTurn tr _ _ .before rfl with ⟨w, expected, hw, hturn⟩
      rcases hturn.begin tr s t _ expected w hw hoffer with ⟨w', hw', hturn'⟩
      rw [show (t.afterLoop .requestCancel (s.loop.goto .joinExhausted)).watcher = t.watcher
        from rfl, hw']
      exact hturn'.move tr _ .joinExhausted .joining expected w' rfl trivial (Or.inl rfl)
  | case9 status hpc =>
      intro heq
      cases heq
      rw [hpc] at hok
      rcases hok.inTurn tr _ _ .joining rfl with ⟨w, expected, hw, hturn⟩
      rcases hturn.finish tr s t _ expected w status hw hoffer with ⟨w', hw', hturn', _⟩
      refine Eq.subst (motive := fun o => WatchOk tr _ o) hw'.symm ?_
      exact hturn'.leave tr _ _ .after expected w'
        (by simp only [ne_eq, reduceCtorEq, not_false_eq_true]) rfl rfl
  | case20 =>
      intro h
      exact absurd h (by simp only [reduceCtorEq, not_false_eq_true])

/-- Nothing was read from a watcher that was not finished. -/
theorem statusOk_before (w : Watcher) (pc : LoopPc) (st : FinishStage) (hstage : stage pc = some st)
    (hst : st ≠ .after) : StatusOk w pc := by
  cases pc with
  | inner it pc =>
      have hafter (h : innerStage it pc = .after) : False :=
        hst ((Option.some.inj hstage).symm.trans h)
      cases pc with
      | found candidate pc =>
          cases pc with
          | finishing | joining => trivial
          | _ => exact (hafter rfl).elim
      | submitting _ _ => exact (hafter rfl).elim
      | _ => trivial
  | _ => trivial

/-- The thread moves only while it was not joined. -/
theorem watched_watch (pc : LoopPc) (w : OwnedWatcher) (v : Watcher) (call : LongpollCall)
    (hok : WatchOk tr pc (some w)) (hstep : runStep w.watcher call = some v) :
    WatchOk (tr ++ [.watcher call]) pc (some { w with watcher := v }) := by
  cases hstage : stage pc with
  | some st =>
      rcases hok.inTurn tr pc _ st hstage with ⟨u, expected, hu, hturn⟩
      rw [Option.some.injEq] at hu
      subst hu
      have hst : st ≠ .after := by
        intro hafter
        have howner := hturn.owner
        rw [hafter] at howner
        exact runStep_moving _ v call hstep (hturn.attended.joined howner.2)
      have howner : StageOk { w with watcher := v } st := by
        cases st with
        | before | joining | after => exact hturn.owner
      rw [WatchOk, hstage]
      exact ⟨_, expected, rfl, hturn.attended.run tr expected w v call hstep, howner,
        statusOk_before v pc st hstage hst, hturn.turn⟩
  | none =>
      rcases hok.outside tr pc _ w hstage rfl with ⟨hleft, ⟨⟨expected, hattended⟩, howner⟩⟩
      rw [WatchOk, hstage]
      intro u hu
      rw [Option.some.injEq] at hu
      subst hu
      exact ⟨hleft, ⟨⟨expected, hattended.run tr expected w v call hstep⟩, howner⟩⟩

/-- The join of `Finish` is in its turn, and the join of the destructor
    outside. -/
theorem joined_watch (pc : LoopPc) (w : OwnedWatcher) (destroying : Bool)
    (hok : WatchOk tr pc (some w)) (howner : w.owner = .joining destroying)
    (hreturned : w.joinable = true → w.watcher.pc = .returned) :
    WatchOk tr pc (if destroying then none
      else some { w with joinable := false, owner := .loadStatus }) := by
  cases hstage : stage pc with
  | some st =>
      rcases hok.inTurn tr pc _ st hstage with ⟨u, expected, hu, hturn⟩
      rw [Option.some.injEq] at hu
      subst hu
      have hjoining : st = .joining ∧ destroying = false := by
        have hready := hturn.owner
        cases st with
        | before | after =>
            exact absurd (howner.symm.trans hready.1) (by simp only [reduceCtorEq,
              not_false_eq_true])
        | joining =>
            rcases hready with hready | hready
            · exact ⟨rfl, OwnerPc.joining.inj (howner.symm.trans hready)⟩
            · exact absurd (howner.symm.trans hready.1) (by simp only [reduceCtorEq,
                not_false_eq_true])
      rw [hjoining.2, if_neg Bool.false_ne_true, WatchOk, hstage, hjoining.1]
      have hend : w.watcher.pc = .returned := by
        by_cases hjoinable : w.joinable = true
        · exact hreturned hjoinable
        · exact hturn.attended.joined (Bool.eq_false_iff.mpr hjoinable)
      exact ⟨_, expected, rfl, ⟨hturn.attended.published, fun _ => hend⟩, Or.inr ⟨rfl, rfl⟩,
        hturn.status, hturn.turn⟩
  | none =>
      rcases (hok.outside tr pc _ w hstage rfl).2.owner with hidle | hdestroying
      · exact absurd (howner.symm.trans hidle) (by simp only [reduceCtorEq, not_false_eq_true])
      · rw [OwnerPc.joining.inj (howner.symm.trans hdestroying), if_pos rfl]
        exact watchOk_none tr pc hstage

theorem stage_outside (pc : LoopPc) (h : pc.inTurn = false) : stage pc = none := by
  cases pc with
  | inner _ _ | afterInner _ | finishExhausted | joinExhausted =>
      exact absurd h (by simp only [LoopPc.inTurn, Bool.true_eq_false, not_false_eq_true])
  | _ => rfl

/-- The destructor asks the thread to stop. -/
theorem destroyed_watch (pc : LoopPc) (w : OwnedWatcher) (hok : WatchOk tr pc (some w))
    (hout : pc.inTurn = false) :
    WatchOk tr pc (some { w with watcher := w.watcher.requestCancel, owner := .joining true }) := by
  have hstage := stage_outside pc hout
  rcases hok.outside tr pc _ w hstage rfl with ⟨hleft, ⟨⟨expected, hattended⟩, _⟩⟩
  rw [WatchOk, hstage]
  intro u hu
  rw [Option.some.injEq] at hu
  subst hu
  exact ⟨hleft, ⟨⟨expected, hattended.requestCancel tr expected w _⟩, Or.inr rfl⟩⟩

/-- Every step of a session keeps the invariant. -/
theorem sessionStep_watch (setup : SessionSetup) (s s' : Session) (a : SessionAction)
    (hshape : Shape s.loop) (hok : WatchOk tr s.loop.pc s.watcher)
    (h : sessionStep setup s a = some s') : WatchOk (tr ++ [a]) s'.loop.pc s'.watcher := by
  cases sessionStep_effect setup s s' a h with
  | raised _ | worked _ _ _ _ _ _ _ _ _ | fetched _ _ _ _ | called _ _ _ _ _ _ _ _ =>
      exact hok.snoc tr _ _ _
  | watched call w v hw hstep =>
      rw [hw] at hok
      exact watched_watch tr _ w v call hok hstep
  | refused it m w e loop hpc hmine hw _ hloop =>
      simp only [threadStep, hpc, innerStep, Option.some.injEq] at hloop
      rw [hpc] at hok
      rcases hok.inTurn tr _ _ .before rfl with ⟨w, expected, hw, hturn⟩
      rw [← hloop, hw]
      refine WatchOk.snoc tr _ _ _ ?_
      exact hturn.leave tr _ _ .before expected w
        (by simp only [ne_eq, reduceCtorEq, not_false_eq_true]) rfl rfl
  | joined w destroying hw howner hreturned =>
      rw [hw] at hok
      exact (joined_watch tr _ w destroying hok howner hreturned).snoc tr _ _ _
  | destroyed w hw hout hidle =>
      rw [hw] at hok
      exact (destroyed_watch tr _ w hok hout).snoc tr _ _ _
  | looped e t loop hoffer hloop =>
      rw [afterLoop_loop]
      exact (threadStep_watch tr s t loop e hshape hok hoffer hloop).snoc tr _ _ _

end

/-- The shutdown flag is never lowered. -/
theorem sessionStep_shutdown (setup : SessionSetup) (s s' : Session) (a : SessionAction)
    (hshape : Shape s.loop) (h : sessionStep setup s a = some s') :
    Shape s'.loop ∧ (s.loop.shutdown = true → s'.loop.shutdown = true) := by
  rcases sessionStep_loop setup s s' a h with hsame | ⟨e, he⟩
  · rw [hsame]
    exact ⟨hshape, id⟩
  · have heffect := loopStep_effect s.loop s'.loop e hshape he
    exact ⟨heffect.shape, heffect.shutdown⟩

section

variable (setup : SessionSetup) (blockLimit : UInt64) (payoutScript : Bytes)
  (acts : List SessionAction) (s : Session)

/-- What positions know about the loop's variables, in a session. -/
theorem session_shape
    (h : run (sessionStep setup) (sessionStart blockLimit payoutScript) acts = some s) :
    Shape s.loop :=
  run_invariant (sessionStep setup) (fun t => Shape t.loop)
    (fun t a t' ht hstep => (sessionStep_shutdown setup t t' a ht hstep).1)
    (sessionStart blockLimit payoutScript) trivial acts s h

/-- The invariant holds in every session. -/
theorem session_watchOk
    (h : run (sessionStep setup) (sessionStart blockLimit payoutScript) acts = some s) :
    WatchOk acts s.loop.pc s.watcher :=
  run_trace_invariant (sessionStep setup) (fun tr t => WatchOk tr t.loop.pc t.watcher) _
    (watchOk_none [] _ rfl)
    (fun tr t a t' hrun hok hstep => sessionStep_watch tr setup t t' a
      (session_shape setup blockLimit payoutScript tr t hrun) hok hstep) acts s h

end

end MercaMiner
