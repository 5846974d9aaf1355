import MercaMiner.Core.Gbt

/-!
# The Longpoll Watcher

A thread that waits for the node to offer a new template, from `longpoll.cpp`
and `longpoll.h`.

The thread makes one call. From the reply it decides whether the tip changed
and whether old work is invalid, publishes both, and then, unless somebody
has asked it to stop meanwhile, publishes its status and asks for a refresh.
Every load and store of an atomic flag is a step of its own, so another
thread may act between any two of them.

`Finish` stores the request to stop and joins the thread. The store belongs
to the caller's thread and is `Watcher.requestCancel`; the join is possible
once the thread has returned.

## Main definitions

* `LongpollStatus`: How a watcher ended.
* `longpollTemplateChangesTip`, `longpollTemplateInvalidatesOldWork`: The two
  decisions.
* `Watcher`: The watcher's flags and the position of its thread.
* `runStep`: One step of the thread.
* `OwnedWatcher`, `ownedStep`: The thread with its owner, who calls `Finish`
  any number of times and the destructor at most once, and with other threads
  reading the flags.
-/

namespace MercaMiner

inductive LongpollStatus where
  | running
  | templateChanged
  | cancelled
  | rpcError
  deriving DecidableEq

def longpollTemplateChangesTip (expectedPreviousBlockHash replacementPreviousBlockHash : UInt256) :
    Bool :=
  expectedPreviousBlockHash != replacementPreviousBlockHash

def longpollTemplateInvalidatesOldWork
    (expectedPreviousBlockHash replacementPreviousBlockHash : UInt256) (submitOld : Bool) : Bool :=
  longpollTemplateChangesTip expectedPreviousBlockHash replacementPreviousBlockHash || !submitOld

/-- The text of an exception of the template parser. -/
def GbtError.what : GbtError → String
  | template what => what
  | lengthError => "vector::_M_default_append"

/-- How the thread's call ends, together with the construction of its client:
    with a reply, with an `RpcCancelledException` or with another exception. -/
inductive LongpollCall where
  | reply (response : Json)
  | rpcCancelled
  | failed (what : String)

/-- Where the thread is. -/
inductive WatcherPc where
  | calling
  | storeTipChanged (replacement : BlockTemplate)
  | storeHardCancel (replacement : BlockTemplate)
  | loadCancelRequested
  | handleCancelled
  | storeStatus (status : LongpollStatus)
  | storeRefreshRequested
  | returned
  deriving DecidableEq

structure Watcher where
  expectedPreviousBlockHash : UInt256
  cancelRequested : Bool
  hardCancel : Bool
  refreshRequested : Bool
  tipChanged : Bool
  status : LongpollStatus
  error : String
  pc : WatcherPc
  deriving DecidableEq

namespace Watcher

/-- A watcher whose thread has just been started. -/
def start (expectedPreviousBlockHash : UInt256) : Watcher where
  expectedPreviousBlockHash := expectedPreviousBlockHash
  cancelRequested := false
  hardCancel := false
  refreshRequested := false
  tipChanged := false
  status := .running
  error := ""
  pc := .calling

/-- The store in `CancelAndJoin`. -/
def requestCancel (w : Watcher) : Watcher :=
  { w with cancelRequested := true }

/-- An exception is recorded, and will be published as an error. -/
def fail (w : Watcher) (what : String) : Watcher :=
  { w with error := what, pc := .storeStatus .rpcError }

end Watcher

/-- One step of `Run`. The call's end is used only while the thread is in its
    call. -/
def runStep (w : Watcher) (call : LongpollCall) : Option Watcher :=
  match w.pc with
  | .calling => match call with
    | .reply response => match parseBlockTemplate response with
      | .ok replacement => some { w with pc := .storeTipChanged replacement }
      | .error e => some (w.fail e.what)
    | .rpcCancelled => some { w with pc := .handleCancelled }
    | .failed what => some (w.fail what)
  | .storeTipChanged replacement =>
      some { w with
        tipChanged := longpollTemplateChangesTip w.expectedPreviousBlockHash
          replacement.previousBlockHash
        pc := .storeHardCancel replacement }
  | .storeHardCancel replacement =>
      some { w with
        hardCancel := longpollTemplateInvalidatesOldWork w.expectedPreviousBlockHash
          replacement.previousBlockHash (replacement.submitOld.getD true)
        pc := .loadCancelRequested }
  | .loadCancelRequested =>
      if w.cancelRequested then some { w with pc := .storeStatus .cancelled }
      else some { w with pc := .storeStatus .templateChanged }
  | .handleCancelled =>
      if w.cancelRequested then some { w with pc := .storeStatus .cancelled }
      else some (w.fail "longpoll RPC cancelled unexpectedly")
  | .storeStatus status =>
      some { w with
        status := status
        -- A cancelled watcher asks for no refresh.
        pc := if status = .cancelled then .returned else .storeRefreshRequested }
  | .storeRefreshRequested => some { w with refreshRequested := true, pc := .returned }
  | .returned => none

/-- The flags other threads can read. -/
inductive WatcherFlag where
  | hardCancel
  | refreshRequested
  | tipChanged
  deriving DecidableEq

def Watcher.flag (w : Watcher) : WatcherFlag → Bool
  | .hardCancel => w.hardCancel
  | .refreshRequested => w.refreshRequested
  | .tipChanged => w.tipChanged

/-- Where the owner is: between two calls, at the join of `Finish` or of the
    destructor, at the return statement of `Finish`, or past the destructor. -/
inductive OwnerPc where
  | idle
  | joining (destroying : Bool)
  | loadStatus
  | destroyed
  deriving DecidableEq

/-- A watcher with its owner. What `Finish` returned and what the flags read as
    is recorded in order. -/
structure OwnedWatcher where
  watcher : Watcher
  joinable : Bool
  owner : OwnerPc
  finished : List LongpollStatus
  reads : List (WatcherFlag × Bool)
  deriving DecidableEq

/-- What can happen next: the thread moves, the owner begins a call or moves
    within one, or somebody reads a flag. -/
inductive WatcherAction where
  | run
  | beginFinish
  | beginDestructor
  | owner
  | read (flag : WatcherFlag)
  deriving DecidableEq

namespace OwnedWatcher

/-- The constructor has started the thread. -/
def start (expectedPreviousBlockHash : UInt256) : OwnedWatcher :=
  ⟨Watcher.start expectedPreviousBlockHash, true, .idle, [], []⟩

/-- Entering `CancelAndJoin`, up to its join. -/
def beginCancel (s : OwnedWatcher) (destroying : Bool) : Option OwnedWatcher :=
  if s.owner = .idle then
    some { s with watcher := s.watcher.requestCancel, owner := .joining destroying }
  else none

/-- The owner's step within a call. -/
def ownerStep (s : OwnedWatcher) : Option OwnedWatcher :=
  match s.owner with
  | .joining destroying =>
      -- A thread that was joined before is not joined again.
      if s.joinable = true ∧ s.watcher.pc ≠ .returned then none
      else some { s with
        joinable := false
        owner := if destroying then .destroyed else .loadStatus }
  | .loadStatus => some { s with finished := s.finished ++ [s.watcher.status], owner := .idle }
  | _ => none

end OwnedWatcher

def ownedStep (call : LongpollCall) (s : OwnedWatcher) : WatcherAction → Option OwnedWatcher
  | .run => (runStep s.watcher call).map fun w => { s with watcher := w }
  | .beginFinish => s.beginCancel false
  | .beginDestructor => s.beginCancel true
  | .owner => s.ownerStep
  | .read flag =>
      if s.owner = .destroyed then none
      else some { s with reads := s.reads ++ [(flag, s.watcher.flag flag)] }

end MercaMiner
