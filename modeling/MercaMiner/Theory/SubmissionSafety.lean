import MercaMiner.Basis.Transition
import MercaMiner.Core.Submission

/-!
# Submission Under Lost Replies

What a submission's result says about the node, whatever the connection loses.

The system is the retry loop, the node and the connection between them. The
node accepts the block it is first given and recognises it afterwards; its
height and best block may be different at every request. The connection
delivers a request and its reply, or fails in one of two ways, each of which
leaves open whether the node had seen the request. A failure by cancellation
needs the flag to be raised.

The exchanges are logged in order. The invariant relates the loop's position
to the end of the log: after the reply to `submitblock` was read the node has
the block, and the confirming requests follow it without a gap, so the reply
and the confirmation belong to one attempt.

## Main definitions

* `Node`: What the node remembers.
* `Transport`: What happens to one exchange.
* `SubmissionState`, `submissionStep`: The system.
* `SubmissionOk`: The invariant.

## Theorems

* `submissionStep_cases`: What a step can be.
* `submissionStep_ok`: Every step keeps the invariant.
* `submission_safe`: What holds at the end of every run.
-/

namespace MercaMiner

/-- The node remembers whether it has processed the block. -/
structure Node where
  processed : Bool
  deriving DecidableEq

/-- What the node may choose at a request: which of the two first replies it
    gives, and where its tip is. -/
structure NodeChoice where
  inconclusive : Bool
  height : UInt64
  best : Text
  deriving DecidableEq

/-- The node's reply to a request, and what it remembers. The block it would
    accept is the one with the given text; it rejects any other. -/
def Node.receive (node : Node) (block : Text) (choice : NodeChoice) : RpcRequest → Json × Node
  | .submitBlock data =>
      if data = block then
        (if node.processed then .string (text "duplicate")
          else if choice.inconclusive then .string (text "inconclusive") else .null,
          ⟨true⟩)
      else (.string (text "rejected"), node)
  | .getBlockCount => (.numberUnsigned choice.height, node)
  | .getBestBlockHash => (.string choice.best, node)

/-- What happens to an exchange: it succeeds, or it fails before or after the
    node processed the request. -/
inductive Transport where
  | answered
  | lost (reached : Bool) (what : String)
  | interrupted (reached : Bool)
  deriving DecidableEq

def Transport.reached : Transport → Bool
  | answered => true
  | lost reached _ => reached
  | interrupted reached => reached

def Transport.reply (result : Json) : Transport → RpcReply
  | answered => .value result
  | lost _ what => .rpcException what
  | interrupted _ => .rpcCancelled

structure SubmissionState where
  frame : SubmitFrame
  cancelled : Flag
  node : Node
  log : List (RpcRequest × RpcReply)

/-- A move of the loop by itself, an exchange, or a store to the flag by
    another thread. -/
inductive SubmissionAction where
  | advance
  | exchange (choice : NodeChoice) (t : Transport)
  | storeCancelled (b : Bool)
  deriving DecidableEq

/-- Replies are well formed, and cancellation needs the flag. -/
def Permitted (s : SubmissionState) (choice : NodeChoice) (t : Transport) : Prop :=
  (UInt256.fromHexBE choice.best).isSome = true ∧
    (t = .interrupted t.reached → raised s.cancelled = true)

instance (s : SubmissionState) (choice : NodeChoice) (t : Transport) :
    Decidable (Permitted s choice t) :=
  inferInstanceAs (Decidable (_ ∧ _))

section

variable (args : SubmitArguments)

/-- The block as the node should be given it. -/
def SubmitArguments.blockText : Text :=
  Hex.encode args.candidate.serializedBlock

/-- An exchange of the request the loop is waiting on. -/
def exchangeStep (s : SubmissionState) (choice : NodeChoice) (t : Transport) :
    Option SubmissionState :=
  match s.frame.pc.request args with
  | none => none
  | some request =>
      let answer := s.node.receive args.blockText choice request
      let reply := t.reply answer.1
      (submitStep args s.cancelled s.frame (.reply reply)).map fun frame =>
        { s with
          frame := frame
          node := if t.reached then answer.2 else s.node
          log := s.log ++ [(request, reply)] }

def submissionStep (s : SubmissionState) : SubmissionAction → Option SubmissionState
  | .advance =>
      (submitStep args s.cancelled s.frame .advance).map fun frame => { s with frame := frame }
  | .exchange choice t => if Permitted s choice t then exchangeStep args s choice t else none
  | .storeCancelled b => some { s with cancelled := s.cancelled.map fun _ => b }

/-- The state at the call, with the node not having seen the block. -/
def submissionStart (cancelled : Flag) : SubmissionState :=
  ⟨SubmitFrame.start, cancelled, ⟨false⟩, []⟩

/-- The log ends with the given exchanges. -/
def EndsWith (log ending : List (RpcRequest × RpcReply)) : Prop :=
  ∃ earlier, log = earlier ++ ending

/-- The log of an attempt whose `submitblock` was answered. -/
def Submitted (s : SubmissionState) (rest : List (RpcRequest × RpcReply)) : Prop :=
  s.node.processed = true ∧
    ∃ result, EndsWith s.log ((.submitBlock args.blockText, .value result) :: rest)

/-- The log of an attempt whose confirmation was answered too. -/
def Confirmed (s : SubmissionState) (height : UInt64) (best : UInt256) : Prop :=
  ∃ bestText, UInt256.fromHexBE bestText = some best ∧
    Submitted args s [(.getBlockCount, .value (.numberUnsigned height)),
      (.getBestBlockHash, .value (.string bestText))]

/-- What each position of the loop knows. -/
def PcOk (s : SubmissionState) : Prop :=
  match s.frame.pc with
  | .callCount => Submitted args s []
  | .callBest height => Submitted args s [(.getBlockCount, .value (.numberUnsigned height))]
  | .returned .accepted => Confirmed args s args.expectedHeight args.expectedHash
  | .returned .notCurrentTip => ∃ height best, Confirmed args s height best ∧
      ¬(height = args.expectedHeight ∧ best = args.expectedHash)
  | .returned .rejected => False
  | _ => True

/-- The invariant of a submission. -/
structure SubmissionOk (s : SubmissionState) : Prop where
  sameBytes : ∀ data reply, (RpcRequest.submitBlock data, reply) ∈ s.log → data = args.blockText
  position : PcOk args s

theorem pcOk_threw (s : SubmissionState) (e : SubmitException) (h : s.frame.pc = .threw e) :
    PcOk args s := by
  rw [PcOk, h]
  trivial

theorem pcOk_betweenAttempts (s : SubmissionState) (h : s.frame.pc.betweenAttempts = true) :
    PcOk args s := by
  revert h
  rw [PcOk]
  cases s.frame.pc with
  | checkCancelled | callSubmit | handleCancelled | reloadCookie | sleeping _ =>
      exact fun _ => trivial
  | callCount | callBest _ | returned _ | threw _ =>
      exact fun h => absurd h (by simp only [SubmitPc.betweenAttempts, Bool.false_eq_true,
        not_false_eq_true])

/-- The reply to the block is never a rejection. -/
theorem classify_receive (node : Node) (choice : NodeChoice) :
    ∃ rejection, classifySubmitBlockResult
      (node.receive args.blockText choice (.submitBlock args.blockText)).1 =
        .ok (.needsTipConfirmation, rejection) := by
  simp only [Node.receive, if_pos]
  -- All three replies to the block itself ask for the tip to be confirmed.
  by_cases hprocessed : node.processed = true
  · rw [if_pos hprocessed]
    exact ⟨text "duplicate", classify_known _ (Or.inl rfl)⟩
  rw [if_neg hprocessed]
  by_cases hinconclusive : choice.inconclusive = true
  · rw [if_pos hinconclusive]
    exact ⟨text "inconclusive", classify_known _ (Or.inr rfl)⟩
  · rw [if_neg hinconclusive]
    exact ⟨[], rfl⟩

/-- A value is the reply only when the exchange succeeded. -/
theorem reply_value (t : Transport) (answer result : Json) (h : t.reply answer = .value result) :
    t = .answered ∧ result = answer := by
  cases t with
  | answered =>
      rw [Transport.reply, RpcReply.value.injEq] at h
      exact ⟨rfl, h.symm⟩
  | lost reached what => exact absurd h (by simp only [Transport.reply, reduceCtorEq,
      not_false_eq_true])
  | interrupted reached => exact absurd h (by simp only [Transport.reply, reduceCtorEq,
      not_false_eq_true])

theorem endsWith_snoc (log ending : List (RpcRequest × RpcReply)) (x : RpcRequest × RpcReply)
    (h : EndsWith log ending) : EndsWith (log ++ [x]) (ending ++ [x]) := by
  rcases h with ⟨earlier, rfl⟩
  exact ⟨earlier, List.append_assoc _ _ _⟩

/-- A request other than `submitblock` that succeeds extends the attempt. -/
theorem submitted_snoc (s : SubmissionState) (rest : List (RpcRequest × RpcReply))
    (x : RpcRequest × RpcReply) (frame : SubmitFrame) (h : Submitted args s rest) :
    Submitted args { s with frame := frame, log := s.log ++ [x] } (rest ++ [x]) := by
  rcases h with ⟨hprocessed, result, hlog⟩
  exact ⟨hprocessed, result, endsWith_snoc _ _ x hlog⟩

/-- The three requests the loop waits on, with its position. -/
theorem request_eq (pc : SubmitPc) (request : RpcRequest) (h : pc.request args = some request) :
    (pc = .callSubmit ∧ request = .submitBlock args.blockText) ∨
      (pc = .callCount ∧ request = .getBlockCount) ∨
      ∃ height, pc = .callBest height ∧ request = .getBestBlockHash := by
  cases pc with
  | callSubmit =>
      simp only [SubmitPc.request, Option.some.injEq] at h
      exact Or.inl ⟨rfl, h.symm⟩
  | callCount =>
      simp only [SubmitPc.request, Option.some.injEq] at h
      exact Or.inr (Or.inl ⟨rfl, h.symm⟩)
  | callBest height =>
      simp only [SubmitPc.request, Option.some.injEq] at h
      exact Or.inr (Or.inr ⟨height, rfl, h.symm⟩)
  | _ => exact absurd h (by simp only [SubmitPc.request, reduceCtorEq, not_false_eq_true])

/-- The invariant after an exchange: the logged request is checked here once,
    the position is left to the three cases. -/
theorem sameBytes_snoc (s : SubmissionState) (request : RpcRequest) (reply : RpcReply)
    (hs : SubmissionOk args s) (hrequest : s.frame.pc.request args = some request) :
    ∀ data r, (RpcRequest.submitBlock data, r) ∈ s.log ++ [(request, reply)] →
      data = args.blockText := by
  intro data r hmem
  rcases List.mem_append.mp hmem with hold | hnew
  · exact hs.sameBytes data r hold
  rw [List.mem_singleton, Prod.mk.injEq] at hnew
  -- The loop takes the text from its arguments, which it never changes.
  rcases request_eq args _ request hrequest with ⟨_, rfl⟩ | ⟨_, rfl⟩ | ⟨_, _, rfl⟩
  · exact RpcRequest.submitBlock.inj hnew.1
  · exact absurd hnew.1 (by simp only [reduceCtorEq, not_false_eq_true])
  · exact absurd hnew.1 (by simp only [reduceCtorEq, not_false_eq_true])

theorem exchange_submit (s : SubmissionState) (choice : NodeChoice) (t : Transport)
    (answer : Json × Node)
    (hanswer : answer = s.node.receive args.blockText choice (.submitBlock args.blockText)) :
    PcOk args { s with
      frame := s.frame.caught (t.reply answer.1) s.frame.submitted
      node := if t.reached then answer.2 else s.node
      log := s.log ++ [(.submitBlock args.blockText, t.reply answer.1)] } := by
  rcases s.frame.caught_cases (t.reply answer.1) s.frame.submitted with
    ⟨result, hr, hf⟩ | hidle | ⟨e, hthrew⟩
  · rcases reply_value t answer.1 result hr with ⟨rfl, rfl⟩
    rcases classify_receive args s.node choice with ⟨rejection, hclass⟩
    rw [← hanswer] at hclass
    rw [hf, hr, PcOk]
    simp only [SubmitFrame.submitted, hclass]
    -- The reply arrived, so the node has processed the block.
    refine ⟨?_, answer.1, s.log, rfl⟩
    rw [hanswer, Node.receive, if_pos rfl]
    rfl
  · exact pcOk_betweenAttempts args _ hidle
  · exact pcOk_threw args _ e hthrew

theorem exchange_count (s : SubmissionState) (choice : NodeChoice) (t : Transport)
    (hs : Submitted args s []) :
    PcOk args { s with
      frame := s.frame.caught (t.reply (.numberUnsigned choice.height)) s.frame.counted
      log := s.log ++ [(.getBlockCount, t.reply (.numberUnsigned choice.height))] } := by
  rcases s.frame.caught_cases (t.reply (.numberUnsigned choice.height)) s.frame.counted with
    ⟨result, hr, hf⟩ | hidle | ⟨e, hthrew⟩
  · rcases reply_value t _ result hr with ⟨rfl, rfl⟩
    rw [hf, hr, PcOk]
    exact submitted_snoc args s [] _ _ hs
  · exact pcOk_betweenAttempts args _ hidle
  · exact pcOk_threw args _ e hthrew

theorem exchange_best (s : SubmissionState) (choice : NodeChoice) (t : Transport)
    (height : UInt64) (hbest : (UInt256.fromHexBE choice.best).isSome = true)
    (hs : Submitted args s [(.getBlockCount, .value (.numberUnsigned height))]) :
    PcOk args { s with
      frame := s.frame.caught (t.reply (.string choice.best)) (s.frame.confirmed args height)
      log := s.log ++ [(.getBestBlockHash, t.reply (.string choice.best))] } := by
  rcases s.frame.caught_cases (t.reply (.string choice.best)) (s.frame.confirmed args height) with
    ⟨result, hr, hf⟩ | hidle | ⟨e, hthrew⟩
  · rcases reply_value t _ result hr with ⟨rfl, rfl⟩
    rcases Option.isSome_iff_exists.mp hbest with ⟨best, hparse⟩
    rw [hf, hr]
    have hconfirmed (frame : SubmitFrame) : Confirmed args { s with
        frame := frame
        log := s.log ++ [(.getBestBlockHash, .value (.string choice.best))] } height best :=
      ⟨choice.best, hparse, submitted_snoc args s _ _ frame hs⟩
    simp only [SubmitFrame.confirmed, parseRpcHash, hparse]
    -- What was compared is what the two confirming requests replied.
    by_cases hmatch : confirmAcceptedTip args height best = true
    · rw [if_pos hmatch]
      simp only [confirmAcceptedTip, Bool.and_eq_true, beq_iff_eq] at hmatch
      have h := hconfirmed (s.frame.goto (.returned .accepted))
      rw [hmatch.1, hmatch.2] at h
      exact h
    · rw [if_neg hmatch]
      simp only [confirmAcceptedTip, Bool.and_eq_true, beq_iff_eq] at hmatch
      exact ⟨height, best, hconfirmed (s.frame.goto (.returned .notCurrentTip)), hmatch⟩
  · exact pcOk_betweenAttempts args _ hidle
  · exact pcOk_threw args _ e hthrew

/-- What a move of the system can be. -/
theorem submissionStep_cases (s s' : SubmissionState) (a : SubmissionAction)
    (h : submissionStep args s a = some s') :
    (∃ frame, a = .advance ∧ submitStep args s.cancelled s.frame .advance = some frame ∧
      s' = { s with frame := frame }) ∨
    (∃ choice t request frame, a = .exchange choice t ∧ Permitted s choice t ∧
      s.frame.pc.request args = some request ∧
      submitStep args s.cancelled s.frame
        (.reply (t.reply (s.node.receive args.blockText choice request).1)) = some frame ∧
      s' = { s with
        frame := frame
        node := if t.reached then (s.node.receive args.blockText choice request).2 else s.node
        log := s.log ++
          [(request, t.reply (s.node.receive args.blockText choice request).1)] }) ∨
    ∃ b, a = .storeCancelled b ∧ s' = { s with cancelled := s.cancelled.map fun _ => b } := by
  cases a with
  | advance =>
      simp only [submissionStep, Option.map_eq_some_iff] at h
      rcases h with ⟨frame, hstep, rfl⟩
      exact Or.inl ⟨frame, rfl, hstep, rfl⟩
  | exchange choice t =>
      rw [submissionStep] at h
      by_cases hpermitted : Permitted s choice t
      · rw [if_pos hpermitted, exchangeStep] at h
        cases hrequest : s.frame.pc.request args with
        | none =>
            simp only [hrequest] at h
            exact absurd h (by simp only [reduceCtorEq, not_false_eq_true])
        | some request =>
            simp only [hrequest, Option.map_eq_some_iff] at h
            rcases h with ⟨frame, hstep, rfl⟩
            exact Or.inr (Or.inl ⟨choice, t, request, frame, rfl, hpermitted, rfl, hstep, rfl⟩)
      · rw [if_neg hpermitted] at h
        exact absurd h (by simp only [reduceCtorEq, not_false_eq_true])
  | storeCancelled b =>
      simp only [submissionStep, Option.some.injEq] at h
      exact Or.inr (Or.inr ⟨b, rfl, h.symm⟩)

/-- An exchange keeps the invariant, whatever the node chooses and the
    connection does to it. -/
theorem exchange_ok (s : SubmissionState) (choice : NodeChoice) (t : Transport)
    (request : RpcRequest) (frame : SubmitFrame) (hpermitted : Permitted s choice t)
    (hs : SubmissionOk args s) (hrequest : s.frame.pc.request args = some request)
    (hstep : submitStep args s.cancelled s.frame
      (.reply (t.reply (s.node.receive args.blockText choice request).1)) = some frame) :
    SubmissionOk args { s with
      frame := frame
      node := if t.reached then (s.node.receive args.blockText choice request).2 else s.node
      log := s.log ++ [(request, t.reply (s.node.receive args.blockText choice request).1)] } := by
  refine ⟨sameBytes_snoc args s request _ hs hrequest, ?_⟩
  have hposition := hs.position
  -- The position decides which request it was.
  rcases submitStep_effect args s.cancelled s.frame frame _ hstep with
    _ | _ | _ | ⟨_, hpc⟩ | ⟨_, hpc⟩ | ⟨_, height, hpc⟩
  · rw [hpc, SubmitPc.request, Option.some.injEq] at hrequest
    subst hrequest
    exact exchange_submit args s choice t _ rfl
  · rw [hpc, SubmitPc.request, Option.some.injEq] at hrequest
    subst hrequest
    rw [PcOk, hpc] at hposition
    simp only [Node.receive, ite_self]
    exact exchange_count args s choice t hposition
  · rw [hpc, SubmitPc.request, Option.some.injEq] at hrequest
    subst hrequest
    rw [PcOk, hpc] at hposition
    simp only [Node.receive, ite_self]
    exact exchange_best args s choice t height hpermitted.1 hposition

theorem submissionStep_ok (s s' : SubmissionState) (a : SubmissionAction)
    (hs : SubmissionOk args s) (h : submissionStep args s a = some s') : SubmissionOk args s' := by
  rcases submissionStep_cases args s s' a h with
    ⟨frame, _, hstep, rfl⟩ | ⟨choice, t, request, frame, _, hpermitted, hrequest, hstep, rfl⟩ |
      ⟨b, _, rfl⟩
  · -- By itself the loop stays between attempts, or leaves with an exception.
    refine ⟨hs.sameBytes, ?_⟩
    rcases submitStep_effect args s.cancelled s.frame frame _ hstep with
      ⟨_, hidle⟩ | _ | _ | _ | _ | _
    · exact pcOk_betweenAttempts args _ hidle
    · exact trivial
    · exact trivial
  · exact exchange_ok args s choice t request frame hpermitted hs hrequest hstep
  · exact ⟨hs.sameBytes, hs.position⟩

theorem submissionStart_ok (cancelled : Flag) : SubmissionOk args (submissionStart cancelled) :=
  ⟨fun _ _ h => absurd h List.not_mem_nil, trivial⟩

/-- What happens to the flag and the position in one step. -/
theorem submissionStep_cancelled (s s' : SubmissionState) (a : SubmissionAction)
    (h : submissionStep args s a = some s') :
    (raised s'.cancelled = true → raised s.cancelled = true ∨ a = .storeCancelled true) ∧
      (s'.frame.pc = .returned .cancelled →
        raised s.cancelled = true ∨ s.frame.pc = .returned .cancelled) := by
  rcases submissionStep_cases args s s' a h with
    ⟨frame, _, hstep, rfl⟩ | ⟨_, _, _, frame, _, _, _, hstep, rfl⟩ | ⟨b, rfl, rfl⟩
  · exact ⟨Or.inl, fun hpc => Or.inl (submitStep_cancelled args _ _ _ _ hstep hpc)⟩
  · exact ⟨Or.inl, fun hpc => Or.inl (submitStep_cancelled args _ _ _ _ hstep hpc)⟩
  · refine ⟨fun hraised => ?_, Or.inr⟩
    cases b with
    | true => exact Or.inr rfl
    | false =>
        -- A lowered flag is not raised, and neither is a null one.
        cases hflag : s.cancelled with
        | none => exact absurd hraised (by simp only [hflag, Option.map_none, raised,
            beq_iff_eq, reduceCtorEq, not_false_eq_true])
        | some c => exact absurd hraised (by simp only [hflag, Option.map_some, raised,
            beq_iff_eq, Option.some.injEq, Bool.false_eq_true, not_false_eq_true])

/-- Whatever is given up was given up for a flag that was raised at the start
    or by a store since. -/
theorem cancelled_traced (cancelled : Flag) (acts : List SubmissionAction) (s : SubmissionState)
    (h : Transition.run (submissionStep args) (submissionStart cancelled) acts = some s) :
    (raised s.cancelled = true ∨ s.frame.pc = .returned .cancelled) →
      raised cancelled = true ∨ .storeCancelled true ∈ acts := by
  refine Transition.run_trace_invariant (submissionStep args)
    (fun tr s => (raised s.cancelled = true ∨ s.frame.pc = .returned .cancelled) →
      raised cancelled = true ∨ .storeCancelled true ∈ tr) _ ?_ ?_ acts s h
  · rintro (hraised | hpc)
    · exact Or.inl hraised
    · exact absurd hpc (by simp only [submissionStart, SubmitFrame.start, reduceCtorEq,
        not_false_eq_true])
  intro tr s a s' _ ih hstep hs'
  -- Either it was so before the step, or the step is the store.
  rcases submissionStep_cancelled args s s' a hstep with ⟨hflag, hpc⟩
  rcases (hs'.elim (fun hr => (hflag hr).imp Or.inl id) fun hp => Or.inl (hpc hp)) with
    hbefore | rfl
  · exact (ih hbefore).imp id fun hmem => List.mem_append_left _ hmem
  · exact Or.inr (List.mem_append_right _ (List.mem_singleton_self _))

end

/-- Whatever the connection loses: every attempt submits the same bytes, the
    block is never reported rejected, an accepted or a superseded block was
    submitted and compared within one attempt, and only a raised flag makes
    the loop give up. -/
theorem submission_safe (args : SubmitArguments) (cancelled : Flag)
    (acts : List SubmissionAction) (s : SubmissionState)
    (h : Transition.run (submissionStep args) (submissionStart cancelled) acts = some s) :
    (∀ data reply, (RpcRequest.submitBlock data, reply) ∈ s.log →
      data = Hex.encode args.candidate.serializedBlock) ∧
    s.frame.pc ≠ .returned .rejected ∧
    (s.frame.pc = .returned .accepted →
      Confirmed args s args.expectedHeight args.expectedHash) ∧
    (s.frame.pc = .returned .notCurrentTip → s.node.processed = true ∧
      ∃ height best, Confirmed args s height best ∧
        ¬(height = args.expectedHeight ∧ best = args.expectedHash)) ∧
    (s.frame.pc = .returned .cancelled →
      raised cancelled = true ∨ .storeCancelled true ∈ acts) := by
  have hs := Transition.run_invariant (submissionStep args) (SubmissionOk args)
    (fun s a s' => submissionStep_ok args s s' a) _ (submissionStart_ok args cancelled) acts s h
  have hposition := hs.position
  rw [PcOk] at hposition
  refine ⟨hs.sameBytes, fun hpc => ?_, fun hpc => ?_, fun hpc => ?_, fun hpc => ?_⟩
  · rw [hpc] at hposition
    exact hposition
  · rw [hpc] at hposition
    exact hposition
  · rw [hpc] at hposition
    rcases hposition with ⟨height, best, hconfirmed, hne⟩
    have ⟨_, _, hprocessed, _⟩ := hconfirmed
    exact ⟨hprocessed, height, best, hconfirmed, hne⟩
  · exact cancelled_traced args cancelled acts s h (Or.inr hpc)

/-- A block of two bytes that should become block 7, with an all-zero hash. -/
def twoByteArguments : SubmitArguments where
  candidate := ⟨⟨1, UInt256.zero, UInt256.zero, 0, 0, 0⟩,
    ⟨[], [], [], UInt256.zero, UInt256.zero⟩, [0xab, 0x01]⟩
  expectedHeight := 7
  expectedHash := UInt256.zero

/-- The first reply is lost after the node took the block, the second attempt
    loses the height, and the third succeeds. -/
def lossyRun : List SubmissionAction :=
  let choice : NodeChoice := ⟨false, 7, List.replicate 64 '0'.toUInt8⟩
  let pause := List.replicate 102 .advance
  [.advance, .exchange choice (.lost true "timeout")] ++ pause ++
    [.advance, .exchange choice .answered, .exchange choice (.lost false "refused")] ++ pause ++
    [.advance, .exchange choice .answered, .exchange choice .answered, .exchange choice .answered]

theorem submission_safe_lossy :
    ∃ s, Transition.run (submissionStep twoByteArguments) (submissionStart (some false)) lossyRun =
        some s ∧
      s.frame.pc = .returned .accepted ∧ Confirmed twoByteArguments s 7 UInt256.zero := by
  have hrun : (Transition.run (submissionStep twoByteArguments) (submissionStart (some false))
      lossyRun).map (fun s => s.frame.pc) = some (.returned .accepted) := by decide +kernel
  rcases Option.map_eq_some_iff.mp hrun with ⟨s, hs, hpc⟩
  exact ⟨s, hs, hpc, (submission_safe twoByteArguments (some false) lossyRun s hs).2.2.1 hpc⟩

end MercaMiner
