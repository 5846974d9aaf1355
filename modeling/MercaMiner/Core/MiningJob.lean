import MercaMiner.Core.BlockBuilder

/-!
# Mining Jobs

Handing out one candidate after the other for a template, from
`mining_job.cpp`.

A job counts an extranonce up and rebuilds the block for each. Building may
throw, for a reason in the template or because memory runs out, which no
argument of the call decides; the latter is an argument of `nextCandidate`
here, so that a list of such arguments is a sequence of calls.

## Main definitions

* `encodeExtranonce64`: The extranonce's bytes in the coinbase script.
* `MiningJob`: The job, which always has a payout script.
* `nextCandidate`: One call, with the state it leaves behind.
* `runCalls`: A sequence of calls.

## Theorems

* `encodeExtranonce64_eq`: The bytes are little endian.
-/

namespace MercaMiner

def encodeExtranonce64 (value : UInt64) : Bytes :=
  (List.range 8).map fun i => (value >>> UInt64.ofNat (8 * i)).toUInt8

/-- The exceptions of a job. The first two are the ones of its own type, the
    others come from the builder and the allocator. -/
inductive JobError where
  | emptyPayout
  | exhausted
  | build (e : BlockBuildError)
  | badAlloc
  deriving DecidableEq

def JobError.what : JobError → String
  | emptyPayout => "mining payout script must not be empty"
  | exhausted => "mining extranonce space exhausted"
  | build e => e.what
  | badAlloc => "std::bad_alloc"

structure MiningCandidate where
  candidate : BlockCandidate
  extranonce : UInt64
  deriving DecidableEq

structure MiningJob where
  blockTemplate : BlockTemplate
  payoutScript : Bytes
  nextExtranonce : UInt64
  extranonceExhausted : Bool
  payoutScript_ne : payoutScript ≠ []
  deriving DecidableEq

namespace MiningJob

/-- The constructor. -/
def create (blockTemplate : BlockTemplate) (payoutScript : Bytes) (initialExtranonce : UInt64) :
    Except JobError MiningJob :=
  if h : payoutScript = [] then .error .emptyPayout
  else .ok ⟨blockTemplate, payoutScript, initialExtranonce, false, h⟩

/-- Building the block of the next extranonce. -/
def buildNext (job : MiningJob) (outOfMemory : Bool) : Except JobError BlockCandidate :=
  if outOfMemory then .error .badAlloc
  else match buildBlockCandidate job.blockTemplate job.payoutScript
      (encodeExtranonce64 job.nextExtranonce) with
    | .error e => .error (.build e)
    | .ok candidate => .ok candidate

/-- The extranonce is moved on, or the job is exhausted after the last one. -/
def advance (job : MiningJob) : MiningJob :=
  -- The last extranonce is handed out, and then the counter stays.
  if job.nextExtranonce = 0xffffffffffffffff then { job with extranonceExhausted := true }
  else { job with nextExtranonce := job.nextExtranonce + 1 }

def nextCandidate (job : MiningJob) (outOfMemory : Bool) :
    Except JobError MiningCandidate × MiningJob :=
  if job.extranonceExhausted then (.error .exhausted, job)
  else match job.buildNext outOfMemory with
    | .error e => (.error e, job)
    | .ok candidate => (.ok ⟨candidate, job.nextExtranonce⟩, job.advance)

def hasMoreCandidates (job : MiningJob) : Bool :=
  !job.extranonceExhausted

/-- A sequence of calls: what each returned, and the job afterwards. -/
def runCalls (job : MiningJob) : List Bool → List (Except JobError MiningCandidate) × MiningJob
  | [] => ([], job)
  | outOfMemory :: calls =>
      let (result, next) := job.nextCandidate outOfMemory
      let (results, final) := next.runCalls calls
      (result :: results, final)

end MiningJob

/-- The candidates that successful calls returned, in order. -/
def handedOut (results : List (Except JobError MiningCandidate)) : List MiningCandidate :=
  results.filterMap Except.toOption

theorem encodeExtranonce64_eq (value : UInt64) :
    encodeExtranonce64 value = LittleEndian.bytes 8 value.toNat := by
  have h := appendLE64_eq [] value
  simp only [appendLE64, List.nil_append] at h
  rw [← h]
  rfl

theorem length_encodeExtranonce64 (value : UInt64) : (encodeExtranonce64 value).length = 8 := by
  rw [encodeExtranonce64_eq, LittleEndian.length_bytes]

theorem encodeExtranonce64_inj (v w : UInt64)
    (h : encodeExtranonce64 v = encodeExtranonce64 w) : v = w := by
  rw [encodeExtranonce64_eq, encodeExtranonce64_eq] at h
  have hvalue := congrArg LittleEndian.value h
  have hv := v.toNat_lt
  have hw := w.toNat_lt
  rw [LittleEndian.value_bytes, LittleEndian.value_bytes] at hvalue
  exact UInt64.toNat_inj.mp (by omega)

end MercaMiner
