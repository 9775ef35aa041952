import Beryl.Jobs.Record

/-!
# Jobs/Mutation — admitting a job and moving it on

An admission writes a fresh job and its entry in each index; it is refused unless the last attempt
of the discussion has failed for good.  A transition rewrites one job, with the next revision, and
its entry among the live jobs.  A caller either names the revision it expects, or prepares the
transition from a record it has read and commits it if that record is still current.
-/

namespace Beryl.Jobs

open Fallible Home

/-- Why a mutation is refused. -/
inductive DurableJobMutationError
  | attemptOrdinalExhausted
  | revision (source : RevisionError)
  | requestAlreadyAdmitted (existing : ResolutionRequestAdmission)
  | jobAlreadyExists (jobId : JobId)
  | jobMissing (jobId : JobId)
  | attemptAlreadyExists (key : DiscussionAttemptKey)
  | attemptOrdinalConflict (expected actual : ResolutionAttemptOrdinal)
  | liveAttemptExists (jobId : JobId)
  | successfulAttemptExists (jobId : JobId)
  | jobRevisionConflict (expected current : JobRevision)
  | invalidTransition (expected : String) (current : BranchHandoffJobLifecycle)
  | failureKindMismatch (expected : String) (actual : HandoffFailureKind)
  | invariant (message : String)
deriving DecidableEq

/-- What a mutation gives. -/
abbrev Mutated (α : Type) := Except DurableJobMutationError α

/-! ## Reading -/

section

variable (store : JobStore) (jobId : JobId)

/-- A stored job. -/
def requiredJob : Mutated BranchHandoffJobRecord :=
  required (.jobMissing jobId) store.records[jobId]?

/-- A job whose entries in the indices agree with it. -/
def readIdentity : Mutated BranchHandoffJobRecord := do
  let job ← requiredJob store jobId
  ensure (job.jobId = jobId ∧ store.live[jobId]? = (if job.isLive then some job else none)
      ∧ store.requests[job.request]? = some (.fromJob job)
      ∧ store.attempts[job.attemptKey]? = some jobId)
    (.invariant "handoff job index closure disagrees")
  return job

/-- The live job that is the latest attempt of its discussion. -/
def readAuthenticated : Mutated BranchHandoffJobRecord := do
  let job ← readIdentity store jobId
  ensure (job.isLive = true ∧ store.latest[job.discussionThreadId]? = some (.fromJob job))
    (.invariant "handoff job latest-attempt closure disagrees")
  return job

end

/-! ## Admission -/

/-- The last attempt of a discussion, if it failed for good. -/
def priorAttempt (store : JobStore) (discussion : SyndicThreadId) :
    Mutated (Option BranchHandoffJobRecord) :=
  match store.latest[discussion]? with
  | none => .ok none
  | some latest => do
    let prior ← readIdentity store latest.jobId
    ensure (prior.discussionThreadId = discussion ∧ LatestBranchHandoffAttempt.fromJob prior =
      latest)
      (.invariant "latest-attempt index does not match its authoritative job")
    match prior.lifecycle with
    | .terminalFailed => .ok (some prior)
    | .succeeded => .error (.successfulAttemptExists prior.jobId)
    | _ => .error (.liveAttemptExists prior.jobId)

/-- The ordinal of the attempt after another. -/
def expectedAttempt : Option BranchHandoffJobRecord → Mutated ResolutionAttemptOrdinal
  | none => .ok firstAttempt
  | some prior => prior.attemptOrdinal.checkedNext.mapError fun _ => .attemptOrdinalExhausted

/-- Checks an admission; the attempt before it. -/
def validateNew (store : JobStore) (job : BranchHandoffJobRecord) :
    Mutated (Option BranchHandoffJobRecord) := do
  match store.requests[job.request]? with
  | some existing => .error (.requestAlreadyAdmitted existing)
  | none => do
    ensure (store.records[job.jobId]? = none) (.jobAlreadyExists job.jobId)
    ensure (store.live[job.jobId]? = none)
      (.invariant "live-job index exists without its authoritative job record")
    ensure (store.attempts[job.attemptKey]? = none) (.attemptAlreadyExists job.attemptKey)
    let prior ← priorAttempt store job.discussionThreadId
    let expected ← expectedAttempt prior
    ensure (job.attemptOrdinal = expected) (.attemptOrdinalConflict expected job.attemptOrdinal)
    return prior

/-- Stores an admitted job. -/
def JobStore.writeAdmission (store : JobStore) (job : BranchHandoffJobRecord) : JobStore where
  records := store.records.insert job.jobId job
  live := store.live.insert job.jobId job
  requests := store.requests.insert job.request (.fromJob job)
  attempts := store.attempts.insert job.attemptKey job.jobId
  latest := store.latest.insert job.discussionThreadId (.fromJob job)

/-- Admits a job. -/
def admitBranchHandoffJob (store : JobStore) (admission : BranchHandoffJobAdmission) :
    Mutated JobStore := do
  let job := BranchHandoffJobRecord.initial admission
  let _ ← validateNew store job
  return store.writeAdmission job

/-- A prepared admission is refused if its predecessor has changed. -/
def admitPrepared (store : JobStore) (admission : BranchHandoffJobAdmission)
    (prior : Option BranchHandoffJobRecord) : Mutated JobStore := do
  let job := BranchHandoffJobRecord.initial admission
  let current ← validateNew store job
  ensure (current = prior) (.invariant "handoff admission predecessor changed")
  return store.writeAdmission job

/-! ## Successors -/

section

variable (job : BranchHandoffJobRecord)

/-- The next revision, in another state. -/
def advance (job : BranchHandoffJobRecord) (state : BranchHandoffJobState) :
    Mutated BranchHandoffJobRecord := do
  let revision ← job.revision.checkedNext.mapError .revision
  return { job with state := state, revision := revision }

/-- Back to the checkpoint. -/
def retryJob : Mutated BranchHandoffJobRecord :=
  match job.state with
  | .retryableFailed resume _ _ => advance job resume.intoState
  | _ => .error (.invalidTransition "retryable_failed" job.lifecycle)

/-- The parent's turn is accepted. -/
def parentAcceptedJob (cas : ParentCasIdentity) : Mutated BranchHandoffJobRecord :=
  match job.state with
  | .startingParent parent => advance job (.parentActive parent cas)
  | _ => .error (.invalidTransition "starting_parent" job.lifecycle)

/-- The parent's turn has succeeded. -/
def succeededJob : Mutated BranchHandoffJobRecord :=
  match job.state with
  | .parentActive parent cas => advance job (.succeeded parent cas)
  | _ => .error (.invalidTransition "parent_active" job.lifecycle)

/-- The parent's turn starts. -/
def startParentJob (parent : ParentHandoffIdentity) : Mutated BranchHandoffJobRecord :=
  match job.state with
  | .waitingParent => advance job (.startingParent parent)
  | _ => .error (.invalidTransition "waiting parent" job.lifecycle)

/-- The resolving turn is over. -/
def completeResolvingJob : Mutated BranchHandoffJobRecord :=
  match job.state with
  | .waitingResolvingTurn => advance job .waitingParent
  | _ => .error (.invalidTransition "waiting resolving turn" job.lifecycle)

/-- The checkpoint of a job, and that a failure of this kind fits it. -/
def validateFailureCheckpoint (evidence : HandoffFailureEvidence)
    (failureLifecycle : BranchHandoffJobLifecycle) :
    Mutated { checkpoint : BranchHandoffCheckpoint //
      failureStateIsCompatible failureLifecycle checkpoint evidence.kind = true } :=
  match job.state.checkpoint with
  | none => .error
      (.invariant "job state changed between transition validation and contribution")
  | some checkpoint =>
    if h : failureStateIsCompatible failureLifecycle checkpoint evidence.kind = true then
      .ok ⟨checkpoint, h⟩
    else .error
      (.failureKindMismatch "failure kind valid for the retained checkpoint" evidence.kind)

/-- A failure that can be retried. -/
def retryableFailedJob (evidence : HandoffFailureEvidence) : Mutated BranchHandoffJobRecord := do
  ensure (job.lifecycle ∈ [.waitingResolvingTurn, .waitingParent, .startingParent, .parentActive])
    (.invalidTransition "a non-failed live checkpoint" job.lifecycle)
  let ⟨resume, compatible⟩ ← validateFailureCheckpoint job evidence .retryableFailed
  advance job (.retryableFailed resume evidence compatible)

/-- A failure for good. -/
def terminalFailedJob (evidence : HandoffFailureEvidence) : Mutated BranchHandoffJobRecord := do
  ensure (job.isLive = true) (.invalidTransition "a live job" job.lifecycle)
  let ⟨stoppedAt, compatible⟩ ← validateFailureCheckpoint job evidence .terminalFailed
  advance job (.terminalFailed stoppedAt evidence compatible)

end

/-- The transitions. -/
inductive HandoffJobTransition
  | retry | completeResolving
  | childInputPending (evidence : HandoffFailureEvidence)
  | startParent (parent : ParentHandoffIdentity)
  | parentArchived (evidence : HandoffFailureEvidence)
  | parentAccepted (cas : ParentCasIdentity)
  | retryableFailure (evidence : HandoffFailureEvidence)
  | terminalFailure (evidence : HandoffFailureEvidence)
  | succeed
deriving DecidableEq

/-- What a transition makes of a job. -/
def HandoffJobTransition.successor (job : BranchHandoffJobRecord) :
    HandoffJobTransition → Mutated BranchHandoffJobRecord
  | retry => retryJob job
  | completeResolving => completeResolvingJob job
  | startParent parent => startParentJob job parent
  | parentAccepted cas => parentAcceptedJob job cas
  | retryableFailure evidence => retryableFailedJob job evidence
  | terminalFailure evidence => terminalFailedJob job evidence
  | succeed => succeededJob job
  | childInputPending evidence => do
    ensure (evidence.kind = .childInputPending)
      (.failureKindMismatch "child input pending" evidence.kind)
    terminalFailedJob job evidence
  | parentArchived evidence => do
    ensure (evidence.kind = .parentArchived) (.failureKindMismatch "parent archived" evidence.kind)
    terminalFailedJob job evidence

/-! ## Transitions -/

/-- Stores a live job. -/
def JobStore.putLiveTransition (store : JobStore) (job : BranchHandoffJobRecord) : JobStore :=
  { store with
    records := store.records.insert job.jobId job
    live := store.live.insert job.jobId job }

/-- Stores an ended job. -/
def JobStore.putTerminalTransition (store : JobStore) (job : BranchHandoffJobRecord) : JobStore :=
  { store with
    records := store.records.insert job.jobId job
    live := store.live.erase job.jobId }

/-- A transition prepared from a record: what it read and what it made of it. -/
structure HandoffJobTransitionWitness where
  old : BranchHandoffJobRecord
  new : BranchHandoffJobRecord
  transition : HandoffJobTransition
  derived : transition.successor old = .ok new

/-- Commits a prepared transition. -/
def commitPrepared (store : JobStore) (witness : HandoffJobTransitionWitness) :
    Mutated JobStore := do
  let current ← readAuthenticated store witness.old.jobId
  ensure (current = witness.old) (.invariant "handoff job transition source changed")
  return if witness.new.isLive then store.putLiveTransition witness.new
    else store.putTerminalTransition witness.new

/-- The job at the expected revision. -/
def validateCurrent (store : JobStore) (jobId : JobId) (expectedJobRevision : JobRevision) :
    Mutated BranchHandoffJobRecord := do
  let job ← requiredJob store jobId
  ensure (expectedJobRevision = job.revision)
    (.jobRevisionConflict expectedJobRevision job.revision)
  return job

/-- The job in the expected state. -/
def validateLifecycle (store : JobStore) (jobId : JobId) (expectedJobRevision : JobRevision)
    (expectedLifecycle : BranchHandoffJobLifecycle) : Mutated BranchHandoffJobRecord := do
  let job ← validateCurrent store jobId expectedJobRevision
  ensure (job.lifecycle = expectedLifecycle)
    (.invalidTransition expectedLifecycle.name job.lifecycle)
  return job

section

variable (store : JobStore) (jobId : JobId) (expectedJobRevision : JobRevision)

/-- `complete_resolving_turn` -/
def completeResolvingTurn : Mutated JobStore := do
  let job ← validateLifecycle store jobId expectedJobRevision .waitingResolvingTurn
  return store.putLiveTransition (← completeResolvingJob job)

/-- `start_parent_handoff` -/
def startParentHandoff (parent : ParentHandoffIdentity) : Mutated JobStore := do
  let job ← validateLifecycle store jobId expectedJobRevision .waitingParent
  return store.putLiveTransition (← startParentJob job parent)

/-- `record_parent_cas_acceptance` -/
def recordParentCasAcceptance (cas : ParentCasIdentity) : Mutated JobStore := do
  let job ← validateCurrent store jobId expectedJobRevision
  return store.putLiveTransition (← parentAcceptedJob job cas)

/-- `record_retryable_handoff_failure` -/
def recordRetryableHandoffFailure (evidence : HandoffFailureEvidence) : Mutated JobStore := do
  let job ← validateCurrent store jobId expectedJobRevision
  return store.putLiveTransition (← retryableFailedJob job evidence)

/-- `retry_branch_handoff` -/
def retryBranchHandoff : Mutated JobStore := do
  let job ← validateCurrent store jobId expectedJobRevision
  return store.putLiveTransition (← retryJob job)

/-- `record_terminal_handoff_failure` -/
def recordTerminalHandoffFailure (evidence : HandoffFailureEvidence) : Mutated JobStore := do
  let job ← validateCurrent store jobId expectedJobRevision
  return store.putTerminalTransition (← terminalFailedJob job evidence)

/-- `succeed_branch_handoff` -/
def succeedBranchHandoff : Mutated JobStore := do
  let job ← validateCurrent store jobId expectedJobRevision
  return store.putTerminalTransition (← succeededJob job)

end

/-! ## Runs -/

/-- A mutation of the domain. -/
inductive JobCommand
  | admitBranchHandoffJob (admission : BranchHandoffJobAdmission)
  | admitPrepared (admission : BranchHandoffJobAdmission) (prior : Option BranchHandoffJobRecord)
  | completeResolvingTurn (jobId : JobId) (expected : JobRevision)
  | startParentHandoff (jobId : JobId) (expected : JobRevision) (parent : ParentHandoffIdentity)
  | recordParentCasAcceptance (jobId : JobId) (expected : JobRevision) (cas : ParentCasIdentity)
  | recordRetryableHandoffFailure (jobId : JobId) (expected : JobRevision)
    (evidence : HandoffFailureEvidence)
  | retryBranchHandoff (jobId : JobId) (expected : JobRevision)
  | recordTerminalHandoffFailure (jobId : JobId) (expected : JobRevision)
    (evidence : HandoffFailureEvidence)
  | succeedBranchHandoff (jobId : JobId) (expected : JobRevision)
  | commitPrepared (witness : HandoffJobTransitionWitness)

/-- One command on the store. -/
def JobCommand.execute (store : JobStore) : JobCommand → Mutated JobStore
  | admitBranchHandoffJob admission => Jobs.admitBranchHandoffJob store admission
  | admitPrepared admission prior => Jobs.admitPrepared store admission prior
  | completeResolvingTurn jobId expected => Jobs.completeResolvingTurn store jobId expected
  | startParentHandoff jobId expected parent => Jobs.startParentHandoff store jobId expected parent
  | recordParentCasAcceptance jobId expected cas =>
    Jobs.recordParentCasAcceptance store jobId expected cas
  | recordRetryableHandoffFailure jobId expected evidence =>
    Jobs.recordRetryableHandoffFailure store jobId expected evidence
  | retryBranchHandoff jobId expected => Jobs.retryBranchHandoff store jobId expected
  | recordTerminalHandoffFailure jobId expected evidence =>
    Jobs.recordTerminalHandoffFailure store jobId expected evidence
  | succeedBranchHandoff jobId expected => Jobs.succeedBranchHandoff store jobId expected
  | commitPrepared witness => Jobs.commitPrepared store witness

/-- What accepted commands lead to. -/
inductive JobRun (first : JobStore) : JobStore → Prop
  | start : JobRun first first
  | step {store next : JobStore} (command : JobCommand) (run : JobRun first store)
    (accepted : command.execute store = .ok next) : JobRun first next

end Beryl.Jobs
