import Beryl.Home.Metadata
import Beryl.Machinery.Keyspace

/-!
# Jobs/Record — a durable branch-handoff job

A discussion that was resolved hands its resolution over to its parent thread.  Each attempt to do
so is a job: it waits for the resolving turn, then for the parent; it starts the parent's turn, and
the turn is accepted and succeeds.  A failure keeps the checkpoint it happened at, and **its kind
fits the checkpoint**: `BranchHandoffJobState` cannot hold one that does not.

Identities of sixteen bytes are numbers, in the order of their bytes.
-/

namespace Beryl.Jobs

open Home Keyspace Std

/-! ## Values -/

/-- A job. -/
abbrev JobId := ℕ
/-- An intent. -/
abbrev ResolutionIntentId := ℕ
/-- A thread. -/
abbrev SyndicThreadId := ℕ
/-- A turn. -/
abbrev SyndicTurnId := ℕ

/-- The job that an admitted intent owns. -/
def branchHandoffJobId (intentId : ResolutionIntentId) : JobId := intentId

/-- How often a job has moved. -/
abbrev JobRevision := Revision

/-- The one-based order of the attempts of a discussion. -/
abbrev ResolutionAttemptOrdinal := Revision

/-- The first attempt. -/
def firstAttempt : ResolutionAttemptOrdinal := .first

/-- The correlation that makes one tool request idempotent. -/
structure ResolutionRequestIdentity where
  casThreadId : String
  casTurnId : String
  toolCallId : String
deriving DecidableEq

instance : Ord ResolutionRequestIdentity :=
  ⟨compareLex (compareOn ResolutionRequestIdentity.casThreadId)
    (compareLex (compareOn ResolutionRequestIdentity.casTurnId)
      (compareOn ResolutionRequestIdentity.toolCallId))⟩

instance : TransOrd ResolutionRequestIdentity :=
  inferInstanceAs (TransCmp (compareLex (compareOn ResolutionRequestIdentity.casThreadId)
    (compareLex (compareOn ResolutionRequestIdentity.casTurnId)
      (compareOn ResolutionRequestIdentity.toolCallId))))

instance : LawfulEqOrd ResolutionRequestIdentity where
  eq_of_compare := by
    rintro ⟨thread, turn, call⟩ ⟨thread', turn', call'⟩ h
    have hlex : (compare thread thread').then ((compare turn turn').then (compare call call')) =
        .eq :=
      h
    rw [Ordering.then_eq_eq, Ordering.then_eq_eq, Std.compare_eq_iff_eq, Std.compare_eq_iff_eq,
      Std.compare_eq_iff_eq] at hlex
    obtain ⟨rfl, rfl, rfl⟩ := hlex
    rfl

/-- The Syndic identities that the parent's admission made. -/
structure ParentHandoffIdentity where
  acceptedInputId : ℕ
  turnId : SyndicTurnId
deriving DecidableEq

/-- The CAS identities of the parent's turn. -/
structure ParentCasIdentity where
  threadId : String
  turnId : String
deriving DecidableEq

/-- What failed. -/
inductive HandoffFailureKind
  | runtimeUnavailable | rootUnavailable | casUnavailable | transientDeliveryFailure
  | casRejectedBeforeAcceptance | invariantViolation | parentMissing | unrecoverablePostAppend
  | parentInterrupted | parentIncomplete | parentTerminalFailure | childInputPending
  | parentArchived
deriving DecidableEq

/-- It may be tried again. -/
def HandoffFailureKind.isRetryable : HandoffFailureKind → Bool
  | runtimeUnavailable | rootUnavailable | casUnavailable | transientDeliveryFailure
  | casRejectedBeforeAcceptance => true
  | _ => false

/-- It may not. -/
def HandoffFailureKind.isTerminal (kind : HandoffFailureKind) : Bool := !kind.isRetryable

/-- A failure, with details. -/
structure HandoffFailureEvidence where
  kind : HandoffFailureKind
  detail : Option String
deriving DecidableEq

/-! ## States -/

/-- How far a job has come. -/
inductive BranchHandoffJobLifecycle
  | waitingResolvingTurn | waitingParent | startingParent | parentActive | retryableFailed
  | terminalFailed | succeeded
deriving DecidableEq

namespace BranchHandoffJobLifecycle

/-- It has not ended. -/
def isLive : BranchHandoffJobLifecycle → Bool
  | waitingResolvingTurn | waitingParent | startingParent | parentActive | retryableFailed => true
  | terminalFailed | succeeded => false

/-- Its stored name. -/
def name : BranchHandoffJobLifecycle → String
  | waitingResolvingTurn => "waiting_resolving_turn"
  | waitingParent => "waiting_parent"
  | startingParent => "starting_parent"
  | parentActive => "parent_active"
  | retryableFailed => "retryable_failed"
  | terminalFailed => "terminal_failed"
  | succeeded => "succeeded"

end BranchHandoffJobLifecycle

/-- The last state without a failure, with the identities it had recorded. -/
inductive BranchHandoffCheckpoint
  | waitingResolvingTurn | waitingParent
  | startingParent (parent : ParentHandoffIdentity)
  | parentActive (parent : ParentHandoffIdentity) (cas : ParentCasIdentity)
deriving DecidableEq

namespace BranchHandoffCheckpoint

/-- The step it was taken at. -/
def lifecycle : BranchHandoffCheckpoint → BranchHandoffJobLifecycle
  | waitingResolvingTurn => .waitingResolvingTurn
  | waitingParent => .waitingParent
  | startingParent _ => .startingParent
  | parentActive _ _ => .parentActive

/-- The turn of the parent, if known. -/
def parent : BranchHandoffCheckpoint → Option ParentHandoffIdentity
  | waitingResolvingTurn | waitingParent => none
  | startingParent parent => some parent
  | parentActive parent _ => some parent

/-- Its acceptance, if known. -/
def parentCas : BranchHandoffCheckpoint → Option ParentCasIdentity
  | parentActive _ cas => some cas
  | _ => none

end BranchHandoffCheckpoint

/-- Whether a failure of this kind may have stopped a job at this checkpoint. -/
def failureStateIsCompatible (failureLifecycle : BranchHandoffJobLifecycle)
    (checkpoint : BranchHandoffCheckpoint) (kind : HandoffFailureKind) : Bool :=
  let dispositionMatches := match failureLifecycle with
    | .retryableFailed => kind.isRetryable
    | .terminalFailed => kind.isTerminal
    | _ => false
  dispositionMatches && match kind, checkpoint.lifecycle with
    | .parentArchived, .waitingResolvingTurn => true
    | .parentArchived, .waitingParent => true
    | .parentArchived, _ => false
    | .childInputPending, .waitingResolvingTurn => true
    | .childInputPending, _ => false
    | .casRejectedBeforeAcceptance, .startingParent => true
    | .casRejectedBeforeAcceptance, _ => false
    | .unrecoverablePostAppend, .startingParent => true
    | .unrecoverablePostAppend, .parentActive => true
    | .unrecoverablePostAppend, _ => false
    | .parentInterrupted, .parentActive => true
    | .parentInterrupted, _ => false
    | .parentIncomplete, .parentActive => true
    | .parentIncomplete, _ => false
    | .parentTerminalFailure, .parentActive => true
    | .parentTerminalFailure, _ => false
    | _, _ => true

/-- **The state of a job**: a failure it holds fits the checkpoint that it keeps. -/
inductive BranchHandoffJobState
  | waitingResolvingTurn | waitingParent
  | startingParent (parent : ParentHandoffIdentity)
  | parentActive (parent : ParentHandoffIdentity) (cas : ParentCasIdentity)
  | retryableFailed (resume : BranchHandoffCheckpoint) (evidence : HandoffFailureEvidence)
    (compatible : failureStateIsCompatible .retryableFailed resume evidence.kind = true)
  | terminalFailed (stoppedAt : BranchHandoffCheckpoint) (evidence : HandoffFailureEvidence)
    (compatible : failureStateIsCompatible .terminalFailed stoppedAt evidence.kind = true)
  | succeeded (parent : ParentHandoffIdentity) (cas : ParentCasIdentity)
deriving DecidableEq

/-- The state it resumes. -/
def BranchHandoffCheckpoint.intoState : BranchHandoffCheckpoint → BranchHandoffJobState
  | waitingResolvingTurn => .waitingResolvingTurn
  | waitingParent => .waitingParent
  | startingParent parent => .startingParent parent
  | parentActive parent cas => .parentActive parent cas

namespace BranchHandoffJobState

/-- The step of a state. -/
def lifecycle : BranchHandoffJobState → BranchHandoffJobLifecycle
  | waitingResolvingTurn => .waitingResolvingTurn
  | waitingParent => .waitingParent
  | startingParent _ => .startingParent
  | parentActive _ _ => .parentActive
  | retryableFailed _ _ _ => .retryableFailed
  | terminalFailed _ _ _ => .terminalFailed
  | succeeded _ _ => .succeeded

/-- Where a failure would leave it. -/
def checkpoint : BranchHandoffJobState → Option BranchHandoffCheckpoint
  | waitingResolvingTurn => some .waitingResolvingTurn
  | waitingParent => some .waitingParent
  | startingParent parent => some (.startingParent parent)
  | parentActive parent cas => some (.parentActive parent cas)
  | retryableFailed resume _ _ => some resume
  | terminalFailed _ _ _ | succeeded _ _ => none

/-- The turn of the parent, if known. -/
def parent : BranchHandoffJobState → Option ParentHandoffIdentity
  | startingParent parent => some parent
  | parentActive parent _ => some parent
  | succeeded parent _ => some parent
  | retryableFailed resume _ _ => resume.parent
  | terminalFailed stoppedAt _ _ => stoppedAt.parent
  | waitingResolvingTurn | waitingParent => none

/-- Its acceptance, if known. -/
def parentCas : BranchHandoffJobState → Option ParentCasIdentity
  | parentActive _ cas => some cas
  | succeeded _ cas => some cas
  | retryableFailed resume _ _ => resume.parentCas
  | terminalFailed stoppedAt _ _ => stoppedAt.parentCas
  | _ => none

end BranchHandoffJobState

/-! ## Records -/

/-- Who owns the context. -/
inductive DiscussionContextOwnerId
  | draft (id : ℕ)
  | submittedTurn (id : SyndicTurnId)
deriving DecidableEq

/-- What a caller admits for one fresh attempt. -/
structure BranchHandoffJobAdmission where
  intentId : ResolutionIntentId
  attemptOrdinal : ResolutionAttemptOrdinal
  discussionThreadId : SyndicThreadId
  parentThreadId : SyndicThreadId
  contextOwnerId : DiscussionContextOwnerId
  contextDigest : ℕ
  resolvingTurnId : SyndicTurnId
  request : ResolutionRequestIdentity
  parentQueueOrdinal : ℕ
  resolution : String
deriving DecidableEq

/-- The record of one attempt: what was admitted, and how far it has come. -/
structure BranchHandoffJobRecord extends BranchHandoffJobAdmission where
  state : BranchHandoffJobState
  revision : JobRevision
deriving DecidableEq

namespace BranchHandoffJobRecord

variable (job : BranchHandoffJobRecord)

/-- A record is refused unless its job derives from its intent. -/
def jobId : JobId := branchHandoffJobId job.intentId

/-- The step of a job. -/
def lifecycle : BranchHandoffJobLifecycle := job.state.lifecycle

/-- It has not ended. -/
def isLive : Bool := job.lifecycle.isLive

/-- A job as it is admitted. -/
def initial (admission : BranchHandoffJobAdmission) : BranchHandoffJobRecord :=
  { admission with state := .waitingResolvingTurn, revision := .first }

end BranchHandoffJobRecord

/-- What a repeated request is answered with. -/
structure ResolutionRequestAdmission where
  intentId : ResolutionIntentId
  discussionThreadId : SyndicThreadId
  attemptOrdinal : ResolutionAttemptOrdinal
deriving DecidableEq

/-- The job of a request. -/
def ResolutionRequestAdmission.jobId (admission : ResolutionRequestAdmission) : JobId :=
  branchHandoffJobId admission.intentId

/-- The answer for a job. -/
def ResolutionRequestAdmission.fromJob (job : BranchHandoffJobRecord) :
    ResolutionRequestAdmission :=
  ⟨job.intentId, job.discussionThreadId, job.attemptOrdinal⟩

/-- The latest attempt of a discussion. -/
structure LatestBranchHandoffAttempt where
  jobId : JobId
  attemptOrdinal : ResolutionAttemptOrdinal
deriving DecidableEq

/-- The entry of a job. -/
def LatestBranchHandoffAttempt.fromJob (job : BranchHandoffJobRecord) :
    LatestBranchHandoffAttempt :=
  ⟨job.jobId, job.attemptOrdinal⟩

/-- The place of an attempt. -/
structure DiscussionAttemptKey where
  discussionThreadId : SyndicThreadId
  attemptOrdinal : ResolutionAttemptOrdinal
deriving DecidableEq

namespace DiscussionAttemptKey

instance : Ord DiscussionAttemptKey :=
  ⟨compareLex (compareOn discussionThreadId) (compareOn fun key => key.attemptOrdinal.get)⟩

instance : TransOrd DiscussionAttemptKey :=
  inferInstanceAs (TransCmp (compareLex (compareOn discussionThreadId)
    (compareOn fun key => key.attemptOrdinal.get)))

theorem compare_eq (a b : DiscussionAttemptKey) :
    compare a b = (compare a.discussionThreadId b.discussionThreadId).then
      (compare a.attemptOrdinal.get b.attemptOrdinal.get) := rfl

instance : LawfulEqOrd DiscussionAttemptKey where
  eq_of_compare := by
    rintro ⟨thread, ordinal⟩ ⟨thread', ordinal'⟩ h
    rw [compare_eq, Ordering.then_eq_eq, Nat.compare_eq_eq, Nat.compare_eq_eq] at h
    rw [DiscussionAttemptKey.mk.injEq]
    exact ⟨h.1, Revision.eq_of_get h.2⟩

/-- Attempts are ordered by discussion, and within a discussion by their ordinal. -/
theorem compare_eq_lt {a b : DiscussionAttemptKey} : compare a b = .lt ↔
    a.discussionThreadId < b.discussionThreadId ∨ a.discussionThreadId = b.discussionThreadId
        ∧ a.attemptOrdinal.get < b.attemptOrdinal.get := by
  rw [compare_eq, Ordering.then_eq_lt, Nat.compare_eq_lt, Nat.compare_eq_eq, Nat.compare_eq_lt]

end DiscussionAttemptKey

/-- The key of a job among the attempts of its discussion. -/
def BranchHandoffJobRecord.attemptKey (job : BranchHandoffJobRecord) : DiscussionAttemptKey :=
  ⟨job.discussionThreadId, job.attemptOrdinal⟩

/-- The stored state of the domain: its jobs and the four indices over them. -/
structure JobStore where
  records : Keyspace JobId BranchHandoffJobRecord
  live : Keyspace JobId BranchHandoffJobRecord
  requests : Keyspace ResolutionRequestIdentity ResolutionRequestAdmission
  attempts : Keyspace DiscussionAttemptKey JobId
  latest : Keyspace SyndicThreadId LatestBranchHandoffAttempt

/-- Nothing stored. -/
def JobStore.empty : JobStore := ⟨∅, ∅, ∅, ∅, ∅⟩

end Beryl.Jobs
