import Beryl.Jobs.Validate

/-!
# Jobs/Exclusive — at most one handoff of a discussion is in flight

What a transition makes of a job is one of seven moves (`Moves`), and what a command makes of a
store is an admission or one move (`execute_cases`).  Both keep a store coherent, so **the validator
accepts every store that accepted commands lead to**.
-/

namespace Beryl.Jobs

open Fallible Home Keyspace BranchHandoffJobRecord JobStore

/-! ## Moves of a job -/

/-- What a transition makes of the state of a job. -/
inductive Moves : BranchHandoffJobState → BranchHandoffJobState → Prop
  | complete : Moves .waitingResolvingTurn .waitingParent
  | start (parent : ParentHandoffIdentity) : Moves .waitingParent (.startingParent parent)
  | accept (parent : ParentHandoffIdentity) (cas : ParentCasIdentity) :
    Moves (.startingParent parent) (.parentActive parent cas)
  | succeed (parent : ParentHandoffIdentity) (cas : ParentCasIdentity) :
    Moves (.parentActive parent cas) (.succeeded parent cas)
  | fail (checkpoint : BranchHandoffCheckpoint) (evidence : HandoffFailureEvidence)
    (compatible : failureStateIsCompatible .retryableFailed checkpoint evidence.kind = true) :
    Moves checkpoint.intoState (.retryableFailed checkpoint evidence compatible)
  | retry (resume : BranchHandoffCheckpoint) (evidence : HandoffFailureEvidence)
    (compatible : failureStateIsCompatible .retryableFailed resume evidence.kind = true) :
    Moves (.retryableFailed resume evidence compatible) resume.intoState
  | stop {state : BranchHandoffJobState} (checkpoint : BranchHandoffCheckpoint)
    (evidence : HandoffFailureEvidence)
    (compatible : failureStateIsCompatible .terminalFailed checkpoint evidence.kind = true)
    (held : state.checkpoint = some checkpoint) :
    Moves state (.terminalFailed checkpoint evidence compatible)

variable {cas : ParentCasIdentity}

namespace Moves

variable {state state' : BranchHandoffJobState}

variable (h : Moves state state')
include h

theorem live : state.lifecycle.isLive = true := by
  cases h with
  | stop checkpoint evidence compatible held =>
    cases state <;> first | rfl | cases held
  | fail checkpoint => cases checkpoint <;> rfl
  | _ => rfl

/-- **A recorded parent is kept.** -/
theorem parent {parent : ParentHandoffIdentity}
    (hpar : state.parent = some parent) : state'.parent = some parent := by
  cases h with
  | stop checkpoint evidence compatible held =>
    cases state <;> cases held <;> exact hpar
  | fail checkpoint => cases checkpoint <;> exact hpar
  | retry resume => cases resume <;> exact hpar
  | accept | succeed => exact hpar
  | complete | start => cases hpar

/-- **A recorded CAS identity is kept.** -/
theorem parentCas (hcas : state.parentCas = some cas) : state'.parentCas = some cas := by
  cases h with
  | stop checkpoint evidence compatible held =>
    cases state <;> cases held <;> exact hcas
  | fail checkpoint => cases checkpoint <;> exact hcas
  | retry resume => cases resume <;> exact hcas
  | succeed => exact hcas
  | accept | complete | start => cases hcas

end Moves

variable {store next : JobStore} {job job' found : BranchHandoffJobRecord} {id : JobId}

/-- A job after a transition: what was admitted is as before, the revision is the next. -/
structure Moved (job job' : BranchHandoffJobRecord) : Prop where
  admission : job'.toBranchHandoffJobAdmission = job.toBranchHandoffJobAdmission
  revision : job'.revision.get = job.revision.get + 1
  moves : Moves job.state job'.state

/-- A transition that moves a job to a state, live or not. -/
theorem advance_eq_ok {state : BranchHandoffJobState} (h : advance job state = .ok job')
    (hmoves : Moves job.state state) : Moved job job' ∧ job'.isLive = state.lifecycle.isLive := by
  obtain ⟨revision, hrev, hjob⟩ := bind_eq_ok.mp h
  cases hjob
  exact ⟨⟨rfl, Revision.checkedNext_eq_ok (mapError_eq_ok.mp hrev), hmoves⟩, rfl⟩

variable {evidence : HandoffFailureEvidence} {expected : JobRevision}

theorem validateFailureCheckpoint_eq_ok {failure : BranchHandoffJobLifecycle}
    {checkpoint : { checkpoint : BranchHandoffCheckpoint //
      failureStateIsCompatible failure checkpoint evidence.kind = true }}
    (h : validateFailureCheckpoint job evidence failure = .ok checkpoint) :
    job.state.checkpoint = some checkpoint.1 := by
  rw [validateFailureCheckpoint] at h
  split at h
  · cases h
  · next held =>
    split at h
    · rw [held, ← Except.ok.inj h]
    · cases h

theorem terminalFailedJob_eq_ok
    (h : terminalFailedJob job evidence = .ok job') : Moved job job' ∧ job'.isLive = false := by
  obtain ⟨_, -, h₁⟩ := bind_eq_ok.mp h
  obtain ⟨⟨checkpoint, compatible⟩, hckpt, h₂⟩ := bind_eq_ok.mp h₁
  exact advance_eq_ok h₂
    (.stop checkpoint evidence compatible (validateFailureCheckpoint_eq_ok hckpt))

theorem retryableFailedJob_eq_ok
    (h : retryableFailedJob job evidence = .ok job') : Moved job job' ∧ job'.isLive = true := by
  obtain ⟨_, hlife, h₁⟩ := bind_eq_ok.mp h
  obtain ⟨⟨checkpoint, compatible⟩, hckpt, h₂⟩ := bind_eq_ok.mp h₁
  have hheld := validateFailureCheckpoint_eq_ok hckpt
  have hstate : checkpoint.intoState = job.state := by
    have hlife := ensure_eq_ok.mp hlife
    rw [lifecycle] at hlife
    cases hcase : job.state <;> rw [hcase] at hheld hlife <;>
      first
      | (cases hheld; rfl)
      | simp [BranchHandoffJobState.lifecycle] at hlife
  exact advance_eq_ok h₂ (hstate ▸ .fail checkpoint evidence compatible)

theorem retryJob_eq_ok (h : retryJob job = .ok job') : Moved job job' ∧ job'.isLive = true := by
  rw [retryJob] at h
  split at h
  · next resume evidence compatible hstate =>
    obtain ⟨hmoved, hlive⟩ := advance_eq_ok h (hstate ▸ .retry resume evidence compatible)
    exact ⟨hmoved, hlive.trans (by cases resume <;> rfl)⟩
  · cases h

theorem parentAcceptedJob_eq_ok (h : parentAcceptedJob job cas = .ok job') :
    Moved job job' ∧ job'.isLive = true := by
  rw [parentAcceptedJob] at h
  split at h
  · next parent hstate => exact advance_eq_ok h (hstate ▸ .accept parent cas)
  · cases h

theorem startParentJob_eq_ok {parent : ParentHandoffIdentity}
    (h : startParentJob job parent = .ok job') : Moved job job' ∧ job'.isLive = true := by
  rw [startParentJob] at h
  split at h
  · next hstate => exact advance_eq_ok h (hstate ▸ .start parent)
  · cases h

theorem completeResolvingJob_eq_ok (h : completeResolvingJob job = .ok job') :
    Moved job job' ∧ job'.isLive = true := by
  rw [completeResolvingJob] at h
  split at h
  · next hstate => exact advance_eq_ok h (hstate ▸ .complete)
  · cases h

theorem succeededJob_eq_ok (h : succeededJob job = .ok job') :
    Moved job job' ∧ job'.isLive = false := by
  rw [succeededJob] at h
  split at h
  · next parent cas hstate => exact advance_eq_ok h (hstate ▸ .succeed parent cas)
  · cases h

theorem successor_eq_ok {transition : HandoffJobTransition}
    (h : transition.successor job = .ok job') : Moved job job' := by
  cases transition with
  | retry => exact (retryJob_eq_ok h).1
  | completeResolving => exact (completeResolvingJob_eq_ok h).1
  | startParent parent => exact (startParentJob_eq_ok h).1
  | parentAccepted cas => exact (parentAcceptedJob_eq_ok h).1
  | retryableFailure evidence => exact (retryableFailedJob_eq_ok h).1
  | terminalFailure evidence => exact (terminalFailedJob_eq_ok h).1
  | succeed => exact (succeededJob_eq_ok h).1
  | childInputPending | parentArchived =>
    obtain ⟨_, -, h⟩ := bind_eq_ok.mp h
    exact (terminalFailedJob_eq_ok h).1

/-! ## Commands -/

/-- What a transition writes. -/
def JobStore.putTransition (store : JobStore) (job : BranchHandoffJobRecord) : JobStore :=
  if job.isLive then store.putLiveTransition job else store.putTerminalTransition job

/-- The job that a command moves; an admission moves none. -/
def JobCommand.target : JobCommand → Option JobId
  | admitBranchHandoffJob _ => none
  | admitPrepared _ _ => none
  | completeResolvingTurn jobId _ => some jobId
  | startParentHandoff jobId _ _ => some jobId
  | recordParentCasAcceptance jobId _ _ => some jobId
  | recordRetryableHandoffFailure jobId _ _ => some jobId
  | retryBranchHandoff jobId _ => some jobId
  | recordTerminalHandoffFailure jobId _ _ => some jobId
  | succeedBranchHandoff jobId _ => some jobId
  | commitPrepared witness => some witness.old.jobId

/-- **What an accepted command does**: it admits a job, or moves one. -/
inductive Does (store : JobStore) : Option JobId → JobStore → Prop
  | admits (admission : BranchHandoffJobAdmission) (prior : Option BranchHandoffJobRecord)
    (valid : validateNew store (.initial admission) = .ok prior) :
    Does store none (store.writeAdmission (.initial admission))
  | moves {jobId : JobId} {job job' : BranchHandoffJobRecord}
      (stored : store.records[jobId]? = some job)
    (moved : Moved job job') : Does store (some jobId) (store.putTransition job')

theorem validateCurrent_eq_ok
    (h : validateCurrent store id expected = .ok job) : store.records[id]? = some job := by
  simp only [validateCurrent, requiredJob, bind_eq_ok, required_eq_ok, pure_eq_ok_iff] at h
  obtain ⟨_, hjob, _, -, rfl⟩ := h
  exact hjob

theorem validateLifecycle_eq_ok {lifecycle : BranchHandoffJobLifecycle}
    (h : validateLifecycle store id expected lifecycle = .ok job) :
    store.records[id]? = some job := by
  simp only [validateLifecycle, bind_eq_ok, pure_eq_ok_iff] at h
  obtain ⟨_, hjob, _, -, rfl⟩ := h
  exact validateCurrent_eq_ok hjob

theorem readIdentity_eq_ok (h : readIdentity store id = .ok job) :
    store.records[id]? = some job ∧ job.jobId = id := by
  simp only [readIdentity, requiredJob, bind_eq_ok, required_eq_ok, ensure_eq_ok, pure_eq_ok_iff]
    at h
  obtain ⟨_, hjob, _, ⟨hid, -⟩, rfl⟩ := h
  exact ⟨hjob, hid⟩

theorem readAuthenticated_eq_ok (h : readAuthenticated store id = .ok job) :
    store.records[id]? = some job := by
  simp only [readAuthenticated, bind_eq_ok, pure_eq_ok_iff] at h
  obtain ⟨_, hid, _, -, rfl⟩ := h
  exact (readIdentity_eq_ok hid).1

/-- A command that moves the job it has checked and writes it as its new state asks. -/
theorem Does.of_change {check : Mutated BranchHandoffJobRecord} {live : Bool}
    {change : BranchHandoffJobRecord → Mutated BranchHandoffJobRecord}
    {put : BranchHandoffJobRecord → JobStore}
    (hcheck : ∀ {job}, check = .ok job → store.records[id]? = some job)
    (hchange : ∀ {job job'}, change job = .ok job' → Moved job job' ∧ job'.isLive = live)
    (hput : ∀ job, job.isLive = live → store.putTransition job = put job)
    (h : (do let job ← check; let job' ← change job; return put job') = .ok next) :
    Does store (some id) next := by
  obtain ⟨job, hjob, h₁⟩ := bind_eq_ok.mp h
  obtain ⟨job', hjob', h₂⟩ := bind_eq_ok.mp h₁
  cases h₂
  obtain ⟨hmoved, hlive⟩ := hchange hjob'
  exact hput job' hlive ▸ .moves (hcheck hjob) hmoved

theorem execute_does {command : JobCommand} (h : command.execute store = .ok next) :
    Does store command.target next := by
  have hlive : ∀ job, job.isLive = true → store.putTransition job = store.putLiveTransition job :=
    fun job hlive => if_pos hlive
  have hdone : ∀ job, job.isLive = false →
      store.putTransition job = store.putTerminalTransition job :=
    fun job hdone => if_neg (by simp [hdone])
  cases command with
  | admitBranchHandoffJob admission =>
    obtain ⟨prior, hprior, h₁⟩ := bind_eq_ok.mp h
    cases h₁
    exact .admits admission prior hprior
  | admitPrepared admission prior =>
    obtain ⟨current, hcur, h₁⟩ := bind_eq_ok.mp h
    obtain ⟨_, -, h₂⟩ := bind_eq_ok.mp h₁
    cases h₂
    exact .admits admission current hcur
  | completeResolvingTurn =>
      exact .of_change validateLifecycle_eq_ok completeResolvingJob_eq_ok hlive h
  | startParentHandoff => exact .of_change validateLifecycle_eq_ok startParentJob_eq_ok hlive h
  | recordParentCasAcceptance =>
      exact .of_change validateCurrent_eq_ok parentAcceptedJob_eq_ok hlive h
  | recordRetryableHandoffFailure =>
      exact .of_change validateCurrent_eq_ok retryableFailedJob_eq_ok hlive h
  | retryBranchHandoff => exact .of_change validateCurrent_eq_ok retryJob_eq_ok hlive h
  | recordTerminalHandoffFailure =>
      exact .of_change validateCurrent_eq_ok terminalFailedJob_eq_ok hdone h
  | succeedBranchHandoff => exact .of_change validateCurrent_eq_ok succeededJob_eq_ok hdone h
  | commitPrepared witness =>
    obtain ⟨current, hcur, h₁⟩ := bind_eq_ok.mp h
    obtain ⟨_, hsame, h₂⟩ := bind_eq_ok.mp h₁
    cases h₂
    have hstored := readAuthenticated_eq_ok hcur
    rw [ensure_eq_ok.mp hsame] at hstored
    exact .moves hstored (successor_eq_ok witness.derived)

/-! ## A move keeps a store coherent -/

section

variable {key : DiscussionAttemptKey}

@[simp] theorem putTransition_requests : (store.putTransition job').requests = store.requests := by
  rw [putTransition]
  split <;> rfl

@[simp] theorem putTransition_attempts : (store.putTransition job').attempts = store.attempts := by
  rw [putTransition]
  split <;> rfl

@[simp] theorem putTransition_latest : (store.putTransition job').latest = store.latest := by
  rw [putTransition]
  split <;> rfl

theorem putTransition_records : (store.putTransition job').records[id]?
    = if job'.jobId = id then some job' else store.records[id]? := by
  rw [putTransition]
  split <;> exact get_put

theorem putTransition_live : (store.putTransition job').live[id]?
    = if job'.jobId = id then (if job'.isLive then some job' else none) else store.live[id]? := by
  rw [putTransition]
  split
  · exact get_put
  · exact get_delete

variable (hmoved : Moved job job')
include hmoved

theorem Moved.jobId : job'.jobId = job.jobId :=
  congrArg (fun admission : BranchHandoffJobAdmission => branchHandoffJobId admission.intentId)
    hmoved.admission

theorem Moved.request : job'.request = job.request :=
  congrArg BranchHandoffJobAdmission.request hmoved.admission

theorem Moved.attemptKey : job'.attemptKey = job.attemptKey :=
  congrArg (fun admission : BranchHandoffJobAdmission =>
    (⟨admission.discussionThreadId, admission.attemptOrdinal⟩ : DiscussionAttemptKey))
      hmoved.admission

theorem Moved.fromJob :
    ResolutionRequestAdmission.fromJob job' = ResolutionRequestAdmission.fromJob job :=
  congrArg (fun admission : BranchHandoffJobAdmission =>
    (⟨admission.intentId, admission.discussionThreadId, admission.attemptOrdinal⟩ :
      ResolutionRequestAdmission)) hmoved.admission

variable (hstored : store.records[job.jobId]? = some job)
include hstored

/-- The attempts after a move: the one that moved, and the others as they were. -/
theorem Moved.attempts : Attempt (store.putTransition job') key found ↔
      (found = job' ∧ Attempt store key job)
          ∨ (found.jobId ≠ job.jobId ∧ Attempt store key found) := by
  constructor
  · rintro ⟨hidx, hrec, hkey⟩
    rw [putTransition_attempts] at hidx
    rw [putTransition_records] at hrec
    split at hrec
    · next hid =>
      cases hrec
      exact .inl ⟨rfl, hmoved.jobId ▸ hidx, hstored, hmoved.attemptKey ▸ hkey⟩
    · next hid =>
      exact .inr ⟨fun heq => hid (hmoved.jobId.trans heq.symm), hidx, hrec, hkey⟩
  · rintro (⟨rfl, hidx, -, hkey⟩ | ⟨hid, hidx, hrec, hkey⟩)
    · refine ⟨?_, ?_, hmoved.attemptKey.trans hkey⟩
      · rw [putTransition_attempts, hmoved.jobId]
        exact hidx
      · rw [putTransition_records, if_pos rfl]
    · refine ⟨?_, ?_, hkey⟩
      · rw [putTransition_attempts]
        exact hidx
      · rw [putTransition_records, if_neg (fun heq => hid (heq.symm.trans hmoved.jobId))]
        exact hrec

/-- An attempt is still one, perhaps moved. -/
theorem Moved.attempt (h : Attempt store key found) :
    ∃ found', Attempt (store.putTransition job') key found' ∧ found'.jobId = found.jobId := by
  by_cases hid : found.jobId = job.jobId
  · have hsame := h.stored
    rw [hid, hstored] at hsame
    cases hsame
    exact ⟨job', (hmoved.attempts hstored).mpr (.inl ⟨rfl, h⟩), hmoved.jobId⟩
  · exact ⟨found, (hmoved.attempts hstored).mpr (.inr ⟨hid, h⟩), rfl⟩

/-- An attempt after a move was one before it. -/
theorem Moved.attempted {found' : BranchHandoffJobRecord}
    (h : Attempt (store.putTransition job') key found') : ∃ found, Attempt store key found := by
  rcases (hmoved.attempts hstored).mp h with ⟨-, hjob⟩ | ⟨-, hfound⟩
  · exact ⟨_, hjob⟩
  · exact ⟨_, hfound⟩

theorem Coherent.move (h : Coherent store) : Coherent (store.putTransition job') := by
  obtain ⟨-, hreq, hatt, -⟩ := h.record _ _ hstored
  refine ⟨fun id found hfound => ?_, fun id found hfound => ?_, fun request admission hadm => ?_,
    fun key id hid => ?_, fun key found hfound => ?_, fun discussion entry hentry => ?_,
    fun key found hfound => ?_⟩
  · rw [putTransition_records] at hfound
    split at hfound
    · next hid =>
      cases hfound
      subst hid
      refine ⟨rfl, ?_, ?_, ?_⟩
      · rw [putTransition_requests, hmoved.request, hmoved.fromJob]
        exact hreq
      · rw [hmoved.attemptKey]
        exact (hmoved.attempts hstored).mpr (.inl ⟨rfl, hatt⟩)
      · rw [putTransition_live, if_pos rfl]
    · next hid =>
      obtain ⟨rfl, hreq', hatt', hlive'⟩ := h.record _ _ hfound
      refine ⟨rfl, ?_, ?_, ?_⟩
      · rw [putTransition_requests]
        exact hreq'
      · exact (hmoved.attempts hstored).mpr
          (.inr ⟨fun heq => hid (hmoved.jobId.trans heq.symm), hatt'⟩)
      · rw [putTransition_live, if_neg hid]
        exact hlive'
  · rw [putTransition_live] at hfound
    rw [putTransition_records]
    split at hfound
    · next hid =>
      split at hfound
      · next hlive =>
        cases hfound
        rw [if_pos hid]
        exact ⟨rfl, hlive⟩
      · cases hfound
    · next hid =>
      rw [if_neg hid]
      exact h.live _ _ hfound
  · rw [putTransition_requests] at hadm
    obtain ⟨found, hfound, hreq', hfrom⟩ := h.request _ _ hadm
    rw [putTransition_records]
    split
    · next hid =>
      rw [← hid, hmoved.jobId, hstored] at hfound
      cases hfound
      exact ⟨job', rfl, hmoved.request.trans hreq', hmoved.fromJob.trans hfrom⟩
    · exact ⟨found, hfound, hreq', hfrom⟩
  · rw [putTransition_attempts] at hid
    obtain ⟨found, hfound⟩ := h.attempt _ _ hid
    obtain ⟨found', hfound', -⟩ := hmoved.attempt hstored hfound
    exact ⟨found', hfound'⟩
  · obtain ⟨before, hbefore⟩ := hmoved.attempted hstored hfound
    rcases h.preceded _ _ hbefore with hfirst | ⟨previous, prior, hthr, hnext, hprior, hfailed⟩
    · exact .inl hfirst
    · -- the job that moved was live, so it is not the one that failed for good
      refine .inr ⟨previous, prior, hthr, hnext,
        (hmoved.attempts hstored).mpr (.inr ⟨fun hid => ?_, hprior⟩), hfailed⟩
      have hsame := hprior.stored
      rw [hid, hstored] at hsame
      cases hsame
      have hlive := hmoved.moves.live
      rw [lifecycle] at hfailed
      rw [hfailed] at hlive
      cases hlive
  · rw [putTransition_latest] at hentry
    obtain ⟨found, hfound, hid⟩ := h.latest _ _ hentry
    obtain ⟨found', hfound', hid'⟩ := hmoved.attempt hstored hfound
    exact ⟨found', hfound', hid'.trans hid⟩
  · obtain ⟨before, hbefore⟩ := hmoved.attempted hstored hfound
    rw [putTransition_latest]
    exact h.last _ _ hbefore

end

/-! ## An admission keeps a store coherent -/

/-- What a valid admission has found. -/
structure Fresh (store : JobStore) (job : BranchHandoffJobRecord) : Prop where
  request : store.requests[job.request]? = none
  record : store.records[job.jobId]? = none
  live : store.live[job.jobId]? = none
  attempt : store.attempts[job.attemptKey]? = none
  follows : (store.latest[job.discussionThreadId]? = none ∧ job.attemptOrdinal = firstAttempt)
    ∨ ∃ prior, store.latest[job.discussionThreadId]? = some (.fromJob prior)
      ∧ store.records[prior.jobId]? = some prior ∧ prior.discussionThreadId = job.discussionThreadId
      ∧ prior.lifecycle = .terminalFailed
      ∧ job.attemptOrdinal.get = prior.attemptOrdinal.get + 1

section

theorem validateNew_eq_ok {prior : Option BranchHandoffJobRecord}
    (h : validateNew store job = .ok prior) : Fresh store job := by
  rw [validateNew] at h
  split at h
  · cases h
  · next hreq =>
    simp only [bind_eq_ok, ensure_eq_ok] at h
    obtain ⟨_, hrec, _, hlive, _, hatt, found, hprior, expected, hexp, _, hord, -⟩ := h
    refine ⟨hreq, hrec, hlive, hatt, ?_⟩
    rw [priorAttempt] at hprior
    split at hprior
    · next hlatest =>
      cases hprior
      exact .inl ⟨hlatest, hord.trans (Except.ok.inj hexp).symm⟩
    · next latest hlatest =>
      obtain ⟨last, hlast, p₁⟩ := bind_eq_ok.mp hprior
      obtain ⟨_, hagrees, p₂⟩ := bind_eq_ok.mp p₁
      obtain ⟨hthr, hfrom⟩ := ensure_eq_ok.mp hagrees
      obtain ⟨hstored, hid⟩ := readIdentity_eq_ok hlast
      split at p₂
      · next hfailed =>
        cases p₂
        refine .inr ⟨last, hfrom ▸ hlatest, hid ▸ hstored, hthr, hfailed, ?_⟩
        rw [hord]
        exact Revision.checkedNext_eq_ok (mapError_eq_ok.mp hexp)
      · cases p₂
      · cases p₂

variable (hfresh : Fresh store job)
include hfresh

/-- The attempts after an admission: the new one, and the others. -/
theorem Fresh.attempts {key : DiscussionAttemptKey} : Attempt (store.writeAdmission job) key found ↔
      (key = job.attemptKey ∧ found = job) ∨ Attempt store key found := by
  constructor
  · rintro ⟨hidx, hrec, hkey⟩
    rw [writeAdmission, get_put] at hidx hrec
    split at hrec
    · cases hrec
      exact .inl ⟨hkey.symm, rfl⟩
    · next hid =>
      split at hidx
      · exact absurd (Option.some.inj hidx) hid
      · exact .inr ⟨hidx, hrec, hkey⟩
  · rintro (⟨rfl, rfl⟩ | ⟨hidx, hrec, hkey⟩)
    · exact ⟨by rw [writeAdmission, get_put, if_pos rfl],
        by rw [writeAdmission, get_put, if_pos rfl], rfl⟩
    · exact ⟨get_put_of_none hfresh.attempt hidx, get_put_of_none hfresh.record hrec, hkey⟩

theorem Coherent.admission (h : Coherent store) (hlive : job.isLive = true) :
    Coherent (store.writeAdmission job) := by
  have hkeep : ∀ {key} {found},
      Attempt store key found → Attempt (store.writeAdmission job) key found := fun hfound =>
    hfresh.attempts.mpr (.inr hfound)
  refine ⟨fun id found hfound => ?_, fun id found hfound => ?_, fun request admission hadm => ?_,
    fun key id hid => ?_, fun key found hfound => ?_, fun discussion entry hentry => ?_,
    fun key found hfound => ?_⟩
  · rw [writeAdmission, get_put] at hfound
    split at hfound
    · next hid =>
      cases hfound
      refine ⟨hid, ?_, hfresh.attempts.mpr (.inl ⟨rfl, rfl⟩), ?_⟩
      · rw [writeAdmission, get_put, if_pos rfl]
      · rw [writeAdmission, get_put, if_pos hid, if_pos hlive]
    · next hid =>
      obtain ⟨hid', hreq, hatt, hindex⟩ := h.record _ _ hfound
      refine ⟨hid', get_put_of_none hfresh.request hreq, hkeep hatt, ?_⟩
      rw [writeAdmission, get_put, if_neg hid]
      exact hindex
  · rw [writeAdmission, get_put] at hfound ⊢
    split at hfound
    · next hid =>
      cases hfound
      exact ⟨if_pos hid, hlive⟩
    · next hid =>
      rw [if_neg hid]
      exact h.live _ _ hfound
  · rw [writeAdmission, get_put] at hadm
    split at hadm
    · next hreq =>
      cases hadm
      refine ⟨job, ?_, hreq, rfl⟩
      rw [writeAdmission, get_put]
      exact if_pos rfl
    · obtain ⟨found, hfound, hreq, hfrom⟩ := h.request _ _ hadm
      exact ⟨found, get_put_of_none hfresh.record hfound, hreq, hfrom⟩
  · rw [writeAdmission, get_put] at hid
    split at hid
    · next hkey =>
      subst hkey
      exact ⟨job, hfresh.attempts.mpr (.inl ⟨rfl, rfl⟩)⟩
    · obtain ⟨found, hfound⟩ := h.attempt _ _ hid
      exact ⟨found, hkeep hfound⟩
  · rcases hfresh.attempts.mp hfound with ⟨rfl, rfl⟩ | hfound
    · rcases hfresh.follows with ⟨-, hfirst⟩ | ⟨prior, -, hstored, hthr, hfailed, hnext⟩
      · exact .inl hfirst
      · exact .inr ⟨prior.attemptKey, prior, hthr, hnext, hkeep (h.record _ _ hstored).2.2.1,
          hfailed⟩
    · rcases h.preceded _ _ hfound with hfirst | ⟨previous, prior, hthr, hnext, hprior, hfailed⟩
      · exact .inl hfirst
      · exact .inr ⟨previous, prior, hthr, hnext, hkeep hprior, hfailed⟩
  · rw [writeAdmission, get_put] at hentry
    split at hentry
    · next hthr =>
      cases hentry
      subst hthr
      exact ⟨job, hfresh.attempts.mpr (.inl ⟨rfl, rfl⟩), rfl⟩
    · obtain ⟨found, hfound, hid⟩ := h.latest _ _ hentry
      exact ⟨found, hkeep hfound, hid⟩
  · rw [writeAdmission]
    simp only [get_put]
    rcases hfresh.attempts.mp hfound with ⟨rfl, rfl⟩ | hfound
    · exact ⟨_, if_pos rfl, Nat.le_refl _⟩
    · obtain ⟨entry, hentry, hle⟩ := h.last _ _ hfound
      split
      · next hthr =>
        -- the attempts of the discussion come up to the one before
        refine ⟨_, rfl, ?_⟩
        rw [← hthr] at hentry
        rcases hfresh.follows with ⟨hnone, -⟩ | ⟨prior, hlatest, -, -, -, hnext⟩
        · rw [hnone] at hentry
          cases hentry
        · cases hlatest.symm.trans hentry
          change key.attemptOrdinal.get ≤ job.attemptOrdinal.get
          change key.attemptOrdinal.get ≤ prior.attemptOrdinal.get at hle
          omega
      · exact ⟨entry, hentry, hle⟩

end

/-! ## Runs -/

theorem Coherent.empty : Coherent .empty := by
  refine ⟨fun _ _ h => ?_, fun _ _ h => ?_, fun _ _ h => ?_, fun _ _ h => ?_, fun _ _ h => ?_,
    fun _ _ h => ?_, fun _ _ h => ?_⟩
  all_goals first
    | (rw [JobStore.empty, get_nothing] at h; cases h)
    | (have hidx := h.indexed; rw [JobStore.empty, get_nothing] at hidx; cases hidx)

variable {target : Option JobId}

theorem Coherent.does (h : Coherent store) (hdoes : Does store target next) : Coherent next := by
  cases hdoes with
  | admits admission prior valid => exact h.admission (validateNew_eq_ok valid) rfl
  | moves stored moved =>
    obtain ⟨rfl, -⟩ := h.record _ _ stored
    exact h.move moved stored

theorem Coherent.run (h : Coherent store) (hrun : JobRun store next) : Coherent next := by
  induction hrun with
  | start => exact h
  | step command _ accepted ih => exact ih.does (execute_does accepted)

/-- What a step makes of a stored job: the job that the command moves moves, any other stays. -/
theorem Coherent.step_record (h : Coherent store) (hdoes : Does store target next)
    (hjob : store.records[id]? = some job) : ∃ later, next.records[id]? = some later
      ∧ ((target = some id ∧ Moved job later) ∨ (target ≠ some id ∧ later = job)) := by
  cases hdoes with
  | admits admission prior valid =>
    exact ⟨job, get_put_of_none (validateNew_eq_ok valid).record hjob, .inr ⟨nofun, rfl⟩⟩
  | @moves jobId old new stored moved =>
    obtain ⟨hid, -⟩ := h.record _ _ stored
    rw [putTransition_records, moved.jobId, hid]
    split
    · next heq =>
      subst heq
      cases stored.symm.trans hjob
      exact ⟨new, rfl, .inl ⟨rfl, moved⟩⟩
    · next hne => exact ⟨job, hjob, .inr ⟨fun heq => hne (Option.some.inj heq), rfl⟩⟩

/-- **A job later in a run**: it has kept what was admitted and what it recorded, it is the same if
its revision is, and it is the same if it was terminal. -/
structure Continues (job later : BranchHandoffJobRecord) : Prop where
  admission : later.toBranchHandoffJobAdmission = job.toBranchHandoffJobAdmission
  revision : job.revision.get ≤ later.revision.get
  unchanged : later.revision.get = job.revision.get → later = job
  parent : ∀ parent, job.state.parent = some parent → later.state.parent = some parent
  parentCas : ∀ cas, job.state.parentCas = some cas → later.state.parentCas = some cas
  terminal : job.isLive = false → later = job

namespace Continues

variable {later last : BranchHandoffJobRecord}

theorem refl (job : BranchHandoffJobRecord) : Continues job job :=
  ⟨rfl, Nat.le_refl _, fun _ => rfl, fun _ h => h, fun _ h => h, fun _ => rfl⟩

theorem of_moved (h : Moved job later) : Continues job later where
  admission := h.admission
  revision := h.revision ▸ Nat.le_succ _
  unchanged := fun heq => absurd (h.revision.symm.trans heq) (Nat.succ_ne_self _)
  parent := fun _ => h.moves.parent
  parentCas := fun _ => h.moves.parentCas
  terminal := fun hterm => absurd h.moves.live
    (by rw [isLive, lifecycle] at hterm; simp [hterm])

theorem trans (h : Continues job later) (h' : Continues later last) : Continues job last where
  admission := h'.admission.trans h.admission
  revision := Nat.le_trans h.revision h'.revision
  unchanged := fun heq => by
    have hlast := h'.unchanged (Nat.le_antisymm (heq ▸ h.revision) h'.revision)
    rw [hlast] at heq ⊢
    exact h.unchanged heq
  parent := fun parent hpar => h'.parent parent (h.parent parent hpar)
  parentCas := fun cas hcas => h'.parentCas cas (h.parentCas cas hcas)
  terminal := fun hterm => by
    obtain rfl := h.terminal hterm
    exact h'.terminal hterm

end Continues

theorem Coherent.continues (h : Coherent store) (hrun : JobRun store next)
    (hjob : store.records[id]? = some job) :
    ∃ later, next.records[id]? = some later ∧ Continues job later := by
  induction hrun with
  | start => exact ⟨job, hjob, .refl job⟩
  | step command run accepted ih =>
    obtain ⟨later, hlater, hcontinues⟩ := ih
    obtain ⟨last, hlast, ⟨-, hmoved⟩ | ⟨-, rfl⟩⟩ :=
      (h.run run).step_record (execute_does accepted) hlater
    · exact ⟨last, hlast, hcontinues.trans (.of_moved hmoved)⟩
    · exact ⟨last, hlast, hcontinues⟩

/-- **From a failure a job goes back to where it was.** -/
theorem state_of_retry {before failed after : BranchHandoffJobState} (hfail : Moves before failed)
    (hfailed : failed.lifecycle = .retryableFailed) (hretry : Moves failed after)
    (hlive : after.lifecycle.isLive = true) : after = before := by
  cases hfail with
  | fail checkpoint evidence compatible =>
    generalize hstate : BranchHandoffJobState.retryableFailed checkpoint evidence compatible =
      failed
      at hretry
    cases hretry with
    | retry resume evidence' compatible' =>
      cases hstate
      rfl
    | stop checkpoint' evidence' compatible' held => cases hlive
    | fail checkpoint' => cases checkpoint' <;> cases hstate
    | _ => cases hstate
  | retry resume => cases resume <;> cases hfailed
  | _ => cases hfailed

/-! ## Exclusion -/

/-- **At most one handoff of a discussion is in flight.** -/
structure OneHandoff (store : JobStore) : Prop where
  /-- The attempts of a discussion are numbered from one to some number, without a gap. -/
  numbered : ∀ discussion : SyndicThreadId, ∃ count : ℕ, ∀ ordinal : ResolutionAttemptOrdinal,
    (∃ (id : JobId) (job : BranchHandoffJobRecord),
        store.records[id]? = some job ∧ job.attemptKey = ⟨discussion, ordinal⟩)
      ↔ ordinal.get ≤ count
  /-- No two jobs are the same attempt. -/
  distinct : ∀ (id : JobId) (job : BranchHandoffJobRecord) (id' : JobId)
      (job' : BranchHandoffJobRecord), store.records[id]? = some job →
        store.records[id']? = some job' →
    job.attemptKey = job'.attemptKey → job = job'
  /-- All but the last have failed for good. -/
  failed : ∀ (id : JobId) (job : BranchHandoffJobRecord) (id' : JobId)
      (job' : BranchHandoffJobRecord), store.records[id]? = some job →
        store.records[id']? = some job' →
    job.discussionThreadId = job'.discussionThreadId →
      job.attemptOrdinal.get < job'.attemptOrdinal.get → job.lifecycle = .terminalFailed
  /-- A live job is the last attempt of its discussion, and the only live one. -/
  live : ∀ (id : JobId) (job : BranchHandoffJobRecord) (id' : JobId)
      (job' : BranchHandoffJobRecord), store.records[id]? = some job →
        store.records[id']? = some job' →
    job.discussionThreadId = job'.discussionThreadId → job.isLive = true →
      job'.attemptOrdinal.get ≤ job.attemptOrdinal.get ∧ (job'.isLive = true → job' = job)
  liveIndex : ∀ (id : JobId) (job : BranchHandoffJobRecord),
    store.live[id]? = some job ↔ store.records[id]? = some job ∧ job.isLive = true
  requests : ∀ (request : ResolutionRequestIdentity) (admission : ResolutionRequestAdmission),
    store.requests[request]? = some admission ↔ ∃ job, store.records[admission.jobId]? = some job
      ∧ job.request = request ∧ ResolutionRequestAdmission.fromJob job = admission
  /-- No two jobs have one request. -/
  oneRequest : ∀ (id : JobId) (job : BranchHandoffJobRecord) (id' : JobId)
      (job' : BranchHandoffJobRecord), store.records[id]? = some job →
        store.records[id']? = some job' →
    job.request = job'.request → job = job'

section

variable {id' : JobId} (h : Coherent store)
  (hjob : store.records[id]? = some job) (hjob' : store.records[id']? = some job')
include h hjob hjob'

theorem Coherent.eq_of_attemptKey (hkey : job.attemptKey = job'.attemptKey) : job = job' := by
  have hatt := (h.record _ _ hjob).2.2.1
  rw [hkey] at hatt
  exact hatt.unique (h.record _ _ hjob').2.2.1

variable (hthr : job.discussionThreadId = job'.discussionThreadId)
include hthr

theorem Coherent.failed_of_lt (hlt : job.attemptOrdinal.get < job'.attemptOrdinal.get) :
    job.lifecycle = .terminalFailed := by
  obtain ⟨prior, hprior, hfailed⟩ := h.earlier (h.record _ _ hjob').2.2.1 hlt
  have hatt := (h.record _ _ hjob).2.2.1
  rw [attemptKey, hthr] at hatt
  obtain rfl := hprior.unique hatt
  exact hfailed

theorem Coherent.le_of_live (hlive : job.isLive = true) :
    job'.attemptOrdinal.get ≤ job.attemptOrdinal.get := by
  refine Nat.le_of_not_lt fun hlt => ?_
  rw [isLive, h.failed_of_lt hjob hjob' hthr hlt] at hlive
  cases hlive

end

theorem Coherent.oneHandoff (h : Coherent store) : OneHandoff store := by
  refine ⟨fun discussion => ?_, fun id job id' job' => h.eq_of_attemptKey,
    fun id job id' job' => h.failed_of_lt, fun id job id' job' hjob hjob' hthr hlive => ?_,
    fun id job => ?_, fun request admission => ?_, fun id job id' job' hjob hjob' hreq => ?_⟩
  · cases hlatest : store.latest[discussion]? with
    | none =>
      refine ⟨0, fun ordinal => iff_of_false ?_ (Nat.not_le_of_lt ordinal.pos)⟩
      rintro ⟨id, job, hjob, hkey⟩
      have hatt := (h.record _ _ hjob).2.2.1
      obtain ⟨entry, hentry, -⟩ := h.last _ _ (hkey ▸ hatt)
      rw [hlatest] at hentry
      cases hentry
    | some entry =>
      obtain ⟨last, hlast, -⟩ := h.latest _ _ hlatest
      refine ⟨entry.attemptOrdinal.get, fun ordinal => ⟨?_, fun hle => ?_⟩⟩
      · rintro ⟨id, job, hjob, hkey⟩
        have hatt := (h.record _ _ hjob).2.2.1
        obtain ⟨entry', hentry', hle⟩ := h.last _ _ (hkey ▸ hatt)
        cases hlatest.symm.trans hentry'
        exact hle
      · rcases Nat.lt_or_eq_of_le hle with hlt | heq
        · obtain ⟨prior, hprior, -⟩ := h.earlier hlast hlt
          exact ⟨_, prior, hprior.stored, hprior.key⟩
        · obtain rfl := Revision.eq_of_get heq
          exact ⟨_, last, hlast.stored, hlast.key⟩
  · have hle := h.le_of_live hjob hjob' hthr hlive
    refine ⟨hle, fun hlive' => h.eq_of_attemptKey hjob' hjob ?_⟩
    have hord := Nat.le_antisymm hle (h.le_of_live hjob' hjob hthr.symm hlive')
    rw [attemptKey, attemptKey, hthr, Revision.eq_of_get hord]
  · refine ⟨h.live id job, ?_⟩
    rintro ⟨hjob, hlive⟩
    rw [(h.record _ _ hjob).2.2.2, if_pos hlive]
  · refine ⟨h.request request admission, ?_⟩
    rintro ⟨job, hjob, rfl, rfl⟩
    exact (h.record _ _ hjob).2.1
  · have hfrom := (h.record _ _ hjob).2.1
    rw [hreq, (h.record _ _ hjob').2.1] at hfrom
    have hids : job'.jobId = job.jobId :=
      congrArg ResolutionRequestAdmission.jobId (Option.some.inj hfrom)
    obtain ⟨rfl, -⟩ := h.record _ _ hjob
    obtain ⟨rfl, -⟩ := h.record _ _ hjob'
    rw [hids, hjob] at hjob'
    exact Option.some.inj hjob'

/-- **Jobs are accountable from a store on**, whatever is accepted after it. -/
structure Accountable (store : JobStore) : Prop where
  /-- A transition raises the revision of its job by one, and leaves the others. -/
  step : ∀ (command : JobCommand) (next : JobStore), command.execute store = .ok next →
    ∀ (id : JobId) (job : BranchHandoffJobRecord), store.records[id]? = some job →
      ∃ later, next.records[id]? = some later
        ∧ (command.target = some id → later.revision.get = job.revision.get + 1)
        ∧ (command.target ≠ some id → later = job)
  run : ∀ next, JobRun store next → ∀ (id : JobId) (job : BranchHandoffJobRecord),
    store.records[id]? = some job → ∃ later, next.records[id]? = some later ∧ Continues job later
  /-- If the job is still as a failure left it, what makes it live again restores its state. -/
  retry : ∀ (failure : JobCommand) (failed : JobStore), failure.execute store = .ok failed →
    ∀ (id : JobId) (job stopped : BranchHandoffJobRecord), store.records[id]? = some job →
      failed.records[id]? = some stopped → job.lifecycle ≠ .retryableFailed →
      stopped.lifecycle = .retryableFailed →
    ∀ next, JobRun failed next → next.records[id]? = some stopped →
    ∀ (retry : JobCommand) (retried : JobStore), retry.execute next = .ok retried →
    ∀ resumed, retried.records[id]? = some resumed → resumed ≠ stopped → resumed.isLive = true →
      resumed.state = job.state

theorem Coherent.accountable (h : Coherent store) : Accountable store := by
  refine ⟨fun command next accepted id job hjob => ?_, fun next hrun id job => h.continues hrun, ?_⟩
  · obtain ⟨later, hlater, ⟨htgt, hmoved⟩ | ⟨htgt, rfl⟩⟩ :=
      h.step_record (execute_does accepted) hjob
    · exact ⟨later, hlater, fun _ => hmoved.revision, fun hother => absurd htgt hother⟩
    · exact ⟨later, hlater, fun hsame => absurd hsame htgt, fun _ => rfl⟩
  · intro failure failed hfailure id job stopped hjob hstopped hbefore hlife next hrun hnext retry
      retried hretry resumed hresumed hmoves hlive
    obtain ⟨found, hfound, hfail⟩ := h.step_record (execute_does hfailure) hjob
    cases hfound.symm.trans hstopped
    have hcoh := (h.does (execute_does hfailure)).run hrun
    obtain ⟨found', hfound', hresume⟩ := hcoh.step_record (execute_does hretry) hnext
    cases hfound'.symm.trans hresumed
    rcases hfail with ⟨-, hfail⟩ | ⟨-, rfl⟩
    · rcases hresume with ⟨-, hresume⟩ | ⟨-, rfl⟩
      · exact state_of_retry hfail.moves hlife hresume.moves hlive
      · exact absurd rfl hmoves
    · exact absurd hlife hbefore

/-- **At most one handoff of a discussion is ever in flight.**  Whatever is accepted from the empty
store on, the validator accepts what is stored; and in every store that it accepts, the attempts of
a discussion are numbered without a gap, at most the last of them is live, the live index holds
exactly the live jobs, and requests and jobs correspond.  Along any run jobs keep the identities
they recorded, count their transitions, go back from a failure to where they were, and end for good.
-/
theorem handoffs_exclusive :
    (∀ store, JobRun .empty store → validate store = .ok ())
      ∧ ∀ store, validate store = .ok () → OneHandoff store ∧ Accountable store := by
  refine ⟨fun store hrun => validate_of_coherent (Coherent.empty.run hrun), fun store hvalid => ?_⟩
  have hcoherent := coherent_of_validate hvalid
  exact ⟨hcoherent.oneHandoff, hcoherent.accountable⟩

/-! ## Two attempts of a discussion -/

theorem JobRun.of_foldlM {first : JobStore} : ∀ {commands : List JobCommand} {store next},
    JobRun first store → commands.foldlM JobCommand.execute store = .ok next → JobRun first next
  | [], _, _, hrun, h => Except.ok.inj h ▸ hrun
  | command :: _, _, _, hrun, h => by
    obtain ⟨middle, haccepted, h⟩ := bind_eq_ok.mp h
    exact of_foldlM (hrun.step command haccepted) h

namespace OneDiscussion

/-- An attempt to hand the resolution over. -/
def attempt (intentId : ResolutionIntentId) (ordinal : ResolutionAttemptOrdinal) (call : String) :
    BranchHandoffJobAdmission where
  intentId := intentId
  attemptOrdinal := ordinal
  discussionThreadId := 1
  parentThreadId := 2
  contextOwnerId := .draft 3
  contextDigest := 4
  resolvingTurnId := 5
  request := ⟨"thread", "turn", call⟩
  parentQueueOrdinal := 0
  resolution := "done"

/-- The second revision. -/
def second : JobRevision := Revision.first.checkedNext.toOption.getD .first

/-- An attempt fails, is tried again and fails for good, and another is made. -/
def commands : List JobCommand :=
  [.admitBranchHandoffJob (attempt 7 firstAttempt "call"),
    .recordRetryableHandoffFailure 7 .first ⟨.runtimeUnavailable, none⟩,
    .retryBranchHandoff 7 second,
    .recordTerminalHandoffFailure 7 ⟨3, by decide, by decide⟩ ⟨.parentMissing, none⟩,
    .admitBranchHandoffJob (attempt 8 second "again")]

/-- What a job has come to. -/
def come (store : JobStore) (id : JobId) : Option (BranchHandoffJobLifecycle × ℕ) :=
  store.records[id]?.map fun job => (job.lifecycle, job.revision.get)

theorem handoffs_exclusive_commands : ∃ store, JobRun .empty store ∧ OneHandoff store
    ∧ Accountable store ∧ come store 7 = some (.terminalFailed, 4)
    ∧ come store 8 = some (.waitingResolvingTurn, 1) := by
  have hcome : (commands.foldlM JobCommand.execute .empty).toOption.map
      (fun store => (come store 7, come store 8))
        = some (some (.terminalFailed, 4), some (.waitingResolvingTurn, 1)) := by decide +kernel
  rcases hrun : commands.foldlM JobCommand.execute .empty with e | store
  · rw [hrun] at hcome
    cases hcome
  · rw [hrun] at hcome
    obtain ⟨hfirst, hsecond⟩ := Prod.mk.inj (Option.some.inj hcome)
    have hrun := JobRun.of_foldlM .start hrun
    obtain ⟨hone, hacc⟩ := handoffs_exclusive.2 store (handoffs_exclusive.1 store hrun)
    exact ⟨store, hrun, hone, hacc, hfirst, hsecond⟩

end OneDiscussion

end Beryl.Jobs
