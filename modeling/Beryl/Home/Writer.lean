import Beryl.Home.Command
import Beryl.Machinery.Batch

/-!
# Home/Writer — the serialized writer of a home

The writer takes one command at a time.  It compares every expected revision with the stored one,
prepares the participants on one snapshot, computes the receipt it intends, lets the participants
contribute, describes the old and new value of every record, and assembles one batch: the
contributed records, the record of each mutated domain at its next revision, and the next home
revision.  Only then is the batch committed and made durable.

What the engine and the surroundings do is an `Environment`: which reads fail, how the commit is
reported, where a fault is injected.  The batch is atomic and its reported commit state is truthful:
`CommitReport.applied` says whether the batch was applied, and only an indeterminate report leaves
it open.
-/

namespace Beryl.Home

open Fallible Wire

/-! ## The surroundings of a command -/

/-- An open home: its instance and its registered domains. -/
structure StoreGeneration where
  instanceId : ℕ
  registry : Registry

/-- The records and bytes of a batch. -/
structure BatchTotals where
  records : ℕ
  encodedKeyBytes : ℕ
  encodedValueBytes : ℕ
deriving DecidableEq

/-- What the engine reports of a commit: success, or a failure with the commit state it knows. -/
inductive CommitReport
  | success
  | notCommitted (source : StorageError)
  | committed (source : StorageError)
  | indeterminate (source : StorageError) (applied : Bool)
  | unreported (source : StorageError) (applied : Bool)
deriving DecidableEq

/-- Whether the batch was applied. -/
def CommitReport.applied : CommitReport → Bool
  | success => true
  | notCommitted _ => false
  | committed _ => true
  | indeterminate _ applied => applied
  | unreported _ applied => applied

/-- Where a fault can strike. -/
inductive FaultPoint
  | beforeCommit | afterCommitBeforePersist | afterPersist
deriving DecidableEq

/-- What surrounds one command. -/
structure Environment where
  /-- The answers of the cancellation signal, in the order of the writer's looks at it. -/
  cancelled : ℕ → Bool
  /-- The calling thread is inside this writer. -/
  reentrant : Bool
  writerPoisoned : Bool
  /-- The healthy generation that the health gate admits the command to. -/
  admission : Option ℕ
  generationPoisoned : Bool
  descriptorByteLimit : ℕ
  /-- There is a free scope, and room for a descriptor of this size. -/
  scopeAvailable : ℕ → Bool
  snapshotFailure : Option StorageError
  unreadable : Location → Option StorageError
  batchFailure : BatchTotals → Option StorageError
  fault : FaultPoint → Option StorageError
  commit : CommitReport
  persistFailure : Option StorageError
  confirmFailure : Option CommandError

/-! ## Reading the stored revisions -/

namespace Environment

variable (environment : Environment)

/-- A failure that the surroundings may cause. -/
def interrupt {ε : Type} (failure : Option ε) : Except ε Unit :=
  match failure with
  | some source => .error source
  | none => .ok ()

/-- One value of the snapshot. -/
def point (stage : ReadStage) (snapshot : Database) (location : Location) :
    Fetched (Option Bytes) := do
  (interrupt (environment.unreadable location)).mapError (.storage stage)
  return snapshot location

/-- The stored home revision. -/
def readHomeRevision (snapshot : Database) : Fetched HomeRevision := do
  let point ← environment.point .homeRevision snapshot homeLocation
  let value ← required (.invalidRevisionMetadata "home" ⟨"home revision record is missing"⟩) point
  ensure (value.length = homeRevisionBytes)
    (.invalidRevisionMetadata "home" ⟨"home revision record has an invalid stored length"⟩)
  (decodeHomeRevision value).mapError (.invalidRevisionMetadata "home")

/-- The stored record of a domain. -/
def readDomainMetadata (snapshot : Database) (domain : String) :
    Fetched DomainMetadata := do
  let point ← environment.point .domainRevision snapshot (domainLocation domain)
  let value ← required
    (.invalidRevisionMetadata "domain" ⟨"domain registration record is missing"⟩) point
  ensure (value.length ≤ maxDomainMetadataBytes)
    (.invalidRevisionMetadata "domain" ⟨"domain registration record exceeds its stored byte bound"⟩)
  (DomainMetadata.decode value).mapError (.invalidRevisionMetadata "domain")

end Environment

/-! ## The fence -/

/-- A participant with the domain it resolves to and the revision stored for it. -/
structure FencedParticipant where
  participant : DomainParticipant
  domain : RegisteredDomain
  currentRevision : DomainRevision

section

variable (generation : StoreGeneration) (environment : Environment) (snapshot : Database)

/-- The registered domain a plan was made for. -/
def resolveDomain (store slot owner : ℕ) (name : String) : Commanded RegisteredDomain := do
  ensure (store = generation.instanceId) (.foreignDomain name)
  required (.foreignDomain name) ((generation.registry.get slot).filter fun domain =>
    domain.name = name ∧ domain.owner = owner)

/-- The stored revision of a domain whose record matches its registration. -/
def currentRevision (domain : RegisteredDomain) (name : String) : Commanded DomainRevision := do
  let metadata ← (environment.readDomainMetadata snapshot name).mapError .revisionRead
  ensure (metadata = domain.metadata metadata.revision)
    (.domainRegistrationInvariant name)
  return metadata.revision

/-- Resolves a participant. -/
def fenceParticipant (participant : DomainParticipant) : Commanded FencedParticipant := do
  let domain ← resolveDomain generation participant.store participant.slot participant.owner
    participant.domain
  let revision ← currentRevision environment snapshot domain participant.domain
  return ⟨participant, domain, revision⟩

/-- A participant that expects another revision. -/
def FencedParticipant.conflict (fenced : FencedParticipant) : Option RevisionConflict :=
  if fenced.currentRevision = fenced.participant.expectedRevision then none
  else some (.domain fenced.participant.domain fenced.participant.expectedRevision
    fenced.currentRevision)

/-- A command that expects another home revision. -/
def homeConflict (expected current : HomeRevision) : Option RevisionConflict :=
  if current = expected then none else some (.home expected current)

/-- Conflicts by name, the home's first. -/
def sortConflicts (conflicts : List RevisionConflict) : List RevisionConflict :=
  conflicts.mergeSort fun left right => conflictName left ≤ conflictName right

/-- Reads and compares every revision that the command expects. -/
def fenceCommand (command : HomeCommand) : Commanded (HomeRevision × List FencedParticipant) := do
  let home ← (environment.readHomeRevision snapshot).mapError .revisionRead
  let fenced ← command.participants.mapM (fenceParticipant generation environment snapshot)
  let conflicts := (homeConflict command.expectedHomeRevision home).toList
    ++ fenced.filterMap FencedParticipant.conflict
  ensure (conflicts = []) (.conflict (sortConflicts conflicts))
  return (home, fenced)

end

/-! ## Preparation -/

/-- A mutation participant after its preparation. -/
structure PreparedContribution where
  slot : ℕ
  domain : RegisteredDomain
  currentRevision : DomainRevision
  contribution : Contribution

/-- Prepares the mutation participants and asks the validation participants, in order. -/
def prepareEach (snapshot : Database) :
    List FencedParticipant → Commanded (List PreparedContribution)
  | [] => .ok []
  | ⟨.mutation plan _, domain, revision⟩ :: fenced => do
    let contribution ← (plan.prepare snapshot).mapError
      (callbackCommandError plan.domain .validation)
    let prepared ← prepareEach snapshot fenced
    return ⟨plan.slot, domain, revision, contribution⟩ :: prepared
  | ⟨.validation plan _, _, _⟩ :: fenced => do
    (plan.validate snapshot).mapError (callbackCommandError plan.domain .validation)
    prepareEach snapshot fenced

/-- The revisions that a command brings about. -/
structure CommitReceipt where
  store : ℕ
  generation : ℕ
  homeRevision : HomeRevision
  domains : List (ℕ × DomainRevision)
deriving DecidableEq

/-- The revision that the domain in a slot advances to. -/
def CommitReceipt.domainRevision (receipt : CommitReceipt) (slot : ℕ) : Option DomainRevision :=
  (receipt.domains.find? fun domain => domain.1 = slot).map (·.2)

/-- The next revision of its domain. -/
def nextDomainRevision (participant : PreparedContribution) : Commanded (ℕ × DomainRevision) := do
  let revision ← participant.currentRevision.checkedNext.mapError fun _ =>
    .revisionExhausted ("domain \x60" ++ participant.domain.name ++ "\x60")
  return (participant.slot, revision)

/-- The receipt if all goes well. -/
def intendedReceipt (generation : StoreGeneration) (healthGeneration : ℕ) (home : HomeRevision)
    (prepared : List PreparedContribution) : Commanded CommitReceipt := do
  let homeRevision ← home.checkedNext.mapError fun _ => .revisionExhausted "home"
  let domains ← prepared.mapM nextDomainRevision
  return ⟨generation.instanceId, healthGeneration, homeRevision, domains⟩

/-- A mutation participant after its contribution. -/
structure PreparedMutation where
  slot : ℕ
  domain : RegisteredDomain
  builder : MutationBuilder domain

/-- The records that it contributes. -/
def PreparedContribution.contribute (participant : PreparedContribution) :
    Commanded PreparedMutation := do
  let builder ← (participant.contribution.assemble participant.domain).mapError
    (callbackCommandError participant.domain.name .contribution)
  ensure (builder.pending ≠ []) (.emptyContribution participant.domain.name)
  return ⟨participant.slot, participant.domain, builder⟩

/-! ## Descriptors -/

/-- What a record was and what it is to be. -/
structure MaterializedRecordDescriptor where
  familySlot : ℕ
  key : Bytes
  old : Option Bytes
  new : Option Bytes
deriving DecidableEq

/-- What becomes of a domain's records. -/
structure MaterializedDomainDescriptor where
  domainSlot : ℕ
  intendedRevision : DomainRevision
  records : List MaterializedRecordDescriptor
deriving DecidableEq

/-- The domains with a successor role. -/
structure FirstAcceptancePromotionDescriptor where
  sourceSlot : ℕ
  assetSlot : Option ℕ
deriving DecidableEq

/-- What is kept of a command whose outcome is open. -/
structure ReconciliationCustody where
  domains : List MaterializedDomainDescriptor
  receipt : CommitReceipt
  successor : Option FirstAcceptancePromotionDescriptor
deriving DecidableEq

/-- What a command reserved before its admission. -/
structure CommandReservation where
  declarations : List ReconciliationReservationOutput
  successor : Option SuccessorReservation

section

variable (environment : Environment) (snapshot : Database)

/-- The old value of a record, if it fits its family. -/
def readOldValue {domain : RegisteredDomain} (mutation : PendingMutation domain) :
    Commanded (Option Bytes) := do
  let old ← (environment.point .pointSize snapshot mutation.location).mapError .revisionRead
  let family := domain.families[mutation.familySlot]
  ensure ((old.getD []).length ≤ family.maxStoredValueBytes)
    (.revisionRead (.invalidStoredValueSize domain.name family.logicalName
      family.maxStoredValueBytes (old.getD []).length))
  return old

/-- Counts a record against the quota of its family and describes it. -/
def materializeRecords {domain : RegisteredDomain}
    (quotas : List (ReservedRecordQuota (String × ℕ))) (actual : String × ℕ → ℕ) :
    List (PendingMutation domain) → Commanded (List MaterializedRecordDescriptor)
  | [] => .ok []
  | mutation :: pending => do
    let family := domain.families[mutation.familySlot]
    let owned := (family.logicalName, family.codecType)
    let actual ← (countRecord quotas actual owned).mapError fun mismatch =>
      .reconciliationReservationMismatch domain.name family.logicalName mismatch.reserved
        mismatch.actual
    let old ← readOldValue environment snapshot mutation
    let records ← materializeRecords quotas actual pending
    return ⟨mutation.familySlot, mutation.key, old, mutation.action.value⟩ :: records

/-- Describes the records of a domain. -/
def materializeDomain (receipt : CommitReceipt)
    (participant : PreparedMutation × ReconciliationReservationOutput) :
    Commanded MaterializedDomainDescriptor := do
  let (mutation, declaration) := participant
  ensure (declaration.domain = mutation.domain.name)
    (.reconciliationReservationMismatch mutation.domain.name "unknown" 0
      mutation.builder.pending.length)
  let intended ← required (.panicked "intended receipt contains every materialized domain")
    (receipt.domainRevision mutation.slot)
  let records ← materializeRecords environment snapshot declaration.quotas (fun _ => 0)
    mutation.builder.pending
  return ⟨mutation.slot, intended, records⟩

/-- The slots of the participants with a successor role. -/
def promotionDescriptor (prepared : List PreparedMutation) (successor : SuccessorReservation) :
    Commanded FirstAcceptancePromotionDescriptor := do
  let slotOf (participant : ℕ) : Commanded ℕ := required
    (.panicked "a successor role belongs to a prepared participant")
    (prepared[participant]?.map (·.slot))
  let source ← slotOf successor.source
  let asset ← successor.asset.mapM slotOf
  return ⟨source, asset⟩

/-- Describes the records of a command. -/
def materializeReservation (prepared : List PreparedMutation) (reservation : CommandReservation)
    (receipt : CommitReceipt) : Commanded ReconciliationCustody := do
  ensure (prepared.length = reservation.declarations.length)
    (.reconciliationReservationMismatch ((prepared.head?.map (·.domain.name)).getD "unknown")
      "unknown" reservation.declarations.length prepared.length)
  let domains ← (prepared.zip reservation.declarations).mapM
    (materializeDomain environment snapshot receipt)
  let successor ← reservation.successor.mapM (promotionDescriptor prepared)
  return ⟨domains, receipt, successor⟩

end

/-! ## The batch -/

/-- The writes of a participant: its records, and its domain's record at the next revision. -/
def PreparedMutation.writes (receipt : CommitReceipt) (mutation : PreparedMutation) :
    Commanded (Writes) := do
  let next ← required (.panicked "intended receipt contains every prepared mutation domain")
    (receipt.domainRevision mutation.slot)
  let encoded ← (mutation.domain.metadata next).encode.mapError .metadata
  return mutation.builder.pending.map PendingMutation.write
    ++ [(domainLocation mutation.domain.name, some encoded)]

/-- Counts a write in the totals of a batch. -/
def BatchTotals.addWrite (totals : BatchTotals) (write : Location × Option Bytes) :
    Commanded BatchTotals := do
  let overflow := .commit
    ⟨"encoded command batch totals exceed the supported accounting range"⟩
  let records ← checkedAdd overflow totals.records 1
  let keyBytes ← checkedAdd overflow totals.encodedKeyBytes write.1.key.length
  let valueBytes ← checkedAdd overflow totals.encodedValueBytes (write.2.getD []).length
  return ⟨records, keyBytes, valueBytes⟩

/-- The one batch of a command. -/
def assembleBatch (environment : Environment) (receipt : CommitReceipt)
    (prepared : List PreparedMutation) : Commanded (Writes) := do
  let writes ← prepared.mapM (PreparedMutation.writes receipt)
  let batch := writes.flatten ++ [(homeLocation, some (encodeHomeRevision receipt.homeRevision))]
  let totals ← batch.foldlM BatchTotals.addWrite ⟨0, 0, 0⟩
  (Environment.interrupt (environment.batchFailure totals)).mapError .commit
  return batch

/-! ## Execution -/

/-- What is known of a command when the writer is done with it. -/
inductive CommandOutcome
  | notCommitted (evidence : CommandError)
  | committed (receipt : CommitReceipt) (laterFailure : Option CommandError)
  | indeterminate (failure : CommandError) (reconciliation : ReconciliationCustody)
deriving DecidableEq

/-- Everything the writer does before the physical commit; a failure here is a failed command. -/
def prepareCommit (generation : StoreGeneration) (environment : Environment) (healthGeneration : ℕ)
    (reservation : CommandReservation) (command : HomeCommand) (db : Database) :
    Commanded (ReconciliationCustody × Writes) := do
  ensure (command.participants ≠ []) .emptyCommand
  ensure (command.participants.any DomainParticipant.isMutation = true)
    .validationOnlyCommand
  ensure (∀ sidecar ∈ command.sidecars, sidecar = (generation.instanceId, healthGeneration))
    .foreignSidecar
  (Environment.interrupt environment.snapshotFailure).mapError fun source =>
    .revisionRead (.storage .homeRevision source)
  let (home, fenced) ← fenceCommand generation environment db command
  validateCommandPair (command.participants.map DomainParticipant.pairParticipant)
  let prepared ← prepareEach db fenced
  ensure (command.localAdmission ≠ some false) .localAdmissionRejected
  let receipt ← intendedReceipt generation healthGeneration home prepared
  let mutations ← prepared.mapM PreparedContribution.contribute
  let custody ← materializeReservation environment db mutations reservation receipt
  let batch ← assembleBatch environment receipt mutations
  (Environment.interrupt (environment.fault .beforeCommit)).mapError .commit
  return (custody, batch)

/-- Both failures of a command. -/
def withCommittedFailure : Option CommandError → CommandError → CommandError
  | some commit, persistence => .persistenceAfterCommitFailure commit persistence
  | none, persistence => persistence

/-- What becomes of a command whose batch was applied. -/
def persist (environment : Environment) (custody : ReconciliationCustody)
    (committedFailure : Option CommandError) : CommandOutcome :=
  match environment.fault .afterCommitBeforePersist with
  | some source =>
    .indeterminate (withCommittedFailure committedFailure (.persistence source)) custody
  | none =>
    match environment.persistFailure with
    | some source =>
      .indeterminate (withCommittedFailure committedFailure (.persistence source)) custody
    | none =>
      match environment.fault .afterPersist with
      | some source =>
        .committed custody.receipt
          (some (withCommittedFailure committedFailure (.persistence source)))
      | none => .committed custody.receipt committedFailure

/-- The outcome of a reported commit. -/
def commitOutcome (environment : Environment) (custody : ReconciliationCustody) : CommandOutcome :=
  match environment.commit with
  | .success => persist environment custody none
  | .notCommitted source => .notCommitted (.commit source)
  | .committed source => persist environment custody (some (.commit source))
  | .indeterminate source _ => .indeterminate (.commit source) custody
  | .unreported source _ => .indeterminate (.commit source) custody

/-- A command on the serialized writer, with what it leaves stored. -/
def executeAdmitted (generation : StoreGeneration) (environment : Environment)
    (healthGeneration : ℕ) (reservation : CommandReservation) (command : HomeCommand)
    (db : Database) : CommandOutcome × Database :=
  match prepareCommit generation environment healthGeneration reservation command db with
  | .error evidence => (.notCommitted evidence, db)
  | .ok (custody, batch) =>
    (commitOutcome environment custody,
      if environment.commit.applied then Batch.commit db batch else db)

/-- A failed health confirmation is kept with a command that is committed without a failure. -/
def confirmDatabase (environment : Environment) : CommandOutcome → CommandOutcome
  | .committed receipt none => .committed receipt environment.confirmFailure
  | outcome => outcome

/-- Admission to the writer. -/
def admitCommand (environment : Environment) : Commanded ℕ := do
  ensure (environment.cancelled 1 = false) .cancelledBeforeAdmission
  ensure (environment.reentrant = false) .reentrantWriter
  ensure (environment.writerPoisoned = false) .writerPoisoned
  ensure (environment.cancelled 2 = false) .cancelledBeforeAdmission
  let healthGeneration ← required .healthGate environment.admission
  ensure (environment.generationPoisoned = false) .generationPoisoned
  return healthGeneration

/-- An operation on the admitted writer. -/
def executeSerialized (environment : Environment) (db : Database)
    (operation : ℕ → CommandOutcome × Database) : CommandOutcome × Database :=
  match admitCommand environment with
  | .error evidence => (.notCommitted evidence, db)
  | .ok healthGeneration =>
    ((confirmDatabase environment (operation healthGeneration).1), (operation healthGeneration).2)

/-! ## Reservation -/

/-- `saturating_add` over a list. -/
def saturatingSum (bytes : List ℕ) : ℕ :=
  bytes.foldl (fun total n => min (total + n) (u64Size - 1)) 0

/-- Takes a scope for the descriptors. -/
def reserveReconciliation (environment : Environment)
    (declarations : List ReconciliationReservationOutput) : Commanded CommandReservation := do
  let successor ← collectSuccessorReservation declarations
  let bytes := saturatingSum (declarations.map (·.descriptorBytes))
  ensure (bytes ≤ environment.descriptorByteLimit)
    (.reconciliationDescriptorTooLarge bytes environment.descriptorByteLimit)
  ensure (environment.scopeAvailable bytes = true) .reconciliationCapacity
  return ⟨declarations, successor⟩

/-- What a plan reserves. -/
def DomainMutationPlan.reserve (plan : DomainMutationPlan) :
    Commanded ReconciliationReservationOutput :=
  plan.reserveReconciliation.mapError (callbackCommandError plan.domain .reservation)

/-- The plan of a mutation. -/
def DomainParticipant.plan : DomainParticipant → Option DomainMutationPlan
  | mutation plan _ => some plan
  | validation .. => none

/-- What all plans reserve. -/
def reserveHomeCommand (environment : Environment) (command : HomeCommand) :
    Commanded CommandReservation := do
  let declarations ← (command.participants.filterMap DomainParticipant.plan).mapM
    DomainMutationPlan.reserve
  reserveReconciliation environment declarations

/-- What is checked of a command before it waits for the writer. -/
def reserveCommand (environment : Environment) (command : HomeCommand) :
    Commanded CommandReservation := do
  ensure (environment.cancelled 0 = false) .cancelledBeforeAdmission
  ensure (environment.reentrant = false) .reentrantWriter
  ensure (command.participants ≠ []) .emptyCommand
  validateCommandPair (command.participants.map DomainParticipant.pairParticipant)
  ensure (command.participants.any DomainParticipant.isMutation = true)
    .validationOnlyCommand
  reserveHomeCommand environment command

/-- **One command on a home**: its outcome, and what the home has stored afterwards. -/
def execute (generation : StoreGeneration) (environment : Environment) (command : HomeCommand)
    (db : Database) : CommandOutcome × Database :=
  match reserveCommand environment command with
  | .error evidence => (.notCommitted evidence, db)
  | .ok reservation =>
    executeSerialized environment db fun healthGeneration =>
      executeAdmitted generation environment healthGeneration reservation command db

/-! ## Commands that capture their revisions -/

section

variable (generation : StoreGeneration) (environment : Environment)

/-- The stored revision for a plan. -/
def captureRevision (snapshot : Database) (plan : DomainMutationPlan) :
    Commanded DomainRevision := do
  let domain ← resolveDomain generation plan.store plan.slot plan.owner plan.domain
  currentRevision environment snapshot domain plan.domain

/-- The command with the revisions that are stored now. -/
def captureCommand (command : CurrentHomeCommand) (db : Database) : Commanded HomeCommand := do
  (Environment.interrupt environment.snapshotFailure).mapError fun source =>
    .revisionRead (.storage .homeRevision source)
  let home ← (environment.readHomeRevision db).mapError .revisionRead
  let revisions ← (command.primary :: command.others).mapM
    (captureRevision generation environment db)
  return command.expecting home revisions

/-- Captures and executes a command. -/
def executeCurrentHomeAdmitted (healthGeneration : ℕ) (reservation : CommandReservation)
    (command : CurrentHomeCommand) (db : Database) : CommandOutcome × Database :=
  match captureCommand generation environment command db with
  | .error evidence => (.notCommitted evidence, db)
  | .ok captured => executeAdmitted generation environment healthGeneration reservation captured db

/-- What is checked before. -/
def reserveCurrentCommand (command : CurrentHomeCommand) : Commanded CommandReservation := do
  ensure (environment.cancelled 0 = false) .cancelledBeforeAdmission
  ensure (environment.reentrant = false) .reentrantWriter
  validateCommandPair ((command.primary :: command.others).map fun plan =>
    (plan.domain, .mutation, plan.commandPair))
  let declarations ← (command.primary :: command.others).mapM DomainMutationPlan.reserve
  reserveReconciliation environment declarations

/-- One command at the current revisions. -/
def executeCurrentHome (command : CurrentHomeCommand) (db : Database) : CommandOutcome × Database :=
  match reserveCurrentCommand environment command with
  | .error evidence => (.notCommitted evidence, db)
  | .ok reservation =>
    executeSerialized environment db fun healthGeneration =>
      executeCurrentHomeAdmitted generation environment healthGeneration reservation command db

end

end Beryl.Home
