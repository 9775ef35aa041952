import Beryl.Home.Domain
import Beryl.Home.Reservation

/-!
# Home/Command — revision-checked commands and what their callbacks contribute

A command names the home revision it expects and a list of participants, at most one for each
domain.  A mutation participant reserves quotas, is prepared against a snapshot and then contributes
records through a `MutationBuilder`, which resolves their families and refuses to touch a record
twice.  A validation participant only looks at the snapshot.  What a callback does is arbitrary: a
plan holds the results of its callbacks, whatever they are.
-/

namespace Beryl.Home

open Fallible Wire

/-! ## Failures -/

/-- A failure that the storage engine or an injected fault reports. -/
structure StorageError where
  reason : String
deriving DecidableEq

/-- What was being read. -/
inductive ReadStage
  | homeRevision | domainRevision | pointSize | pointValue
deriving DecidableEq

/-- What a codec was doing. -/
inductive CodecOperation
  | encodeKey | decodeKey | encodeValue | decodeValue
deriving DecidableEq

/-- Why a stored value could not be read. -/
inductive ReadError
  | storage (stage : ReadStage) (source : StorageError)
  | invalidRevisionMetadata (kind : String) (source : InvalidData)
  | unknownFamily (domain family : String)
  | codecTypeMismatch (domain family : String)
  | invalidKeySize (domain family : String) (maximum actual : ℕ)
  | boundExceeded (domain family : String) (maximum actual : ℕ)
  | invalidStoredKeySize (domain family : String) (maximum actual : ℕ)
  | invalidStoredValueSize (domain family : String) (maximum actual : ℕ)
  | malformedRecord (domain family : String)
  | unsupportedRecordVersion (domain family : String) (supported found : ℕ)
  | codec (domain family : String) (operation : CodecOperation)
  | reversedRange (domain family : String)
deriving DecidableEq

/-- What a read gives. -/
abbrev Fetched (α : Type) := Except ReadError α

/-- What a callback of a domain reports. -/
inductive CallbackError
  | access (source : ReadError)
  | rejected (reason : String)
deriving DecidableEq

/-- When a callback runs. -/
inductive ContributorCallbackStage
  | reservation | validation | contribution
deriving DecidableEq

/-- A revision that changed since the caller looked at it. -/
inductive RevisionConflict
  | home (expected current : HomeRevision)
  | domain (name : String) (expected current : DomainRevision)
deriving DecidableEq

/-- The domain of a conflict. -/
def conflictName : RevisionConflict → String
  | .home .. => ""
  | .domain name .. => name

/-- Why a command did not reach durable success. -/
inductive CommandError
  | healthGate | cancelledBeforeAdmission | localAdmissionRejected | invalidCommandPair
  | reentrantWriter | writerPoisoned | generationPoisoned | foreignSidecar | emptyCommand
  | validationOnlyCommand
  | foreignDomain (domain : String)
  | domainRegistrationInvariant (domain : String)
  | conflict (conflicts : List RevisionConflict)
  | contributorValidation (domain reason : String)
  | contributorReservation (domain reason : String)
  | contributorAccess (domain : String) (stage : ContributorCallbackStage) (source : ReadError)
  | contributorAssembly (domain reason : String)
  | emptyContribution (domain : String)
  | reconciliationCapacity
  | reconciliationDescriptorTooLarge (requested limit : ℕ)
  | reconciliationReservationMismatch (domain family : String) (reserved actual : ℕ)
  | invalidFirstAcceptancePromotionAdmission
  | revisionExhausted (scope : String)
  | revisionRead (source : ReadError)
  | metadata (source : InvalidData)
  | commit (source : StorageError)
  | persistence (source : StorageError)
  | persistenceAfterCommitFailure (commit persistence : CommandError)
  /-- A broken expectation of the writer, which stops it. -/
  | panicked (expectation : String)
deriving DecidableEq

/-- What a step of a command gives. -/
abbrev Commanded (α : Type) := Except CommandError α

/-- The failure of a callback, as one of the command. -/
def callbackCommandError (domain : String) (stage : ContributorCallbackStage) :
    CallbackError → CommandError
  | .access source => .contributorAccess domain stage source
  | .rejected reason =>
    match stage with
    | .reservation => .contributorReservation domain reason
    | .validation => .contributorValidation domain reason
    | .contribution => .contributorAssembly domain reason

/-! ## Contributions -/

/-- What is to be done with a record. -/
inductive PendingAction
  | put (value : Bytes)
  | delete
deriving DecidableEq

/-- The value that an action leaves behind. -/
def PendingAction.value : PendingAction → Option Bytes
  | .put value => some value
  | .delete => none

/-- A key that fits its family. -/
def RegisteredFamily.KeyFits (family : RegisteredFamily) (key : Bytes) : Prop :=
  0 < key.length ∧ key.length ≤ family.maxKeyBytes

instance (family : RegisteredFamily) (key : Bytes) : Decidable (family.KeyFits key) :=
  inferInstanceAs (Decidable (_ ∧ _))

/-- A record that a domain sets or deletes, with a key that fits. -/
structure PendingMutation (domain : RegisteredDomain) where
  familySlot : Fin domain.families.length
  key : Bytes
  action : PendingAction
  keyFits : domain.families[familySlot].KeyFits key
deriving DecidableEq

namespace PendingMutation

variable {domain : RegisteredDomain} (mutation : PendingMutation domain)

/-- The record itself, whatever is done to it. -/
def record : Fin domain.families.length × Bytes := (mutation.familySlot, mutation.key)

/-- Where the record lies. -/
def location : Location := domain.recordLocation mutation.familySlot mutation.key

/-- The write that the batch holds for the record. -/
def write : Location × Option Bytes := (mutation.location, mutation.action.value)

end PendingMutation

/-- Why a call is refused. -/
inductive MutationBuildError
  | unknownFamily (domain family : String)
  | codecTypeMismatch (domain family : String)
  | duplicateRecord (domain : String)
  | codec (source : ReadError)
deriving DecidableEq

/-- **The records a domain contributes**, no two of them the same. -/
structure MutationBuilder (domain : RegisteredDomain) where
  pending : List (PendingMutation domain)
  nodup : (pending.map PendingMutation.record).Nodup

/-- A call of a callback on its builder: the family and the codec it names, and the key and the
payload as the codec encodes them. -/
inductive BuilderCall
  | put (family : String) (codecType : ℕ) (key payload : Fetched Bytes)
  | delete (family : String) (codecType : ℕ) (key : Fetched Bytes)

/-- The length of a version. -/
def recordVersionBytes : ℕ := 4

/-- A payload behind the version of its family. -/
def encodeValue (domain : String) (family : RegisteredFamily) (payload : Bytes) :
    Except MutationBuildError Bytes := do
  ensure (payload.length + recordVersionBytes ≤ family.maxStoredValueBytes)
    (.codec (.boundExceeded domain family.logicalName
      (family.maxStoredValueBytes - recordVersionBytes) payload.length))
  return beBytes recordVersionBytes family.recordVersion.get ++ payload

namespace MutationBuilder

variable {domain : RegisteredDomain}

/-- No records yet. -/
def new (domain : RegisteredDomain) : MutationBuilder domain := ⟨[], List.nodup_nil⟩

/-- The family that a call names. -/
def familySlot (domain : RegisteredDomain) (family : String) (codecType : ℕ) :
    Except MutationBuildError (Fin domain.families.length) := do
  let slot ← required (.unknownFamily domain.name family) (domain.familySlot family)
  ensure (domain.families[slot].codecType = codecType) (.codecTypeMismatch domain.name family)
  return slot

/-- Takes a record, unless it was touched before. -/
def push (builder : MutationBuilder domain) (mutation : PendingMutation domain) :
    Except MutationBuildError (MutationBuilder domain) :=
  if h : mutation.record ∈ builder.pending.map PendingMutation.record then
    .error (.duplicateRecord domain.name)
  else
    .ok ⟨builder.pending ++ [mutation], by
      rw [List.map_append, List.nodup_append]
      refine ⟨builder.nodup, List.nodup_singleton _, fun touched htouched added hadded heq => ?_⟩
      obtain rfl := List.mem_singleton.mp hadded
      exact h (heq ▸ htouched)⟩

/-- The key of a record, if it fits its family. -/
def encodeStoredKey (slot : Fin domain.families.length) (key : Fetched Bytes) :
    Except MutationBuildError { key : Bytes // domain.families[slot].KeyFits key } := do
  let encoded ← key.mapError .codec
  let family := domain.families[slot]
  if h : family.KeyFits encoded then .ok ⟨encoded, h⟩
  else .error (.codec
    (.invalidKeySize domain.name family.logicalName family.maxKeyBytes encoded.length))

/-- Performs one call. -/
def call (builder : MutationBuilder domain) :
    BuilderCall → Except MutationBuildError (MutationBuilder domain)
  | .put family codecType key payload => do
    let slot ← familySlot domain family codecType
    let ⟨key, keyFits⟩ ← encodeStoredKey slot key
    let payload ← payload.mapError .codec
    let value ← encodeValue domain.name domain.families[slot] payload
    builder.push ⟨slot, key, .put value, keyFits⟩
  | .delete family codecType key => do
    let slot ← familySlot domain family codecType
    let ⟨key, keyFits⟩ ← encodeStoredKey slot key
    builder.push ⟨slot, key, .delete, keyFits⟩

/-- A refused call leaves the builder as it was; the callback may go on. -/
def run (builder : MutationBuilder domain) (calls : List BuilderCall) : MutationBuilder domain :=
  calls.foldl (fun builder call => (builder.call call).toOption.getD builder) builder

end MutationBuilder

/-- What a prepared callback does: its calls on the builder and its result. -/
structure Contribution where
  calls : List BuilderCall
  result : Except CallbackError Unit

/-- The records that a prepared callback contributes to a domain. -/
def Contribution.assemble (contribution : Contribution) (domain : RegisteredDomain) :
    Except CallbackError (MutationBuilder domain) := do
  contribution.result
  return (MutationBuilder.new domain).run contribution.calls

/-! ## Reservations -/

/-- How a promotion is admitted. -/
inductive FirstAcceptancePromotionAdmission
  | markerFree | assetTransferRequired
deriving DecidableEq

/-- The role in a promotion. -/
inductive FirstAcceptancePromotionReservation
  | source (admission : FirstAcceptancePromotionAdmission)
  | asset
deriving DecidableEq

/-- What a mutation participant reserves before the writer admits it; a quota is for one family and
the codec that owns it. -/
structure ReconciliationReservationOutput where
  domain : String
  quotas : List (ReservedRecordQuota (String × ℕ))
  descriptorBytes : ℕ
  successor : Option FirstAcceptancePromotionReservation
deriving DecidableEq

/-- The participants with a successor role. -/
structure SuccessorReservation where
  source : ℕ
  asset : Option ℕ
deriving DecidableEq

/-- The roles declared by the participants from a position on, beside those seen before. -/
def collectRoles (source : Option (ℕ × FirstAcceptancePromotionAdmission)) (asset : Option ℕ)
    (participant : ℕ) : List ReconciliationReservationOutput →
      Commanded (Option (ℕ × FirstAcceptancePromotionAdmission) × Option ℕ)
  | [] => .ok (source, asset)
  | declaration :: declarations =>
    match declaration.successor with
    | none => collectRoles source asset (participant + 1) declarations
    | some (.source admission) =>
      if source.isSome then .error .invalidFirstAcceptancePromotionAdmission
      else collectRoles (some (participant, admission)) asset (participant + 1) declarations
    | some .asset =>
      if asset.isSome then .error .invalidFirstAcceptancePromotionAdmission
      else collectRoles source (some participant) (participant + 1) declarations

/-- The roles, if they fit. -/
def collectSuccessorReservation (declarations : List ReconciliationReservationOutput) :
    Commanded (Option SuccessorReservation) := do
  let (source, asset) ← collectRoles none none 0 declarations
  match source with
  | none =>
    ensure (asset = none) .invalidFirstAcceptancePromotionAdmission
    return none
  | some (participant, admission) =>
    ensure ((match admission with
      | .markerFree => asset.isNone
      | .assetTransferRequired => asset.isSome) = true)
      .invalidFirstAcceptancePromotionAdmission
    return some ⟨participant, asset⟩

/-! ## Pairs -/

/-- What a participant does. -/
inductive CommandParticipantKind
  | mutation | validation
deriving DecidableEq

/-- The peer that a participant asks for. -/
structure CommandPairRequirement where
  protocol : ℕ
  operation : ℕ
  peerDomain : String
  peerKind : CommandParticipantKind
  correlation : Bytes
deriving DecidableEq

/-- A requirement that can be met at all. -/
def CommandPairRequirement.Valid (requirement : CommandPairRequirement) : Prop :=
  requirement.protocol ≠ 0 ∧ requirement.operation ≠ 0 ∧ requirement.peerDomain ≠ ""
    ∧ (textBytes requirement.peerDomain).length ≤ 255
    ∧ ∀ c ∈ requirement.peerDomain.toList, c.isLower ∨ c.isDigit ∨ c = '_' ∨ c = '-'

instance (requirement : CommandPairRequirement) : Decidable requirement.Valid :=
  inferInstanceAs (Decidable (_ ∧ _ ∧ _ ∧ _ ∧ _))

/-- Either no participant asks for a peer, or there are two and each asks for the other. -/
def validateCommandPair
    (participants : List (String × CommandParticipantKind × Option CommandPairRequirement)) :
    Commanded Unit :=
  if participants.all fun participant => participant.2.2.isNone then .ok ()
  else match participants with
    | [(leftDomain, leftKind, some left), (rightDomain, rightKind, some right)] =>
      ensure (leftDomain ≠ rightDomain ∧ left.Valid ∧ right.Valid ∧ left.peerDomain = rightDomain
        ∧ right.peerDomain = leftDomain ∧ left.peerKind = rightKind ∧ right.peerKind = leftKind
        ∧ left.protocol = right.protocol ∧ left.operation = right.operation
        ∧ left.correlation = right.correlation) .invalidCommandPair
    | _ => .error .invalidCommandPair

/-! ## Participants -/

/-- A plan to change a domain, with what its callbacks do. -/
structure DomainMutationPlan where
  /-- The store instance the plan was made for. -/
  store : ℕ
  slot : ℕ
  owner : ℕ
  domain : String
  commandPair : Option CommandPairRequirement
  reserveReconciliation : Except CallbackError ReconciliationReservationOutput
  prepare : Database → Except CallbackError Contribution

/-- A plan to look at a domain. -/
structure DomainValidationPlan where
  store : ℕ
  slot : ℕ
  owner : ℕ
  domain : String
  commandPair : Option CommandPairRequirement
  validate : Database → Except CallbackError Unit

/-- One participant of a command. -/
inductive DomainParticipant
  | mutation (plan : DomainMutationPlan) (expectedRevision : DomainRevision)
  | validation (plan : DomainValidationPlan) (expectedRevision : DomainRevision)

namespace DomainParticipant

/-- The store it is for. -/
def store : DomainParticipant → ℕ
  | mutation plan _ => plan.store
  | validation plan _ => plan.store

/-- Its domain's slot. -/
def slot : DomainParticipant → ℕ
  | mutation plan _ => plan.slot
  | validation plan _ => plan.slot

/-- Its domain's owner. -/
def owner : DomainParticipant → ℕ
  | mutation plan _ => plan.owner
  | validation plan _ => plan.owner

/-- Its domain's name. -/
def domain : DomainParticipant → String
  | mutation plan _ => plan.domain
  | validation plan _ => plan.domain

/-- The revision it expects. -/
def expectedRevision : DomainParticipant → DomainRevision
  | mutation _ expected => expected
  | validation _ expected => expected

/-- Whether it writes. -/
def isMutation : DomainParticipant → Bool
  | mutation .. => true
  | validation .. => false

/-- What the check of pairs sees. -/
def pairParticipant :
    DomainParticipant → String × CommandParticipantKind × Option CommandPairRequirement
  | mutation plan _ => (plan.domain, .mutation, plan.commandPair)
  | validation plan _ => (plan.domain, .validation, plan.commandPair)

/-- The domain registration a participant was made for. -/
def place (participant : DomainParticipant) : ℕ × ℕ := (participant.store, participant.slot)

end DomainParticipant

/-! ## Commands -/

/-- **A command over several domains**, with at most one participant for each. -/
structure HomeCommand where
  /-- The answer of the local admission predicate, if there is one. -/
  localAdmission : Option Bool
  expectedHomeRevision : HomeRevision
  participants : List DomainParticipant
  /-- The store and the generation each retained sidecar was admitted by. -/
  sidecars : List (ℕ × ℕ)
  nodup : (participants.map DomainParticipant.place).Nodup

/-- A command whose revisions are captured by the writer itself. -/
structure CurrentHomeCommand where
  primary : DomainMutationPlan
  others : List DomainMutationPlan
  nodup : ((primary :: others).map fun plan => (plan.store, plan.slot)).Nodup

/-- The command that a current command becomes, once its revisions are known. -/
def CurrentHomeCommand.expecting (command : CurrentHomeCommand) (home : HomeRevision)
    (revisions : List DomainRevision) : HomeCommand where
  localAdmission := none
  expectedHomeRevision := home
  participants := List.zipWith .mutation (command.primary :: command.others) revisions
  sidecars := []
  nodup := by
    refine command.nodup.sublist ?_
    generalize command.primary :: command.others = plans
    induction plans generalizing revisions with
    | nil => simp
    | cons plan plans ih =>
      cases revisions with
      | nil => simp
      | cons revision revisions => exact (ih revisions).cons_cons _

end Beryl.Home
