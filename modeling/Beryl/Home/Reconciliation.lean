import Beryl.Home.History
import Mathlib.Data.List.FinRange

/-!
# Home/Reconciliation — what became of a command whose outcome is open

A command that ends indeterminate leaves its custody behind: for each domain it mutated, the old and
the intended value of every record.  Reconciliation reads the records again and lets each domain say
on which side it is.  A domain is on a side if every record has the value of that side.  There are
two classifiers, and they differ on a domain all of whose records match both sides:
`ReconciliationClassification.finish` calls it unchanged, `ReconciliationSides.finish` calls it a
collision.
-/

namespace Beryl.Home

open Fallible Wire

variable {V : Type} [DecidableEq V]

/-! ## Reading records -/

/-- What the codec of a family reads. -/
structure RecordCodec (V : Type) where
  /-- The encoded key is that of a record. -/
  decodeKey : Bytes → Bool
  decodeValue : Bytes → Option V

/-- What surrounds one reconciliation. -/
structure ReconciliationEnvironment where
  admitted : Bool
  generationPoisoned : Bool
  snapshotFailure : Option StorageError
  unreadable : Location → Option StorageError
  /-- The typed checks of the successor's source and witness hold. -/
  successorResolved : Bool
  confirmFailure : Option StorageError

section

variable (codecs : ℕ → RecordCodec V) (environment : ReconciliationEnvironment)
  (snapshot : Database) (domain : RegisteredDomain) (family : RegisteredFamily)

/-- The codec takes the key. -/
def decodeKey (encoded : Bytes) : Fetched Unit :=
  ensure ((codecs family.codecType).decodeKey encoded = true)
    (.codec domain.name family.logicalName .decodeKey)

/-- The value behind its version. -/
def decodeValue (encoded : Bytes) : Fetched V := do
  ensure (recordVersionBytes ≤ encoded.length) (.malformedRecord domain.name family.logicalName)
  let found := ofBeBytes (encoded.take recordVersionBytes)
  ensure (found = family.recordVersion.get)
    (.unsupportedRecordVersion domain.name family.logicalName family.recordVersion.get found)
  ensure (encoded.length ≤ family.maxStoredValueBytes)
    (.invalidStoredValueSize domain.name family.logicalName family.maxStoredValueBytes
      encoded.length)
  required (.codec domain.name family.logicalName .decodeValue)
    ((codecs family.codecType).decodeValue (encoded.drop recordVersionBytes))

/-- The value of a record that may be absent. -/
def decodeStored : Option Bytes → Fetched (Option V)
  | none => .ok none
  | some encoded => (decodeValue codecs domain family encoded).map some

/-- A stored record, checked. -/
def decodeRecordEnvelope (key value : Bytes) : Fetched V := do
  ensure (family.KeyFits key)
    (.invalidStoredKeySize domain.name family.logicalName family.maxKeyBytes key.length)
  decodeKey codecs domain family key
  ensure (value.length ≤ family.maxStoredValueBytes)
    (.invalidStoredValueSize domain.name family.logicalName family.maxStoredValueBytes value.length)
  decodeValue codecs domain family value

/-- What is stored now. -/
def readCurrent (key : Bytes) : Fetched (Option V) := do
  (Environment.interrupt (environment.unreadable ⟨family.physicalName, key⟩)).mapError
    (.storage .pointSize)
  match snapshot ⟨family.physicalName, key⟩ with
  | none => return none
  | some value =>
    ensure (value.length ≤ family.maxStoredValueBytes)
      (.invalidStoredValueSize domain.name family.logicalName family.maxStoredValueBytes
        value.length)
    return some (← decodeRecordEnvelope codecs domain family key value)

/-- The old, the intended and the current value of a record. -/
structure ReconciliationRecord (V : Type) where
  old : Option V
  new : Option V
  current : Option V
deriving DecidableEq

/-- All three values of a record. -/
def readRecord (record : MaterializedRecordDescriptor) :
    Fetched (ReconciliationRecord V) := do
  decodeKey codecs domain family record.key
  let old ← decodeStored codecs domain family record.old
  let new ← decodeStored codecs domain family record.new
  let current ← readCurrent codecs environment snapshot domain family record.key
  return ⟨old, new, current⟩

/-- The records of one family that a descriptor lists. -/
def familyRecords (descriptor : MaterializedDomainDescriptor) (slot : Fin domain.families.length) :
    Fetched (List (ReconciliationRecord V)) :=
  (descriptor.records.filter fun record => record.familySlot = slot.val).mapM
    (readRecord codecs environment snapshot domain (domain.families.get slot))

end

/-! ## Classification -/

/-- The side a domain is on. -/
inductive DomainReconciliation
  | exactOld | exactNew | exactUnchanged | collision
deriving DecidableEq

/-- The sides that all the records seen so far match. -/
structure ExactSides where
  sawRecord : Bool
  exactOld : Bool
  exactNew : Bool
deriving DecidableEq

/-- No record seen. -/
def ExactSides.start : ExactSides := ⟨false, true, true⟩

/-- One record more. -/
def ExactSides.observe (sides : ExactSides) (record : ReconciliationRecord V) : ExactSides where
  sawRecord := true
  exactOld := sides.exactOld && decide (record.current = record.old)
  exactNew := sides.exactNew && decide (record.current = record.new)

/-- The classifier of the Syndic domain. -/
def ReconciliationSides.finish (sides : ExactSides) : DomainReconciliation :=
  match sides.sawRecord, sides.exactOld, sides.exactNew with
  | true, true, false => .exactOld
  | true, false, true => .exactNew
  | _, _, _ => .collision

/-- The classifier of the other domains. -/
def ReconciliationClassification.finish (sides : ExactSides) : DomainReconciliation :=
  match sides.sawRecord, sides.exactOld, sides.exactNew with
  | true, true, false => .exactOld
  | true, false, true => .exactNew
  | true, true, true => .exactUnchanged
  | _, _, _ => .collision

/-- The classifier of a domain. -/
def Reconciler.finish : Reconciler → ExactSides → DomainReconciliation
  | syndic => ReconciliationSides.finish
  | state => ReconciliationClassification.finish

/-- The hook of a domain: every family in turn. -/
def reconcileDomain (codecs : ℕ → RecordCodec V) (environment : ReconciliationEnvironment)
    (snapshot : Database) (domain : RegisteredDomain) (descriptor : MaterializedDomainDescriptor) :
    Fetched DomainReconciliation := do
  let records ← (List.finRange domain.families.length).mapM
    (familyRecords codecs environment snapshot domain descriptor)
  return domain.reconciler.finish (records.flatten.foldl ExactSides.observe .start)

/-- The side selected by the domains from one on, beside the side selected before. -/
def selectSide (selected : Option DomainReconciliation) :
    List DomainReconciliation → Option DomainReconciliation
  | [] => selected
  | .exactUnchanged :: sides => selectSide selected sides
  | .collision :: _ => none
  | side :: sides =>
    if selected.any fun selected => selected ≠ side then none else selectSide (some side) sides

/-- The one side of all domains. -/
def ordinaryExactSide (sides : List DomainReconciliation) : Option DomainReconciliation :=
  selectSide none sides

/-! ## Reconciliation -/

/-- Why there is no answer. -/
inductive ReconciliationFailure
  | healthGate | staleScope | generationPoisoned
  | snapshot (source : StorageError)
  | hookAccess (domain : String) (source : ReadError)
deriving DecidableEq

/-- The answer. -/
inductive ReconciliationResolution
  | exactOld
  | exactNew (receipt : CommitReceipt)
  | exactSuccessor (receipt : CommitReceipt)
  | collision
deriving DecidableEq

/-- A successor is admitted if every other domain is on the new side, and the domains with a role
are on the new side or collide. -/
def descriptorSidesAdmitSuccessor (custody : ReconciliationCustody)
    (sides : List DomainReconciliation) : Bool :=
  match custody.successor with
  | none => false
  | some successor => (custody.domains.zip sides).all fun (descriptor, side) =>
    if descriptor.domainSlot = successor.sourceSlot
        ∨ successor.assetSlot = some descriptor.domainSlot then
      side = .exactNew ∨ side = .collision
    else side = .exactNew

/-- What was found out. -/
structure ReconciliationExecution where
  sides : List DomainReconciliation
  /-- Whether the successor's checks hold, if they are asked for. -/
  successor : Option Bool

section

variable (generation : StoreGeneration) (codecs : ℕ → RecordCodec V)
  (environment : ReconciliationEnvironment) (db : Database)

/-- The side of a listed domain. -/
def reconcileDescriptor (descriptor : MaterializedDomainDescriptor) :
    Except ReconciliationFailure DomainReconciliation := do
  let domain ← required .staleScope (generation.registry.get descriptor.domainSlot)
  (reconcileDomain codecs environment db domain descriptor).mapError (.hookAccess domain.name)

/-- The sides of all domains. -/
def executeReconciliationHook (custody : ReconciliationCustody) :
    Except ReconciliationFailure ReconciliationExecution := do
  ensure (environment.generationPoisoned = false) ReconciliationFailure.generationPoisoned
  (Environment.interrupt environment.snapshotFailure).mapError .snapshot
  let sides ← custody.domains.mapM (reconcileDescriptor generation codecs environment db)
  let successor := match custody.successor with
    | none => none
    | some _ =>
      if (ordinaryExactSide sides).isSome then none
      else some (descriptorSidesAdmitSuccessor custody sides && environment.successorResolved)
  (Environment.interrupt environment.confirmFailure).mapError .snapshot
  return ⟨sides, successor⟩

/-- What the sides of the domains come to. -/
def resolution (custody : ReconciliationCustody) (execution : ReconciliationExecution) :
    ReconciliationResolution :=
  match ordinaryExactSide execution.sides with
  | some .exactOld => .exactOld
  | some .exactNew => .exactNew custody.receipt
  | _ =>
    if execution.successor = some true
        ∧ descriptorSidesAdmitSuccessor custody execution.sides = true then
      .exactSuccessor custody.receipt
    else .collision

/-- The gate of one operation. -/
inductive ScopeState
  | vacant
  | verifying (custody : ReconciliationCustody)
  | closed

/-- A retained scope: its gate, and the result of its reconciliation once there is one. -/
structure Scope where
  state : ScopeState
  flight : Option (Except ReconciliationFailure ReconciliationResolution)

/-- The scope of a custody that was just installed. -/
def ReconciliationCustody.install (custody : ReconciliationCustody) : Scope :=
  ⟨.verifying custody, none⟩

/-- An exact result opens the gate, a collision closes it, a failure leaves it. -/
def finishWorker (custody : ReconciliationCustody) :
    Except ReconciliationFailure ReconciliationExecution →
      Except ReconciliationFailure ReconciliationResolution × ScopeState
  | .error failure => (.error failure, .verifying custody)
  | .ok execution =>
    (.ok (resolution custody execution),
      if resolution custody execution = .collision then .closed else .vacant)

/-- Verifies what is open. -/
def runReconciliation :
    ScopeState → Except ReconciliationFailure ReconciliationResolution × ScopeState
  | .verifying custody =>
    finishWorker custody (executeReconciliationHook generation codecs environment db custody)
  | state => (.error .staleScope, state)

/-- Triggers the reconciliation of a scope, or joins the one that there was. -/
def reconcile (scope : Scope) : Except ReconciliationFailure ReconciliationResolution × Scope :=
  if environment.admitted = false then (.error .healthGate, scope)
  else match scope.flight with
    | some result => (result, scope)
    | none =>
      let (result, state) := runReconciliation generation codecs environment db scope.state
      (result, ⟨state, some result⟩)

end

end Beryl.Home
