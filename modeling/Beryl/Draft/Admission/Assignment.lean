import Beryl.Draft.Admission.Rewrite

/-!
# Draft/Admission/Assignment — one assignment, and the label it gives

An association becomes a leaf of the source tree and a leaf of the target tree.  An assignment takes
the least leaf out of the source tree and writes a label into the target leaf it names.  A group
that keeps its label is given that label.  For the others a cursor walks through the reserved range:
it stands at the label given last, and it is moved on when the group changes.
-/

namespace Beryl.Admission

open Fallible

/-! ## Associations -/

/-- One entry of a sealed page, whose evidence fits its group and asset. -/
structure Association where
  group : AssignmentGroup
  targetMarkerId : SyndicDraftMarkerId
  evidence : Evidence
  assetId : AssetId
  valid : evidence.validateGroup group assetId = .ok ()
  deriving DecidableEq

/-- The leaf of an association in the source tree. -/
def Association.sourceLeaf (entry : Association) : SourceLeaf :=
  ⟨⟨entry.group, entry.targetMarkerId⟩, entry.evidence, entry.assetId⟩

/-- The leaf of an association in the target tree, before it is given a label. -/
def Association.targetLeaf (entry : Association) (page : PageIdentity) : TargetLeaf :=
  ⟨entry.targetMarkerId, page, entry.evidence, entry.group, entry.assetId, .unassigned⟩

theorem Association.validate_sourceLeaf (entry : Association) :
    Leaf.validate entry.sourceLeaf = .ok () := entry.valid

theorem Association.validate_targetLeaf (entry : Association) (page : PageIdentity) :
    Leaf.validate (entry.targetLeaf page) = .ok () := by
  refine bind_eq_ok.mpr ⟨(), entry.valid, ensure_true ?_⟩
  cases h : entry.group <;> simp [Association.targetLeaf, h, keepsLabel]

/-- The roots of the two trees. -/
structure Index where
  sourceRoot : Root SourceKey SourceLeaf
  targetRoot : Root SyndicDraftMarkerId TargetLeaf

/-! ## The continuation -/

/-- `DraftMarkerLabelAllocationRangeV1`: the labels reserved for an admission. -/
structure LabelAllocationRange where
  first : ImageLabelOrdinal
  last : ImageLabelOrdinal
  first_le_last : first.get ≤ last.get
  deriving DecidableEq

/-- The group, the asset and the label of the assignment before. -/
abbrev PriorSource := AssignmentGroup × AssetId × ImageLabelOrdinal

/-- `DraftMarkerAdmissionAssignmentContinuationV1`. -/
inductive AssignmentContinuation
  | reuse (priorSource : Option PriorSource)
  | allocate (range : LabelAllocationRange) (nextAllocation : ImageLabelOrdinal)
      (priorSource : Option PriorSource)
  deriving DecidableEq

namespace AssignmentContinuation

/-- `allocation_range`. -/
def allocationRange : AssignmentContinuation → Option LabelAllocationRange
  | reuse _ => none
  | allocate range _ _ => some range

/-- `next_allocation`. -/
def nextAllocation : AssignmentContinuation → Option ImageLabelOrdinal
  | reuse _ => none
  | allocate _ next _ => some next

/-- `prior_source`. -/
def priorSource : AssignmentContinuation → Option PriorSource
  | reuse prior => prior
  | allocate _ _ prior => prior

end AssignmentContinuation

/-- The label an allocating group gets: that of the leaf before if it belongs to the same group, the
one behind the cursor if the leaf before was given a label, and the one at the cursor otherwise. -/
def allocatedLabel (cursor : ImageLabelOrdinal) (prior : Option PriorSource)
    (group : AssignmentGroup) : Checked ImageLabelOrdinal :=
  match prior with
  | none => .ok cursor
  | some (priorGroup, _, assigned) =>
    if priorGroup = group then .ok assigned
    else if priorGroup.allocates then required .invalidHead cursor.checkedNext
    else .ok cursor

/-- The label a leaf is assigned. -/
def assignedLabel (continuation : AssignmentContinuation) (group : AssignmentGroup) :
    Checked ImageLabelOrdinal :=
  match group with
  | .preserveLabel label => .ok label
  | _ => do
    let range ← required .invalidHead continuation.allocationRange
    let cursor ← required .invalidHead continuation.nextAllocation
    let assigned ← allocatedLabel cursor continuation.priorSource group
    ensure (assigned.get ≤ range.last.get) .invalidHead
    return assigned

/-- What the target leaf of a source leaf is rewritten to. -/
def assignTarget (source : SourceLeaf) (assigned : ImageLabelOrdinal) (target : TargetLeaf) :
    Checked (Option TargetLeaf) := do
  ensure (target.targetMarkerId = source.sourceKey.targetMarkerId
    ∧ target.group = source.sourceKey.group ∧ target.assetId = source.assetId
    ∧ target.evidence = source.evidence ∧ target.disposition = .unassigned) .invalidHead
  let target := { target with disposition := .assigned assigned }
  Leaf.validate target
  return some target

/-- The trees and the continuation between two assignments. -/
structure Assigning where
  index : Index
  continuation : AssignmentContinuation

end Beryl.Admission
