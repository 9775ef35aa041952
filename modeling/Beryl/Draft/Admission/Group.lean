import Beryl.Machinery.Wire
import Mathlib.Data.List.Lex
import Mathlib.Data.Prod.Lex

/-!
# Draft/Admission/Group — assignment groups and their canonical order

Every image marker admitted into a draft belongs to an *assignment group*: it keeps the label it
has, it is given a new label for the label it had in another thread, or it is given one for a fresh
asset.  Groups are compared by their canonical bytes, whose first byte is the kind, and **canonical
bytes determine the group** (`canonicalBytes_injective`).
-/

namespace Beryl.Admission

open Fallible Wire

/-! ## Errors -/

/-- `DraftMarkerAdmissionSchemaErrorV1`, as far as the trees report it. -/
inductive SchemaError
  | arithmeticOverflow | evidenceLength | invalidCount | invalidEnvelope | invalidHead | invalidRoot
  | invalidTree | nodeFanout | treeHeight
  deriving DecidableEq

/-- What a check of the records gives. -/
abbrev Checked (α : Type) := Except SchemaError α

/-- `DraftMarkerAdmissionIndexPreparationErrorV1`, without the failures of the store. -/
inductive IndexError
  | schema (error : SchemaError)
  | operationTooLarge | associationOutOfRange | duplicateSource | duplicateTarget | missingNode
  | pathAuthentication | sourceTargetDisagreement
  deriving DecidableEq

/-- The result of one preparation. -/
abbrev Prepared (α : Type) := Except IndexError α

/-! ## Identities -/

/-- `ImageLabelOrdinal`: a nonzero `u64`. -/
structure ImageLabelOrdinal where
  get : ℕ
  pos : 0 < get
  lt : get < u64Size
  deriving DecidableEq

@[ext] theorem ImageLabelOrdinal.ext {a b : ImageLabelOrdinal} (h : a.get = b.get) : a = b := by
  cases a; cases b; simp_all

/-- `ImageLabelOrdinal::checked_next`. -/
def ImageLabelOrdinal.checkedNext (label : ImageLabelOrdinal) : Option ImageLabelOrdinal :=
  if h : label.get + 1 < u64Size then some ⟨label.get + 1, Nat.succ_pos _, h⟩ else none

/-- `AssetIdentityVersion`. -/
inductive AssetIdentityVersion
  | sha256V1
  deriving DecidableEq

/-- The discriminant of a version. -/
def AssetIdentityVersion.toByte : AssetIdentityVersion → UInt8
  | sha256V1 => 1

/-- `AssetId`: a digest of 32 bytes and a nonzero length. -/
structure AssetId where
  version : AssetIdentityVersion
  digest : Bytes
  length : ℕ
  digest_length : digest.length = 32
  length_pos : 0 < length
  length_lt : length < u64Size
  deriving DecidableEq

/-- `SyndicThreadId`: sixteen bytes. -/
structure SyndicThreadId where
  bytes : Bytes
  length_eq : bytes.length = 16
  deriving DecidableEq

/-- `SyndicDraftMarkerId`: an opaque ordered identity. -/
abbrev SyndicDraftMarkerId := ℕ

/-! ## Groups -/

/-- `DraftMarkerAdmissionAssignmentGroupV1`. -/
inductive AssignmentGroup
  | preserveLabel (label : ImageLabelOrdinal)
  | allocateLabel (thread : SyndicThreadId) (label : ImageLabelOrdinal)
  | freshAsset (asset : AssetId)
  deriving DecidableEq

namespace AssignmentGroup

/-- `source_label`. -/
def sourceLabel : AssignmentGroup → Option ImageLabelOrdinal
  | preserveLabel label => some label
  | allocateLabel _ label => some label
  | freshAsset _ => none

/-- `allocates`. -/
def allocates : AssignmentGroup → Bool
  | preserveLabel _ => false
  | _ => true

/-- `canonical_bytes`. -/
def canonicalBytes : AssignmentGroup → Bytes
  | preserveLabel label => 0 :: beBytes 8 label.get
  | allocateLabel thread label => 1 :: (thread.bytes ++ beBytes 8 label.get)
  | freshAsset asset =>
    2 :: asset.version.toByte :: (asset.digest ++ beBytes 8 asset.length)

theorem beBytes_injective {m n : ℕ} (hm : m < u64Size) (hn : n < u64Size)
    (h : beBytes 8 m = beBytes 8 n) : m = n := by
  rw [← ofBeBytes_beBytes (show m < 256 ^ 8 from hm), h,
    ofBeBytes_beBytes (show n < 256 ^ 8 from hn)]

/-- **Canonical bytes determine the group.** -/
theorem canonicalBytes_injective : Function.Injective canonicalBytes := by
  intro a b h
  cases a with
  | preserveLabel l =>
    cases b with
    | preserveLabel m =>
      rw [canonicalBytes, canonicalBytes, List.cons.injEq] at h
      rw [ImageLabelOrdinal.ext (beBytes_injective l.lt m.lt h.2)]
    | allocateLabel | freshAsset => exact absurd (List.cons.inj h).1 (by decide)
  | allocateLabel t l =>
    cases b with
    | preserveLabel | freshAsset => exact absurd (List.cons.inj h).1 (by decide)
    | allocateLabel u m =>
      obtain ⟨hthr, hlabel⟩ := List.append_inj (List.cons.inj h).2
        (t.length_eq.trans u.length_eq.symm)
      rw [ImageLabelOrdinal.ext (beBytes_injective l.lt m.lt hlabel),
        show t = u by cases t; cases u; simp_all]
  | freshAsset x =>
    cases b with
    | preserveLabel | allocateLabel => exact absurd (List.cons.inj h).1 (by decide)
    | freshAsset y =>
      obtain ⟨hdigest, hlen⟩ := List.append_inj (List.cons.inj (List.cons.inj h).2).2
        (x.digest_length.trans y.digest_length.symm)
      have hlen := beBytes_injective x.length_lt y.length_lt hlen
      obtain ⟨⟨⟩, _, _, _, _, _⟩ := x
      simp_all

/-- The canonical bytes as numbers, which byte strings are compared by. -/
def canonicalOrder (group : AssignmentGroup) : List ℕ := group.canonicalBytes.map UInt8.toNat

theorem canonicalOrder_injective : Function.Injective canonicalOrder := fun _ _ h =>
  canonicalBytes_injective (List.map_injective_iff.mpr (fun _ _ => UInt8.toNat_inj.mp) h)

/-- Groups in the order of their canonical bytes. -/
instance : LinearOrder AssignmentGroup := LinearOrder.lift' canonicalOrder canonicalOrder_injective

end AssignmentGroup

/-! ## Source keys -/

/-- `DraftMarkerAdmissionSourceKeyV1`. -/
structure SourceKey where
  group : AssignmentGroup
  targetMarkerId : SyndicDraftMarkerId
  deriving DecidableEq

/-- The pair `source_key_less` compares. -/
def SourceKey.order (key : SourceKey) : List ℕ ×ₗ SyndicDraftMarkerId :=
  toLex (key.group.canonicalOrder, key.targetMarkerId)

theorem SourceKey.order_injective : Function.Injective SourceKey.order := by
  rintro ⟨g, t⟩ ⟨g', t'⟩ h
  obtain ⟨hg, ht⟩ := Prod.mk.inj (toLex.injective h)
  exact SourceKey.mk.injEq .. ▸ ⟨AssignmentGroup.canonicalOrder_injective hg, ht⟩

/-- `source_cmp`: by group, then by target marker. -/
instance : LinearOrder SourceKey := LinearOrder.lift' SourceKey.order SourceKey.order_injective

/-! ## Evidence -/

/-- `DRAFT_MARKER_ADMISSION_MAX_EVIDENCE_BYTES`. -/
abbrev maxEvidenceBytes : ℕ := 65536

/-- `DraftMarkerAdmissionEvidenceV1`: between one and 65536 bytes. -/
structure Evidence where
  asBytes : Bytes
  nonempty : asBytes ≠ []
  length_le : asBytes.length ≤ maxEvidenceBytes
  deriving DecidableEq

/-- The shape of evidence that `validate_group` asks for: its leading bytes name its kind, and its
length follows from them. -/
def Evidence.validShape (evidence : Evidence) (group : AssignmentGroup) (asset : AssetId) : Prop :=
  match group with
  | .freshAsset expected =>
    evidence.asBytes.head? = some 2 ∧ evidence.asBytes.length = 42 ∧ expected = asset
  | _ =>
    (evidence.asBytes.head? = some 0
        ∧ ((evidence.asBytes[1]? = some 0 ∧ evidence.asBytes.length = 434)
          ∨ (evidence.asBytes[1]? = some 1 ∧ evidence.asBytes.length = 450)))
      ∨ (evidence.asBytes.head? = some 1 ∧ evidence.asBytes.length = 194)

instance (evidence : Evidence) (group : AssignmentGroup) (asset : AssetId) :
    Decidable (evidence.validShape group asset) := by
  unfold Evidence.validShape; cases group <;> infer_instance

/-- `validate_group`: the evidence ends in the source label, if its group has one, and in the
asset. -/
def Evidence.validateGroup (evidence : Evidence) (group : AssignmentGroup) (asset : AssetId) :
    Checked Unit := do
  let bytes := evidence.asBytes
  ensure (evidence.validShape group asset) .invalidTree
  let tail := bytes.drop (bytes.length - 41)
  ensure (tail.head? = some asset.version.toByte ∧ (tail.drop 1).take 32 = asset.digest
    ∧ tail.drop 33 = leBytes 8 asset.length) .invalidTree
  match group.sourceLabel with
  | none => return
  | some label =>
    ensure ((bytes.drop (bytes.length - 49)).take 8 = leBytes 8 label.get) .invalidTree

/-! ## Leaves -/

/-- `DraftMarkerAdmissionTargetDispositionV1`. -/
inductive TargetDisposition
  | unassigned
  | assigned (label : ImageLabelOrdinal)
  deriving DecidableEq

/-- `DraftMarkerAdmissionPageIdentityV1`. -/
structure PageIdentity where
  commandId : ℕ
  pageOrdinal : ℕ
  deriving DecidableEq

/-- The payload of `SourceLeaf`. -/
structure SourceLeaf where
  sourceKey : SourceKey
  evidence : Evidence
  assetId : AssetId
  deriving DecidableEq

/-- The payload of `TargetLeaf`. -/
structure TargetLeaf where
  targetMarkerId : SyndicDraftMarkerId
  page : PageIdentity
  evidence : Evidence
  group : AssignmentGroup
  assetId : AssetId
  disposition : TargetDisposition
  deriving DecidableEq

/-- What a tree asks of its leaves: a key, and the check of `DraftMarkerAdmissionNodeV1::validate`.
-/
class Leaf (K : outParam Type) (V : Type) where
  key : V → K
  validate : V → Checked Unit

instance : Leaf SourceKey SourceLeaf where
  key leaf := leaf.sourceKey
  validate leaf := leaf.evidence.validateGroup leaf.sourceKey.group leaf.assetId

/-- A label that is kept is assigned as it is. -/
def keepsLabel : AssignmentGroup → TargetDisposition → Prop
  | .preserveLabel label, .assigned assigned => label = assigned
  | _, _ => True

instance (group : AssignmentGroup) (disposition : TargetDisposition) :
    Decidable (keepsLabel group disposition) := by
  cases group <;> cases disposition <;> unfold keepsLabel <;> infer_instance

instance : Leaf SyndicDraftMarkerId TargetLeaf where
  key leaf := leaf.targetMarkerId
  validate leaf := do
    leaf.evidence.validateGroup leaf.group leaf.assetId
    ensure (keepsLabel leaf.group leaf.disposition) .invalidTree

end Beryl.Admission
