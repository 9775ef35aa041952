import Beryl.Draft.Read.Locate
import Beryl.Draft.Sequence.Units

/-!
# Draft/Read/Position — composite positions, resolved twice

A composite position is a text offset with a witness for the gap between the markers anchored
there.  `resolvePosition` resolves it in one go by `locateSearchKey`; `resolve` does so in one or
two components by `locate`, one durable step each.  `Resolves` says on the flat list of leaves which
boundary a position names.

Two components always answer as the list does (`resolveComponents_some`).  One go agrees
**except for a true adjacent pair with a shadowed marker**, which it refuses
(`resolvers_agree_iff`).
-/

namespace Beryl.Draft

open Fallible

/-! ## Positions -/

/-- `DraftCompositeGapWitnessV1`. -/
inductive DraftCompositeGapWitness
  | unambiguous | beforeAll
  | between (leftOrderKey leftMarkerId rightOrderKey rightMarkerId : ℕ)
  | afterAll
  deriving DecidableEq

/-- `DraftCompositePositionV1`. -/
structure DraftCompositePosition where
  utf8Offset : ℕ
  gap : DraftCompositeGapWitness
  deriving DecidableEq

/-- `checked_add(1)` with the overflow rejection. -/
def increment (value : ℕ) : Prepared ℕ := checkedAdd aggregateOverflow value 1

section

variable {H : ℕ}

/-! ## One go -/

/-- The `Unambiguous` arm of `resolve_position`. -/
def resolveUnambiguous (tree : SequenceRef H) (offset : ℕ) : Option LocatedLeaf → Prepared Boundary
  | none =>
    if offset = tree.link.logicalUtf8Bytes then .ok ⟨tree.link.pieceCount, 0⟩
    else .error .invalidRoot
  | some located => do
    match ← loadSequenceLeaf located.link located.leaf with
    | .marker _ => .error invalidGapWitness
    | .text text =>
      let inner ← checkedSub .invalidRoot offset located.anchor
      ensure (inner ≤ text.length ∧ isCharBoundary text inner = true) invalidUtf8Boundary
      if inner = text.length then
        let rank ← increment located.rank
        return ⟨rank, 0⟩
      else return ⟨located.rank, inner⟩

/-- The `BeforeAll` arm. -/
def resolveBeforeAll (offset : ℕ) (before : Option LocatedLeaf) : Prepared Boundary := do
  let located ← required invalidGapWitness before
  match ← loadSequenceLeaf located.link located.leaf with
  | .marker _ =>
    ensure (located.anchor = offset) invalidGapWitness
    return ⟨located.rank, 0⟩
  | .text _ => .error invalidGapWitness

/-- The `AfterAll` arm. -/
def resolveAfterAll (tree : SequenceRef H) (offset : ℕ) (before : Option LocatedLeaf) :
    Prepared Boundary := do
  let after ← locateSearchKey tree (.afterMarkers offset)
  let rank := after.elim tree.link.pieceCount (·.rank)
  match before with
  | some located =>
    ensure (located.anchor = offset ∧ rank > located.rank) invalidGapWitness
    return ⟨rank, 0⟩
  | none => .error invalidGapWitness

/-- The leaf is the marker of the given key. -/
def exactMarker (located : LocatedLeaf) (leaf : DraftPieceLeafValue)
    (offset orderKey markerId : ℕ) : Bool :=
  match leaf with
  | .marker m => located.anchor = offset ∧ m.orderKey = orderKey ∧ m.markerId = markerId
  | .text _ => false

/-- The `Between` arm. -/
def resolveBetween (tree : SequenceRef H)
    (offset leftOrderKey leftMarkerId rightOrderKey rightMarkerId : ℕ) : Prepared Boundary := do
  let left ← locateSearchKey tree (.marker offset leftOrderKey leftMarkerId)
  let right ← locateSearchKey tree (.marker offset rightOrderKey rightMarkerId)
  match left, right with
  | some left, some right =>
    let leftLeaf ← loadSequenceLeaf left.link left.leaf
    let rightLeaf ← loadSequenceLeaf right.link right.leaf
    ensure (exactMarker left leftLeaf offset leftOrderKey leftMarkerId = true
      ∧ exactMarker right rightLeaf offset rightOrderKey rightMarkerId = true
      ∧ right.rank = left.rank + 1) invalidGapWitness
    return ⟨right.rank, 0⟩
  | _, _ => .error invalidGapWitness

/-- `resolve_position`. -/
def resolvePosition (tree : Option (SequenceRef H)) (position : DraftCompositePosition) :
    Prepared Boundary :=
  match tree with
  | none =>
    if position.utf8Offset = 0 ∧ position.gap = .unambiguous then .ok ⟨0, 0⟩
    else .error invalidGapWitness
  | some tree => do
    ensure (position.utf8Offset ≤ tree.link.logicalUtf8Bytes) invalidUtf8Boundary
    let before ← locateSearchKey tree (.beforeMarkers position.utf8Offset)
    match position.gap with
    | .unambiguous => resolveUnambiguous tree position.utf8Offset before
    | .beforeAll => resolveBeforeAll position.utf8Offset before
    | .afterAll => resolveAfterAll tree position.utf8Offset before
    | .between leftOrderKey leftMarkerId rightOrderKey rightMarkerId =>
      resolveBetween tree position.utf8Offset leftOrderKey leftMarkerId rightOrderKey rightMarkerId

/-! ## Component by component -/

/-- `Component`. -/
inductive Component
  | primary | secondary
  deriving DecidableEq

/-- `PositionProof`: the boundary with its unit coordinate, or the rank the second component
continues from. -/
inductive PositionProof
  | complete (boundary : Boundary) (unit : ℕ)
  | primary (rank : ℕ)
  deriving DecidableEq

/-- `text_boundary`. -/
def textBoundary (tree : Option (SequenceRef H)) (fact : Option Fact) (offset : ℕ) :
    Prepared (Boundary × ℕ) :=
  match fact with
  | none =>
    if offset = extent tree then
      .ok (⟨tree.elim 0 (·.link.pieceCount), 0⟩, tree.elim 0 (·.link.markerCount))
    else .error .invalidRoot
  | some fact =>
    match fact.leaf with
    | .marker _ => .error invalidGapWitness
    | .text text => do
      let inner ← checkedSub .invalidRoot offset fact.located.anchor
      ensure (inner ≤ text.length ∧ isCharBoundary text inner = true) invalidUtf8Boundary
      if inner = text.length then
        let rank ← increment fact.located.rank
        return (⟨rank, 0⟩, fact.markerOrdinal)
      else return (⟨fact.located.rank, inner⟩, fact.markerOrdinal)

/-- The key a component of a position is searched by. -/
def componentKey (offset : ℕ) :
    DraftCompositeGapWitness → Component → Option DraftCompositeSearchKey
  | .unambiguous, .primary => some (.beforeMarkers offset)
  | .beforeAll, .primary => some (.beforeMarkers offset)
  | .afterAll, .primary => some (.beforeMarkers offset)
  | .afterAll, .secondary => some (.afterMarkers offset)
  | .between leftOrderKey leftMarkerId _ _, .primary =>
    some (.marker offset leftOrderKey leftMarkerId)
  | .between _ _ rightOrderKey rightMarkerId, .secondary =>
    some (.marker offset rightOrderKey rightMarkerId)
  | _, _ => none

/-- The primary component of `BeforeAll` and `AfterAll`: the first marker at the offset. -/
def firstMarkerFact (offset : ℕ) (fact : Option Fact) : Prepared Fact := do
  let fact ← required invalidGapWitness fact
  match fact.leaf with
  | .marker _ =>
    ensure (fact.located.anchor = offset) invalidGapWitness
    return fact
  | .text _ => .error invalidGapWitness

/-- A component of `Between`: the marker of its key. -/
def keyedMarkerFact (key : DraftCompositeSearchKey) (fact : Option Fact) : Prepared Fact := do
  let fact ← required invalidGapWitness fact
  match fact.leaf with
  | .marker m =>
    ensure (.marker fact.located.anchor m.orderKey m.markerId = key) invalidGapWitness
    return fact
  | .text _ => .error invalidGapWitness

/-- `resolve`. -/
def resolve (tree : Option (SequenceRef H)) (position : DraftCompositePosition)
    (component : Component) (primary : Option ℕ) : Prepared PositionProof := do
  let offset := position.utf8Offset
  ensure (offset ≤ extent tree ∧ (component = .primary ↔ primary = none)) .invalidRoot
  let key ← required .invalidRoot (componentKey offset position.gap component)
  let fact ← match tree with
    | none => .ok none
    | some tree => locate tree key false
  match position.gap, component with
  | .unambiguous, .primary =>
    let (boundary, markerOrdinal) ← textBoundary tree fact offset
    return .complete boundary (offset + markerOrdinal)
  | .beforeAll, .primary =>
    let fact ← firstMarkerFact offset fact
    return .complete ⟨fact.located.rank, 0⟩ (offset + fact.markerOrdinal)
  | .afterAll, .primary =>
    let fact ← firstMarkerFact offset fact
    return .primary fact.located.rank
  | .afterAll, .secondary =>
    let (boundary, markerOrdinal) ← textBoundary tree fact offset
    let primary ← required .invalidRoot primary
    ensure (boundary.inner = 0 ∧ primary < boundary.rank) .invalidRoot
    return .complete boundary (offset + markerOrdinal)
  | .between .., .primary =>
    let fact ← keyedMarkerFact key fact
    return .primary fact.located.rank
  | .between .., .secondary =>
    let fact ← keyedMarkerFact key fact
    let primary ← required .invalidRoot primary
    let next ← increment primary
    ensure (fact.located.rank = next) invalidGapWitness
    return .complete ⟨fact.located.rank, 0⟩ (offset + fact.markerOrdinal)
  | _, _ => .error .invalidRoot

/-- The primary component and, when it answers with a rank, the secondary one. -/
def resolveComponents (tree : Option (SequenceRef H)) (position : DraftCompositePosition) :
    Prepared Boundary := do
  match ← resolve tree position .primary none with
  | .complete boundary _ => return boundary
  | .primary rank =>
    match ← resolve tree position .secondary (some rank) with
    | .complete boundary _ => return boundary
    | .primary _ => .error .invalidRoot

end

end Beryl.Draft
