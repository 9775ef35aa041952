import Beryl.Draft.Build.Chunk
import Beryl.Draft.Build.MapTree
import Beryl.Draft.Sequence.UnitCut

/-!
# Draft/Build/Program — the quantum steps of a text build

A build rewrites its predecessor fragment by fragment.  Its durable state is a *frontier* — which
fragment is at hand, and how far it has come — and a *stage*, the step of the coordinate work in
progress.  `advance` performs one quantum: it proves one position, cuts or edits the map once, or
edits the sequence by one leaf.  A step that fails leaves the state as it is.
-/

namespace Beryl.Draft

open Fallible

/-! ## State -/

/-- `DraftPieceMappingSourceFactV1`. -/
structure SourceFact where
  boundary : Boundary
  unit : ℕ
  deriving DecidableEq

/-- `DraftPieceMappingProofComponentV1`. -/
structure ProofComponent where
  component : Component
  primaryMarkerRank : Option ℕ
  deriving DecidableEq

/-- `DraftPieceMappingStageV1`, the stages of a build without marker effects. -/
inductive Stage
  | idle
  | textSourceStart (proof : ProofComponent)
  | textSourceEnd (start : SourceFact) (proof : ProofComponent)
  | textPreviousStart (start stop : SourceFact) (proof : ProofComponent)
  | textPreviousEnd (start stop : SourceFact) (previousStart : Boundary) (proof : ProofComponent)
  | textMapStart (start stop : SourceFact)
  | textMapEnd (sourceStart sourceEnd : Boundary) (mappedStart : ℕ)
  | textResolveStart (sourceStart sourceEnd : Boundary) (mappedStart mappedEnd : ℕ)
  | textResolveEnd (sourceStart sourceEnd : Boundary) (mappedEnd : ℕ) (startBoundary : Boundary)
      (startMarkerOrdinal : ℕ)
  | textDeleteProof | textInsertProof
  | deleteMap (splice : Splice) (target : MapRoot) (remainingEnd : ℕ)
  | insertMap (splice : Splice)
  | mapComplete (splice : Splice) (target : MapRoot)
  | ready (splice : Splice) (target : MapRoot)
  | refreshMap
  | refreshSequence (mappedUnit : ℕ)
  | publishReady (successorBoundary : Boundary) (logicalOffset : ℕ)

instance (stage : Stage) : Decidable (stage = .idle) := by
  cases stage <;> first | exact isTrue rfl | exact isFalse Stage.noConfusion

/-- `DraftPieceBuildFrontierV1`. -/
inductive Frontier
  | planning (fragmentOrdinal : ℕ)
  | removing (fragmentOrdinal nextRank endRank removedMarkers : ℕ)
      (baseEnd successorStart successorEnd : Boundary)
  | applying (fragmentOrdinal : ℕ) (baseEnd successorStart successorEnd : Boundary)
  | inserting (fragmentOrdinal nextPiece nextByte : ℕ) (baseEnd successorEnd : Boundary)
  | crossValidating | complete
  deriving DecidableEq

/-- `DraftPieceBuildRootsV1`: the sequence, and the counts of the marker index and the marker order,
which a text build leaves alone. -/
structure BuildRoots where
  sequence : WorkingSequence
  indexRecords : ℕ
  orderMarkers : ℕ

/-- `DraftPieceBuildMappingV1`. -/
structure BuildMapping where
  currentMap : MapRoot
  completedSourceUnit : ℕ
  fragmentSourceEndUnit : Option ℕ
  stage : Stage

/-- The durable state of a build. -/
structure BuildState where
  workingRoots : BuildRoots
  baseFrontier : Boundary
  successorFrontier : Boundary
  frontier : Frontier
  mapping : BuildMapping
  successor : Option BuildRoots

/-- What a build is given: the predecessor, the fragments, and where caret and selection shall stand
in the successor. -/
structure Build where
  predecessor : BuildRoots
  fragments : List DraftPieceReplacement
  caret : DraftCompositePosition
  selection : DraftCompositePosition

/-- `set_stage`. -/
def BuildState.setStage (state : BuildState) (stage : Stage) : BuildState :=
  { state with mapping := { state.mapping with stage := stage } }

/-- The end of a quantum that moves the frontier and the stage. -/
def BuildState.moved (state : BuildState) (frontier : Frontier) (stage : Stage) : BuildState :=
  { state.setStage stage with frontier := frontier }

@[simp] theorem BuildState.moved_workingRoots (state : BuildState) (frontier : Frontier)
    (stage : Stage) : (state.moved frontier stage).workingRoots = state.workingRoots := rfl

@[simp] theorem BuildState.moved_mapping (state : BuildState) (frontier : Frontier)
    (stage : Stage) :
    (state.moved frontier stage).mapping = { state.mapping with stage := stage } := rfl

/-! ## Roots -/

/-- The marker count of a sequence. -/
def sequenceMarkers (sequence : WorkingSequence) : ℕ :=
  sequence.elim 0 fun root => root.2.link.markerCount

/-- `load_sequence_root_node`. -/
def loadRootNode : WorkingSequence → Prepared WorkingSequence
  | none => .ok none
  | some ⟨0, _⟩ => .error .invalidRoot
  | some ⟨h + 1, ref⟩ => do
    let _ ← loadSequenceNode ref
    return some ⟨h + 1, ref⟩

/-- `load_working_roots`, and what `load_root` checks alike. -/
def loadWorkingRoots (roots : BuildRoots) : Prepared WorkingSequence := do
  let sequence ← loadRootNode roots.sequence
  ensure (sequenceMarkers sequence = roots.orderMarkers ∧ roots.indexRecords = roots.orderMarkers)
    .invalidRoot
  return sequence

/-- `build_roots`; `finalize_build_root` does the same to the finished sequence. -/
def buildRoots (roots : BuildRoots) (sequence : WorkingSequence) : Prepared BuildRoots := do
  let sequence ← rootSequence sequence
  ensure (sequenceMarkers sequence = roots.indexRecords
    ∧ sequenceMarkers sequence = roots.orderMarkers) .invalidRoot
  return { roots with sequence := sequence }

/-- `resolve` on a root. -/
def resolveIn (sequence : WorkingSequence) (position : DraftCompositePosition)
    (proof : ProofComponent) : Prepared PositionProof :=
  match sequence with
  | none => resolve (none : Option (SequenceRef 0)) position proof.component proof.primaryMarkerRank
  | some ⟨_, ref⟩ => resolve (some ref) position proof.component proof.primaryMarkerRank

/-- `resolve_position` on a root. -/
def resolvePositionIn (sequence : WorkingSequence) (position : DraftCompositePosition) :
    Prepared Boundary :=
  match sequence with
  | none => resolvePosition (none : Option (SequenceRef 0)) position
  | some ⟨_, ref⟩ => resolvePosition (some ref) position

/-! ## Map steps -/

/-- `advance_map_step`: the stages that only need the map, or the place of a unit. -/
def advanceMapStep (state : BuildState) : Prepared (Option Stage) := do
  let mapping := state.mapping
  match mapping.stage with
  | .deleteMap splice target remainingEnd =>
    let stop := splice.a + splice.removed
    ensure (splice.a < remainingEnd ∧ remainingEnd ≤ stop
      ∧ target.measure.source = mapping.currentMap.measure.source
      ∧ target.measure.target + (stop - remainingEnd) = mapping.currentMap.measure.target)
      .invalidRoot
    let (target, remainingEnd) ← deleteLeaf target splice.a remainingEnd
    if remainingEnd = splice.a then return some (.mapComplete splice target)
    else return some (.deleteMap splice target remainingEnd)
  | .insertMap splice =>
    let target ← insertMap mapping.currentMap splice.a splice.inserted
    return some (.mapComplete splice target)
  | .mapComplete splice target =>
    ensure (target.measure.source = mapping.currentMap.measure.source
      ∧ splice.removed ≤ mapping.currentMap.measure.target
      ∧ mapping.currentMap.measure.target - splice.removed + splice.inserted
        = target.measure.target) .invalidRoot
    return some (.ready splice target)
  | .refreshMap =>
    let unit ← required .invalidRoot mapping.fragmentSourceEndUnit
    let mappedUnit ← sourceCut mapping.currentMap unit false
    return some (.refreshSequence mappedUnit)
  | .refreshSequence mappedUnit =>
    let sequence ← loadWorkingRoots state.workingRoots
    let fact ← atUnit sequence mappedUnit
    return some (.publishReady fact.boundary fact.logicalOffset)
  | _ => return none

/-! ## Positions -/

/-- `primary()`. -/
def primaryProof : ProofComponent := ⟨.primary, none⟩

/-- `secondary(rank)`. -/
def secondaryProof (rank : ℕ) : ProofComponent := ⟨.secondary, some rank⟩

/-- `source_proof`. -/
def sourceProof (build : Build) (position : DraftCompositePosition) (proof : ProofComponent) :
    Prepared PositionProof := do
  let sequence ← loadWorkingRoots build.predecessor
  resolveIn sequence position proof

/-- `previous`: the fragment before the one of an ordinal. -/
def previousFragment (build : Build) (ordinal : ℕ) : Prepared DraftPieceReplacement := do
  ensure (2 ≤ ordinal) .invalidRoot
  required .invalidRoot build.fragments[ordinal - 2]?

/-! ## Text steps -/

section

variable (build : Build) (state : BuildState) (ordinal : ℕ) (fragment : DraftPieceReplacement)

/-- The stage `Idle` at a frontier that plans a fragment. -/
def planFragment : Prepared BuildState :=
  if fragment.isContinuation then do
    ensure (ordinal ≠ 1 ∧ fragment.inserted ≠ []) .invalidRoot
    let previous ← previousFragment build ordinal
    ensure (previous.start = fragment.start ∧ previous.stop = fragment.stop) (.rejected .outOfOrder)
    return { state with
      mapping := { state.mapping with
        fragmentSourceEndUnit := some state.mapping.completedSourceUnit }
      frontier := .inserting ordinal 0 0 state.baseFrontier state.successorFrontier }
  else return state.setStage (.textSourceStart primaryProof)

/-- The stage `Idle`. -/
def advanceIdle : Prepared BuildState :=
  match state.frontier with
  | .planning _ => planFragment build state ordinal fragment
  | .removing ordinal nextRank endRank removedMarkers baseEnd successorStart successorEnd => do
    ensure (nextRank = endRank ∧ nextRank = baseEnd.rank ∧ removedMarkers = 0) .invalidRoot
    return state.moved (.applying ordinal baseEnd successorStart successorEnd) .idle
  | .applying ordinal baseEnd successorStart successorEnd =>
    if successorStart = successorEnd then
      .ok (state.moved (.inserting ordinal 0 0 baseEnd successorStart) .idle)
    else .ok (state.setStage .textDeleteProof)
  | .inserting _ nextPiece nextByte _ _ =>
    if nextPiece = fragment.inserted.length ∧ nextByte = 0 then .ok (state.setStage .refreshMap)
    else if nextPiece < fragment.inserted.length then .ok (state.setStage .textInsertProof)
    else .error .invalidRoot
  | _ => .error .invalidRoot

/-- The stage `TextSourceStart`. -/
def proveSourceStart (proof : ProofComponent) : Prepared BuildState := do
  match ← sourceProof build fragment.start proof with
  | .primary rank => return state.setStage (.textSourceStart (secondaryProof rank))
  | .complete boundary unit => return state.setStage (.textSourceEnd ⟨boundary, unit⟩ primaryProof)

/-- The stage `TextSourceEnd`. -/
def proveSourceEnd (start : SourceFact) (proof : ProofComponent) : Prepared BuildState := do
  match ← sourceProof build fragment.stop proof with
  | .primary rank => return state.setStage (.textSourceEnd start (secondaryProof rank))
  | .complete boundary unit =>
    ensure (start.unit ≤ unit) (.rejected .outOfOrder)
    ensure (state.mapping.completedSourceUnit ≤ start.unit) (.rejected .overlap)
    let state := { state with mapping := { state.mapping with fragmentSourceEndUnit := some unit } }
    if 1 < ordinal ∧ start.unit = unit ∧ start.unit = state.mapping.completedSourceUnit then
      return state.setStage (.textPreviousStart start ⟨boundary, unit⟩ primaryProof)
    else return state.setStage (.textMapStart start ⟨boundary, unit⟩)

/-- The stage `TextPreviousStart`. -/
def provePreviousStart (start stop : SourceFact) (proof : ProofComponent) :
    Prepared BuildState := do
  let previous ← previousFragment build ordinal
  match ← sourceProof build previous.start proof with
  | .primary rank => return state.setStage (.textPreviousStart start stop (secondaryProof rank))
  | .complete boundary _ =>
    return state.setStage (.textPreviousEnd start stop boundary primaryProof)

/-- The stage `TextPreviousEnd`. -/
def provePreviousEnd (start stop : SourceFact) (previousStart : Boundary) (proof : ProofComponent) :
    Prepared BuildState := do
  let previous ← previousFragment build ordinal
  match ← sourceProof build previous.stop proof with
  | .primary rank =>
    return state.setStage (.textPreviousEnd start stop previousStart (secondaryProof rank))
  | .complete boundary _ =>
    ensure (boundary ≠ previousStart) (.rejected .duplicateEmptyRange)
    return state.setStage (.textMapStart start stop)

/-- The stages `TextMapStart` and `TextMapEnd`: the ends of the range in the draft. -/
def mapStart (start stop : SourceFact) : Prepared BuildState := do
  let mappedStart ← sourceCut state.mapping.currentMap start.unit false
  return state.setStage (.textMapEnd start.boundary stop.boundary mappedStart)

@[inherit_doc mapStart]
def mapEnd (sourceStart sourceEnd : Boundary) (mappedStart : ℕ) : Prepared BuildState := do
  let unit ← required .invalidRoot state.mapping.fragmentSourceEndUnit
  let mappedEnd ← sourceCut state.mapping.currentMap unit false
  return state.setStage (.textResolveStart sourceStart sourceEnd mappedStart mappedEnd)

/-- The stage `TextResolveStart`. -/
def resolveStart (sourceStart sourceEnd : Boundary) (mappedStart mappedEnd : ℕ) :
    Prepared BuildState := do
  let sequence ← loadWorkingRoots state.workingRoots
  let fact ← atUnit sequence mappedStart
  return state.setStage (.textResolveEnd sourceStart sourceEnd mappedEnd fact.boundary
    fact.markerOrdinal)

/-- The stage `TextResolveEnd`: no marker lies between the two ends. -/
def resolveEnd (sourceEnd : Boundary) (mappedEnd : ℕ) (startBoundary : Boundary)
    (startMarkerOrdinal : ℕ) : Prepared BuildState := do
  let sequence ← loadWorkingRoots state.workingRoots
  let fact ← atUnit sequence mappedEnd
  ensure (¬ (fact.markerOrdinal ≠ startMarkerOrdinal ∨ fact.boundary < startBoundary))
    (.rejected .overlap)
  return state.moved (.removing ordinal sourceEnd.rank sourceEnd.rank 0 sourceEnd startBoundary
    fact.boundary) .idle

/-! ## Splices -/

/-- The leaf the last slice of a range lies in. -/
def deletionRank (stop : Boundary) : Prepared ℕ :=
  if 0 < stop.inner then .ok stop.rank else checkedSub .invalidRoot stop.rank 1

/-- `deletion_proof`: the last slice of a range of text. -/
def deletionProof (sequence : WorkingSequence) (start stop : Boundary) : Prepared Splice := do
  ensure (start < stop) .invalidRoot
  let rank ← deletionRank stop
  let localStart := if rank = start.rank then start.inner else 0
  let fact ← atBoundary sequence ⟨rank, 0⟩
  match ← required .invalidRoot fact.leaf with
  | .marker _ => .error .invalidRoot
  | .text text =>
    let localEnd := if 0 < stop.inner then stop.inner else text.length
    ensure (localStart < localEnd ∧ localEnd ≤ text.length ∧ isCharBoundary text localStart = true
      ∧ isCharBoundary text localEnd = true) .invalidRoot
    return ⟨.textDelete, fact.unit + localStart, localEnd - localStart, 0⟩

/-- The stage `TextDeleteProof`, with `begin_delete`. -/
def proveDelete : Prepared BuildState :=
  match state.frontier with
  | .applying _ _ successorStart successorEnd => do
    let sequence ← loadWorkingRoots state.workingRoots
    let splice ← deletionProof sequence successorStart successorEnd
    return state.setStage (.deleteMap splice state.mapping.currentMap (splice.a + splice.removed))
  | _ => .error .invalidRoot

/-- The stage `TextInsertProof`. -/
def proveInsert : Prepared BuildState :=
  match state.frontier with
  | .inserting _ nextPiece nextByte _ successorEnd => do
    let sequence ← loadWorkingRoots state.workingRoots
    let fact ← atBoundary sequence successorEnd
    let (_, chunk) ← insertionChunk fragment nextPiece nextByte
    return state.setStage (.insertMap ⟨.textInsert, fact.unit, 0, chunk.length⟩)
  | _ => .error .invalidRoot

/-- The end of `apply_ready`: the edited sequence becomes the working one together with its map. -/
def installEdit (target : MapRoot) (sequence : WorkingSequence) (frontier : Frontier)
    (stage : Stage) : Prepared BuildState := do
  let roots ← buildRoots state.workingRoots sequence
  ensure (sequenceExtent sequence = target.measure.target) .invalidRoot
  return { state with
    workingRoots := roots
    frontier := frontier
    mapping := { state.mapping with currentMap := target, stage := stage } }

/-- `apply_ready`, of a deletion. -/
def applyDelete (splice : Splice) (target : MapRoot)
    (baseEnd successorStart successorEnd : Boundary) : Prepared BuildState := do
  let sequence ← loadWorkingRoots state.workingRoots
  let tree ← required .invalidRoot sequence
  let (sequence, start, stop) ← removeTextSlice (some (some splice)) tree.2 successorStart
    successorEnd
  installEdit state target sequence (.applying ordinal baseEnd start stop)
    (if start ≠ stop then .textDeleteProof else .idle)

/-- Where the next chunk starts, in this piece or at the front of the next. -/
def nextChunk (piece : DraftPiece) (nextPiece stop : ℕ) : Prepared (ℕ × ℕ) :=
  if stop = piece.bytes.length then do
    let nextPiece ← checkedAdd .invalidRoot nextPiece 1
    return (nextPiece, 0)
  else .ok (nextPiece, stop)

/-- `apply_ready`, of an insertion. -/
def applyInsert (splice : Splice) (target : MapRoot) (nextPiece nextByte : ℕ)
    (baseEnd successorEnd : Boundary) : Prepared BuildState := do
  let sequence ← loadWorkingRoots state.workingRoots
  let (stop, chunk) ← insertionChunk fragment nextPiece nextByte
  ensure (splice.removed = 0 ∧ splice.inserted = chunk.length) .invalidRoot
  let root ← insertSequenceLeaf (some (some splice)) sequence successorEnd
    (newSequenceLeaf (.text chunk))
  let rank ← checkedAdd .invalidRoot successorEnd.rank (if successorEnd.inner ≠ 0 then 1 else 0)
  let rank ← checkedAdd .invalidRoot rank 1
  let piece ← required .invalidRoot fragment.inserted[nextPiece]?
  let next ← nextChunk piece nextPiece stop
  installEdit state target (some root) (.inserting ordinal next.1 next.2 baseEnd ⟨rank, 0⟩) .idle

/-- `apply_ready`. -/
def applyReady (splice : Splice) (target : MapRoot) : Prepared BuildState :=
  match splice.kind, state.frontier with
  | .textDelete, .applying ordinal baseEnd successorStart successorEnd =>
    applyDelete state ordinal splice target baseEnd successorStart successorEnd
  | .textInsert, .inserting ordinal nextPiece nextByte baseEnd successorEnd =>
    applyInsert state ordinal fragment splice target nextPiece nextByte baseEnd successorEnd
  | _, _ => .error .invalidRoot

/-- `publish`. -/
def publish (successorBoundary : Boundary) : Prepared BuildState :=
  match state.frontier with
  | .inserting _ nextPiece nextByte baseEnd _ => do
    ensure (nextPiece = fragment.inserted.length ∧ nextByte = 0) .invalidRoot
    let next ← checkedAdd .invalidRoot ordinal 1
    let completed ← required .invalidRoot state.mapping.fragmentSourceEndUnit
    return { state with
      baseFrontier := baseEnd
      successorFrontier := successorBoundary
      frontier := if ordinal < build.fragments.length then .planning next else .crossValidating
      mapping := { state.mapping with
        completedSourceUnit := completed
        fragmentSourceEndUnit := none
        stage := .idle } }
  | _ => .error .invalidRoot

/-- `text::advance`, at a fragment. -/
def advanceText : Prepared BuildState :=
  match state.mapping.stage with
  | .idle => advanceIdle build state ordinal fragment
  | .textSourceStart proof => proveSourceStart build state fragment proof
  | .textSourceEnd start proof => proveSourceEnd build state ordinal fragment start proof
  | .textPreviousStart start stop proof => provePreviousStart build state ordinal start stop proof
  | .textPreviousEnd start stop previousStart proof =>
    provePreviousEnd build state ordinal start stop previousStart proof
  | .textMapStart start stop => mapStart state start stop
  | .textMapEnd sourceStart sourceEnd mappedStart => mapEnd state sourceStart sourceEnd mappedStart
  | .textResolveStart sourceStart sourceEnd mappedStart mappedEnd =>
    resolveStart state sourceStart sourceEnd mappedStart mappedEnd
  | .textResolveEnd _ sourceEnd mappedEnd startBoundary startMarkerOrdinal =>
    resolveEnd state ordinal sourceEnd mappedEnd startBoundary startMarkerOrdinal
  | .textDeleteProof => proveDelete state
  | .textInsertProof => proveInsert state fragment
  | .ready splice target => applyReady state fragment splice target
  | .publishReady successorBoundary _ => publish build state ordinal fragment successorBoundary
  | _ => .error .invalidRoot

/-- `text::advance`, at the frontier `CrossValidating`. -/
def crossValidate : Prepared BuildState := do
  ensure (state.mapping.fragmentSourceEndUnit = none) .invalidRoot
  let sequence ← loadWorkingRoots state.workingRoots
  let _ ← resolvePositionIn sequence build.caret
  let _ ← resolvePositionIn sequence build.selection
  let roots ← buildRoots state.workingRoots sequence
  return { state with workingRoots := roots, frontier := .complete, successor := some roots }

end

/-! ## Steps and runs -/

/-- The fragment at the frontier; `CrossValidating` has none, and a complete build takes no step. -/
def Frontier.ordinal : Frontier → Prepared (Option ℕ)
  | planning k | removing k _ _ _ _ _ _ | applying k _ _ _ | inserting k _ _ _ _ => .ok (some k)
  | crossValidating => .ok none
  | complete => .error .invalidRoot

/-- The fragment of an ordinal, validated again. -/
def selectFragment (build : Build) (ordinal : ℕ) : Prepared DraftPieceReplacement := do
  ensure (ordinal ≠ 0) .invalidRoot
  let fragment ← required .invalidRoot build.fragments[ordinal - 1]?
  let _ ← (validateFragment fragment).mapError fun _ => .invalidRoot
  return fragment

/-- `mapping_program::advance`: **one quantum of a text build.** -/
def advance (build : Build) (state : BuildState) : Prepared BuildState := do
  match ← state.frontier.ordinal with
  | some ordinal =>
    let fragment ← selectFragment build ordinal
    match ← advanceMapStep state with
    | some stage => return state.setStage stage
    | none => advanceText build state ordinal fragment
  | none =>
    match ← advanceMapStep state with
    | some stage => return state.setStage stage
    | none =>
      match state.mapping.stage with
      | .idle => crossValidate build state
      | _ => .error .invalidRoot

/-- `DraftPieceBuildMappingV1::initial`. -/
def initialMap (units : ℕ) : MapRoot := if units = 0 then .empty else .identity units

/-- The state a build starts in. -/
def Build.initial (build : Build) : BuildState where
  workingRoots := build.predecessor
  baseFrontier := ⟨0, 0⟩
  successorFrontier := ⟨0, 0⟩
  frontier := .planning 1
  mapping := ⟨initialMap (sequenceExtent build.predecessor.sequence), 0, none, .idle⟩
  successor := none

/-- **The states a build can reach**, quantum by quantum. -/
inductive Reachable (build : Build) : BuildState → Prop
  | initial : Reachable build build.initial
  | step {state next : BuildState} (hreach : Reachable build state)
      (hstep : advance build state = .ok next) : Reachable build next

/-- The state after a number of quanta, if all of them succeed. -/
def Build.after (build : Build) : ℕ → Prepared BuildState
  | 0 => .ok build.initial
  | quanta + 1 => build.after quanta >>= advance build

theorem reachable_after {build : Build} : ∀ {quanta : ℕ} {state : BuildState},
    build.after quanta = .ok state → Reachable build state
  | 0, _, h => Except.ok.inj h ▸ .initial
  | _ + 1, _, h => by
    obtain ⟨previous, hprevious, hstep⟩ := bind_eq_ok.mp h
    exact .step (reachable_after hprevious) hstep

end Beryl.Draft
