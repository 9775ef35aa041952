import Beryl.Draft.Build.Ledger

/-!
# Draft/Build/Stages — what holds at every stage of a build

`OnCourse build state` is the invariant of a text build.  At every frontier the ledger holds the
edits of the fragments that are done, and of the one at hand as much as is performed: while a range
is removed from its end, the last edit removes what is gone of it; while a fragment is written, the
last edit inserts what is written of it.  The stage adds what the coordinate work has found out so
far.
-/

namespace Beryl.Draft

open Replace

/-! ## Fragments as edits -/

/-- The document a build starts from. -/
def Build.document (build : Build) : List DraftUnit := unitsOf build.predecessor.leaves

/-- **The range of a fragment**, in units of the predecessor.  A continuation writes on at the end
of the range of the fragment before it. -/
structure RangeOf (leaves : Leaves) (fragment : DraftPieceReplacement) (s e : ℕ) : Prop where
  start : if fragment.isContinuation then s = e else ∃ b, StandsAt leaves fragment.start b s
  stop : ∃ b, StandsAt leaves fragment.stop b e

/-- **The edit of a fragment.** -/
structure EditOf (leaves : Leaves) (fragment : DraftPieceReplacement)
    (edit : Edit DraftUnit) : Prop where
  range : RangeOf leaves fragment edit.start edit.stop
  inserted : edit.inserted = fragment.payload.map .byte

/-- The document is in order whenever the range of an edit is gone and nothing written yet. -/
def Kept (document : List DraftUnit) (edits : Edits) : Prop :=
  ∀ before edit after, edits = before ++ edit :: after →
    Ordered (replaceAll document (before ++ [⟨edit.start, edit.stop, []⟩]))

theorem kept_nil (document : List DraftUnit) : Kept document [] := by
  intro before edit after h
  simp at h

theorem Kept.concat {document : List DraftUnit} {edits : Edits}
    {edit : Edit DraftUnit} (h : Kept document edits)
    (hlast : Ordered (replaceAll document (edits ++ [⟨edit.start, edit.stop, []⟩]))) :
    Kept document (edits ++ [edit]) := by
  intro before e after hsplit
  rcases List.eq_nil_or_concat after with rfl | ⟨after, last, rfl⟩
  · obtain ⟨rfl, rfl⟩ : edits = before ∧ edit = e := by simpa using List.append_inj' hsplit rfl
    exact hlast
  · refine h before e after ?_
    have : edits ++ [edit] = (before ++ e :: after) ++ [last] := by simpa using hsplit
    exact (List.append_inj' this rfl).1

/-- What is written of a fragment in front of a piece and a byte of it. -/
def DraftPieceReplacement.typed (fragment : DraftPieceReplacement) (piece byte : ℕ) : Utf8 :=
  (fragment.inserted.take piece).flatMap DraftPiece.bytes
    ++ ((fragment.inserted[piece]?).elim [] DraftPiece.bytes).take byte

theorem exists_last_of_forall₂ {α β : Type} {R : α → β → Prop} {a : α} : ∀ {as} {bs},
    List.Forall₂ R (as ++ [a]) bs → ∃ before last, bs = before ++ [last]
      ∧ List.Forall₂ R as before ∧ R a last
  | [], _, .cons h .nil => ⟨[], _, rfl, .nil, h⟩
  | _ :: _, _, .cons h hs => by
    obtain ⟨before, last, rfl, hbefore, hlast⟩ := exists_last_of_forall₂ hs
    exact ⟨_ :: before, last, rfl, .cons h hbefore, hlast⟩

/-! ## The invariant -/

/-- The fragment at hand, and the edits of those before it. -/
structure Task (build : Build) (k : ℕ) (fragment : DraftPieceReplacement)
    (edits : Edits) : Prop where
  positive : 1 ≤ k
  fragment : build.fragments[k - 1]? = some fragment
  performed : List.Forall₂ (EditOf build.predecessor.leaves) (build.fragments.take (k - 1)) edits
  kept : Kept build.document edits

section

variable (build : Build) (state : BuildState) (k : ℕ) (fragment : DraftPieceReplacement)
  (edits : Edits)

/-- The place in the draft of a unit behind the cursor. -/
def draftUnit (u : ℕ) : ℕ := written build.document edits + (u - cursorAfter 0 edits)

/-- The ends of a fresh range have been found. -/
structure Found (sourceEnd : Option ℕ) (start stop : SourceFact) : Prop where
  fresh : fragment.isContinuation = false
  standsStart : StandsAt build.predecessor.leaves fragment.start start.boundary start.unit
  standsStop : StandsAt build.predecessor.leaves fragment.stop stop.boundary stop.unit
  cursor_le : cursorAfter 0 edits ≤ start.unit
  le : start.unit ≤ stop.unit
  sourceEnd : sourceEnd = some stop.unit

/-- A fragment is planned. -/
structure Planning : Prop where
  frontier : state.frontier = .planning k
  task : Task build k fragment edits
  ledger : Ledger build.document edits state.workingRoots state.mapping.currentMap
  completed : state.mapping.completedSourceUnit = cursorAfter 0 edits
  place : PlacedAt state.workingRoots.leaves state.successorFrontier (written build.document edits)

/-- The previous fragment is at hand, since the range may repeat it. -/
def Repeats (start stop : SourceFact) (previous : DraftPieceReplacement) : Prop :=
  2 ≤ k ∧ build.fragments[k - 2]? = some previous ∧ start.unit = stop.unit
    ∧ start.unit = cursorAfter 0 edits

/-- What the coordinate work of a planned fragment has found. -/
def PlanningStage : Stage → Prop
  | .idle => state.mapping.fragmentSourceEndUnit = none
  | .textSourceStart proof => fragment.isContinuation = false
    ∧ ProofFor build.predecessor.sequence fragment.start proof
  | .textSourceEnd start proof => fragment.isContinuation = false
    ∧ StandsAt build.predecessor.leaves fragment.start start.boundary start.unit
    ∧ ProofFor build.predecessor.sequence fragment.stop proof
  | .textPreviousStart start stop proof =>
    Found build fragment edits state.mapping.fragmentSourceEndUnit start stop
    ∧ ∃ previous, Repeats build k edits start stop previous
      ∧ ProofFor build.predecessor.sequence previous.start proof
  | .textPreviousEnd start stop previousStart proof =>
    Found build fragment edits state.mapping.fragmentSourceEndUnit start stop
    ∧ ∃ previous, Repeats build k edits start stop previous
      ∧ (∃ u, StandsAt build.predecessor.leaves previous.start previousStart u)
      ∧ ProofFor build.predecessor.sequence previous.stop proof
  | .textMapStart start stop =>
      Found build fragment edits state.mapping.fragmentSourceEndUnit start stop
  | .textMapEnd sourceStart sourceEnd mappedStart => ∃ s e,
    Found build fragment edits state.mapping.fragmentSourceEndUnit ⟨sourceStart, s⟩ ⟨sourceEnd, e⟩
      ∧ mappedStart = draftUnit build edits s
  | .textResolveStart sourceStart sourceEnd mappedStart mappedEnd => ∃ s e,
    Found build fragment edits state.mapping.fragmentSourceEndUnit ⟨sourceStart, s⟩ ⟨sourceEnd, e⟩
      ∧ mappedStart = draftUnit build edits s ∧ mappedEnd = draftUnit build edits e
  | .textResolveEnd sourceStart sourceEnd mappedEnd startBoundary startMarkerOrdinal => ∃ s e,
    Found build fragment edits state.mapping.fragmentSourceEndUnit ⟨sourceStart, s⟩ ⟨sourceEnd, e⟩
      ∧ mappedEnd = draftUnit build edits e
      ∧ PlacedAt state.workingRoots.leaves startBoundary (draftUnit build edits s)
      ∧ startMarkerOrdinal = markerTotal (state.workingRoots.leaves.take startBoundary.rank)
  | _ => False

/-- The range of a fresh fragment, in the predecessor and in the draft, holds text only. -/
structure Ranged (leaves : Leaves) (sourceEnd : Option ℕ) (s m e : ℕ)
    (successorStart successorEnd : Boundary) : Prop where
  task : Task build k fragment edits
  fresh : fragment.isContinuation = false
  range : RangeOf build.predecessor.leaves fragment s e
  cursor_le : cursorAfter 0 edits ≤ s
  start_le : s ≤ m
  le_stop : m ≤ e
  bytes : ∀ i, s ≤ i → i < e → ∃ b, build.document[i]? = some (.byte b)
  sourceEnd : sourceEnd = some e
  placeStart : PlacedAt leaves successorStart (draftUnit build edits s)
  placeEnd : PlacedAt leaves successorEnd (draftUnit build edits m)

/-- What the removal of a range has prepared: the last slice, and the map without it. -/
def ApplyingStage (s m : ℕ) (successorStart successorEnd : Boundary) : Stage → Prop
  | .idle => True
  | .textDeleteProof => s < m
  | .deleteMap splice target remainingEnd =>
    SliceAt state.workingRoots.leaves successorStart successorEnd (draftUnit build edits s)
        (draftUnit build edits m) splice
      ∧ splice.a < remainingEnd ∧ remainingEnd ≤ splice.a + splice.removed ∧ target.Sound
      ∧ RunsEdited state.mapping.currentMap.runs target.runs
        (cutOut remainingEnd (splice.a + splice.removed))
  | .mapComplete splice target | .ready splice target =>
    SliceAt state.workingRoots.leaves successorStart successorEnd (draftUnit build edits s)
        (draftUnit build edits m) splice ∧ target.Sound
      ∧ RunsEdited state.mapping.currentMap.runs target.runs
        (cutOut splice.a (splice.a + splice.removed))
  | _ => False

/-- A fragment is written, up to a byte of a piece. -/
structure Inserting (s e piece byte : ℕ) (baseEnd successorEnd : Boundary) : Prop where
  frontier : state.frontier = .inserting k piece byte baseEnd successorEnd
  task : Task build k fragment edits
  range : RangeOf build.predecessor.leaves fragment s e
  sourceEnd : state.mapping.fragmentSourceEndUnit = some e
  ordered : Ordered (replaceAll build.document (edits ++ [⟨s, e, []⟩]))
  ledger : Ledger build.document (edits ++ [⟨s, e, (fragment.typed piece byte).map .byte⟩])
    state.workingRoots state.mapping.currentMap
  place : PlacedAt state.workingRoots.leaves successorEnd
    (written build.document (edits ++ [⟨s, e, (fragment.typed piece byte).map .byte⟩]))
  piece_le : piece ≤ fragment.inserted.length
  byte_lt : byte = 0 ∨ ∃ text, fragment.inserted[piece]? = some (.text text)
    ∧ byte < text.bytes.length ∧ isCharBoundary text.bytes byte = true

/-- The splice of the next chunk of a fragment. -/
def ChunkAt (at' piece byte : ℕ) (splice : Splice) : Prop :=
  ∃ stop chunk, insertionChunk fragment piece byte = .ok (stop, chunk)
    ∧ splice = ⟨.textInsert, at', 0, chunk.length⟩

/-- What the writing of a chunk, or the end of a fragment, has prepared. -/
def InsertingStage (at' piece byte : ℕ) : Stage → Prop
  | .idle => True
  | .textInsertProof => piece < fragment.inserted.length
  | .insertMap splice => ChunkAt fragment at' piece byte splice
  | .mapComplete splice target | .ready splice target => ChunkAt fragment at' piece byte splice
    ∧ target.Sound ∧ RunsEdited state.mapping.currentMap.runs target.runs
      (insertTags splice.a splice.inserted)
  | .refreshMap => piece = fragment.inserted.length ∧ byte = 0
  | .refreshSequence mappedUnit => piece = fragment.inserted.length ∧ byte = 0 ∧ mappedUnit = at'
  | .publishReady successorBoundary _ => piece = fragment.inserted.length ∧ byte = 0
    ∧ PlacedAt state.workingRoots.leaves successorBoundary at'
  | _ => False

/-- All fragments are done. -/
structure Done : Prop where
  performed : List.Forall₂ (EditOf build.predecessor.leaves) build.fragments edits
  kept : Kept build.document edits
  ledger : Ledger build.document edits state.workingRoots state.mapping.currentMap
  idle : state.mapping.stage = .idle
  sourceEnd : state.mapping.fragmentSourceEndUnit = none

end

/-- **The invariant of a text build.** -/
inductive OnCourse (build : Build) (state : BuildState) : Prop
  | planning {k : ℕ} {fragment : DraftPieceReplacement} {edits : Edits}
      (hplan : Planning build state k fragment edits)
      (hstage : PlanningStage build state k fragment edits state.mapping.stage)
  | removing {k s e : ℕ} {fragment : DraftPieceReplacement} {edits : Edits}
      {baseEnd start stop : Boundary}
      (hfrontier : state.frontier = .removing k baseEnd.rank baseEnd.rank 0 baseEnd start stop)
      (hledger : Ledger build.document edits state.workingRoots state.mapping.currentMap)
      (hrange : Ranged build k fragment edits state.workingRoots.leaves
        state.mapping.fragmentSourceEndUnit s e e start stop)
      (hstage : state.mapping.stage = .idle)
  | applying {k s m e : ℕ} {fragment : DraftPieceReplacement} {edits : Edits}
      {baseEnd start stop : Boundary}
      (hfrontier : state.frontier = .applying k baseEnd start stop)
      (hledger : Ledger build.document (edits ++ [⟨m, e, []⟩]) state.workingRoots
        state.mapping.currentMap)
      (hrange : Ranged build k fragment edits state.workingRoots.leaves
        state.mapping.fragmentSourceEndUnit s m e start stop)
      (hidle : state.mapping.stage = .idle → m = e ∨ m = s)
      (hstage : ApplyingStage build state edits s m start stop state.mapping.stage)
  | inserting {k s e piece byte : ℕ} {fragment : DraftPieceReplacement}
      {edits : Edits} {baseEnd stop : Boundary}
      (hinsert : Inserting build state k fragment edits s e piece byte baseEnd stop)
      (hstage : InsertingStage state fragment
        (written build.document (edits ++ [⟨s, e, (fragment.typed piece byte).map .byte⟩]))
        piece byte state.mapping.stage)
  | crossValidating {edits : Edits} (hfrontier : state.frontier = .crossValidating)
      (hdone : Done build state edits)
  | complete {edits : Edits} (hfrontier : state.frontier = .complete)
      (hdone : Done build state edits) (hsuccessor : state.successor = some state.workingRoots)

end Beryl.Draft
