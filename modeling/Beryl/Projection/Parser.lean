import Beryl.Machinery.Emission
import Beryl.Projection.Syntax

/-!
# Projection/Parser — the resumable Markdown parser

A build reads its source piece by piece.  Between pieces it keeps a checkpoint: how far it read and
closed, the unfinished line it carries, and the block that is open.  `advance` takes one loaded
piece from a checkpoint to the next and emits the projections that became certain on the way.

Byte positions and counts are natural numbers: the checked sums of the source fail only beyond the
`u64` that counts the bytes of every source.  The running content digest of a resource is a
parameter, known only by its seed and how a stretch of text advances it.
-/

namespace Beryl.Projection

open Text Emission Fallible String

/-! ## Limits -/

/-- The most bytes of a paragraph in one span. -/
def markdownParagraphInlineMaxBytes : ℕ := 16384
/-- The most bytes of a span of a longer one. -/
def markdownSpanMaxBytes : ℕ := 8192
/-- The most bytes of a code preview… -/
def markdownCodePreviewMaxBytes : ℕ := 2048
/-- …and its most lines. -/
def markdownCodePreviewMaxLines : ℕ := 8
/-- The most bytes of an inline table… -/
def markdownTableInlineMaxBytes : ℕ := 8192
/-- …its most rows… -/
def markdownTableInlineMaxBodyRows : ℕ := 32
/-- …and its most columns. -/
def markdownTableInlineMaxColumns : ℕ := 12
/-- The most bytes of a table preview… -/
def markdownTablePreviewMaxBytes : ℕ := 4096
/-- …and its most rows. -/
def markdownTablePreviewMaxBodyRows : ℕ := 4
/-- The outputs at which a step stops. -/
def maxStepOutputs : ℕ := 64

/-! ## Errors and records -/

/-- Why a record does not hold a value. -/
inductive SyndicRecordError
  | empty (kind : String)
  | bytesTooLong (kind : String) (maximum actual : ℕ)
  | nulByte (kind : String) (index : ℕ)
  | invalidByteRange (kind : String) (start stop : ℕ)
  | zeroValue (kind : String)
  | invalidProjectionResourceKind
  | invalidResourcePreviewRange (resourceBytes previewStart previewEnd : ℕ)
  | invalidResourceStructure
deriving DecidableEq

/-- Why a projection step fails. -/
inductive SyndicMutationError
  | projectionBuildConflict
  | record (error : SyndicRecordError)
deriving DecidableEq

/-- The check every stored text passes. -/
def validateText (kind : String) (value : Chars) (maximum : ℕ) (allowEmpty : Bool) :
    Except SyndicRecordError Chars :=
  if !allowEmpty && value.isEmpty then .error (.empty kind)
  else if maximum < utf8Len value then .error (.bytesTooLong kind maximum (utf8Len value))
  else if '\x00' ∈ value then
    .error (.nulByte kind (utf8Len (value.takeWhile (· != '\x00'))))
  else .ok value

/-- A half-open byte range of the source, its ends in order. -/
structure ProjectionSourceRange where
  start : ℕ
  stop : ℕ
  ordered : start ≤ stop
deriving DecidableEq

/-- A range whose ends are in order. -/
def ProjectionSourceRange.new (start stop : ℕ) : Except SyndicRecordError ProjectionSourceRange :=
  if h : start ≤ stop then .ok ⟨start, stop, h⟩
  else .error (.invalidByteRange "projection source range" start stop)

/-- The bytes of a range. -/
def ProjectionSourceRange.len (range : ProjectionSourceRange) : ℕ := range.stop - range.start

/-- What a resource is. -/
inductive ResourceKind
  | code | table
deriving DecidableEq

/-- What is known of a resource without its bytes. -/
inductive ResourceStructure
  | code (language : Option Chars) (logicalLines : ℕ)
  | table (bodyRows columns : ℕ) (headerRange : ProjectionSourceRange)
deriving DecidableEq

/-- A code, its language checked. -/
def ResourceStructure.newCode (language : Option Chars) (logicalLines : ℕ) :
    Except SyndicRecordError ResourceStructure :=
  match language with
  | none => .ok (.code none logicalLines)
  | some value => do
    let value ← validateText "code language" value languageMaxBytes false
    return .code (some value) logicalLines

/-- A table with a column. -/
def ResourceStructure.newTable (bodyRows columns : ℕ) (headerRange : ProjectionSourceRange) :
    Except SyndicRecordError ResourceStructure :=
  if columns = 0 then .error (.zeroValue "table column count")
  else .ok (.table bodyRows columns headerRange)

/-- A running digest of a resource's content. -/
class ResourceDigest (D : Type) where
  /-- `resource_content_digest_seed` -/
  seed : ResourceKind → D
  /-- `advance_resource_content_digest` -/
  advance : D → Chars → D

/-- The digest that forgets nothing: every stretch it was advanced by, newest first. -/
instance : ResourceDigest (ResourceKind × Lines) where
  seed kind := (kind, [])
  advance digest stretch := (digest.1, stretch :: digest.2)

/-! ## Checkpoints -/

/-- Where in its source a build stands. -/
inductive ProjectionTextSourceCursor
  | composer (ordinal : ℕ)
  | providerNarrative (logicalStart : ℕ)
deriving DecidableEq

/-- The start of the source. -/
def ProjectionTextSourceCursor.isInitial : ProjectionTextSourceCursor → Bool
  | .composer ordinal => ordinal == 1
  | .providerNarrative logicalStart => logicalStart == 0

/-- The two kinds of open block that buffer text and emit it in spans. -/
inductive SpanKind
  | paragraph | fallback
deriving DecidableEq

/-- The kind of block it becomes. -/
def SpanKind.blockKind : SpanKind → MarkdownBlockKind
  | .paragraph => .paragraph
  | .fallback => .fallback

/-- A block that is not closed yet.  `Paragraph` and `Fallback` of the source hold the same fields
and share the first constructor. -/
inductive MarkdownOpenBlock (D : Type)
  | span (kind : SpanKind) (blockStart nextSpanOrdinal : ℕ) (bufferedSource : Chars)
  | fencedCode (blockStart bodyStart : ℕ) (fence : MarkdownFenceMarker)
      (language : Option Chars) (preview : Chars) (logicalLines bodyBytes : ℕ)
      (resourceDigest : D)
  | table (blockStart headerEnd columns bodyRows : ℕ) (preview : Chars) (sourceBytes : ℕ)
      (resourceDigest : D)
deriving DecidableEq

/-- How far the blocks of the source are closed, and which is open: all that the functions on blocks
read and write. -/
structure BlockFrontier (D : Type) where
  closed : ℕ
  openBlock : Option (MarkdownOpenBlock D)
deriving DecidableEq

/-- All a build keeps between two pieces. -/
structure MarkdownParserCheckpoint (D : Type) extends BlockFrontier D where
  consumed : ℕ
  sourceCursor : ProjectionTextSourceCursor
  lineStart : ℕ
  lineCarry : Chars
  lineContinuation : Bool
deriving DecidableEq

/-- The working copy of a checkpoint that a step changes. -/
abbrev ParserState := MarkdownParserCheckpoint

/-- The checkpoint of a build that has read nothing. -/
def MarkdownParserCheckpoint.initial {D : Type} (cursor : ProjectionTextSourceCursor) :
    MarkdownParserCheckpoint D where
  consumed := 0
  closed := 0
  sourceCursor := cursor
  lineStart := 0
  lineCarry := []
  lineContinuation := false
  openBlock := none

/-- An image marker of a composed message. -/
structure ImageMarkerPiece where
  atomOrdinal : ℕ
  markerOrdinal : ℕ
  logicalOffset : ℕ
  markerId : ℕ
  label : ℕ
deriving DecidableEq

/-- What a build loads to take its next step. -/
inductive LoadedPiece
  | text (logicalEnd : ℕ) (source : Chars) (nextCursor : ProjectionTextSourceCursor)
  | imageMarker (marker : ImageMarkerPiece)
  | done
deriving DecidableEq

/-- What a step emits. -/
inductive ParserOutput (D : Type)
  | inline (blockStart : ℕ) (kind : MarkdownBlockKind) (spanOrdinal : ℕ)
      (range : ProjectionSourceRange)
  | resource (blockStart : ℕ) (kind : MarkdownBlockKind) (range : ProjectionSourceRange)
      (preview : Chars) (structureOf : ResourceStructure) (digest : D)
  | imageMarker (atomOrdinal markerOrdinal sourceOffset markerId label : ℕ)
  | empty
deriving DecidableEq

/-- Outputs, in their order. -/
abbrev Outputs (D : Type) := List (ParserOutput D)

/-! ## Emitting -/

section

variable {D : Type}

/-- The outcome of a change to the blocks. -/
abbrev Step (D : Type) := Emits SyndicMutationError (BlockFrontier D) (ParserOutput D)

/-- Emits a span, unless it is empty. -/
def emitInline (state : BlockFrontier D) (blockStart : ℕ) (kind : MarkdownBlockKind)
    (spanOrdinal start stop : ℕ) : Except SyndicMutationError (BlockFrontier D × Outputs D) :=
  if start < stop then do
    let range ← (ProjectionSourceRange.new start stop).mapError .record
    emit { state with closed := stop } [.inline blockStart kind spanOrdinal range]
  else emit { state with closed := stop } []

/-- Emits a code. -/
def emitCode (state : BlockFrontier D) (blockStart bodyStart bodyEnd blockEnd : ℕ)
    (language : Option Chars) (preview : Chars) (logicalLines : ℕ) (resourceDigest : D) :
    Except SyndicMutationError (BlockFrontier D × Outputs D) := do
  let range ← (ProjectionSourceRange.new bodyStart bodyEnd).mapError .record
  let structureOf ← (ResourceStructure.newCode language logicalLines).mapError .record
  emit { state with closed := blockEnd }
    [.resource blockStart .fencedCode range preview structureOf resourceDigest]

/-- Emits a table, inline if it is small. -/
def emitTable (state : BlockFrontier D) (blockStart headerEnd blockEnd columns bodyRows : ℕ)
    (preview : Chars) (sourceBytes : ℕ) (resourceDigest : D) :
    Except SyndicMutationError (BlockFrontier D × Outputs D) :=
  if markdownTableInlineMaxBytes < sourceBytes ∨ markdownTableInlineMaxBodyRows < bodyRows
      ∨ markdownTableInlineMaxColumns < columns then do
    let range ← (ProjectionSourceRange.new blockStart blockEnd).mapError .record
    let headerRange ← (ProjectionSourceRange.new 0 (headerEnd - blockStart)).mapError .record
    let structureOf ← (ResourceStructure.newTable bodyRows columns headerRange).mapError .record
    emit { state with closed := blockEnd }
      [.resource blockStart .table range preview structureOf resourceDigest]
  else emitInline state blockStart .table 1 blockStart blockEnd

/-- Appends what still fits. -/
def appendPreview (preview source : Chars) (maximum : ℕ) : Chars :=
  if maximum ≤ utf8Len preview then preview
  else preview ++ takeBytes (utf8Prefix source (maximum - utf8Len preview)) source

/-! ## Open blocks -/

/-- Whether an open block's buffer has outgrown its next span. -/
def mustSplit (nextSpan : ℕ) (buffer : Chars) : Bool :=
  if nextSpan = 1 then decide (markdownParagraphInlineMaxBytes < utf8Len buffer)
  else decide (markdownSpanMaxBytes < utf8Len buffer)

/-- The loop of `flushOpenSpans`, which takes at least one character off the buffer in each turn. -/
def flushSpans : ℕ → BlockFrontier D → Step D
  | 0, state => emit state []
  | turns + 1, state =>
    match state.openBlock with
    | some (.span kind blockStart nextSpan buffer) =>
      if mustSplit nextSpan buffer then
        let split := utf8Prefix buffer markdownSpanMaxBytes
        andThen
          (emitInline state blockStart kind.blockKind nextSpan state.closed (state.closed + split))
          fun state => flushSpans turns
            { state with
              openBlock := some (.span kind blockStart (nextSpan + 1) (dropBytes split buffer)) }
      else emit state []
    | _ => emit state []

/-- Emits the spans that are outgrown. -/
def flushOpenSpans (state : BlockFrontier D) : Step D :=
  match state.openBlock with
  | some (.span _ _ _ buffer) => flushSpans buffer.length state
  | _ => emit state []

/-- Opens a fallback. -/
def appendFallback (state : BlockFrontier D) (start : ℕ) (source : Chars) : Step D :=
  flushOpenSpans { state with openBlock := some (.span .fallback start 1 source) }

/-- Goes on with a block of text. -/
def appendOpenText (state : BlockFrontier D) (source : Chars) : Step D :=
  match state.openBlock with
  | some (.span kind blockStart nextSpan buffer) =>
    flushOpenSpans
      { state with openBlock := some (.span kind blockStart nextSpan (buffer ++ source)) }
  | _ => .error .projectionBuildConflict

/-- Closes the open block. -/
def finishOpenBlock (state : BlockFrontier D) (boundary : ℕ) : Step D :=
  match state.openBlock with
  | none => emit { state with closed := boundary } []
  | some (.span kind blockStart nextSpan buffer) =>
    if buffer.isEmpty then emit { state with openBlock := none, closed := boundary } []
    else
      let start := if nextSpan = 1 then blockStart else state.closed
      emitInline { state with openBlock := none } blockStart kind.blockKind nextSpan start boundary
  | some (.fencedCode blockStart bodyStart _ language preview logicalLines _ resourceDigest) =>
    emitCode { state with openBlock := none } blockStart bodyStart boundary boundary language
      preview logicalLines resourceDigest
  | some (.table blockStart headerEnd columns bodyRows preview sourceBytes resourceDigest) =>
    emitTable { state with openBlock := none } blockStart headerEnd boundary columns bodyRows
      preview sourceBytes resourceDigest

end

/-! ## Lines -/

section

variable {D : Type} [ResourceDigest D]

/-- Starts a block with a line. -/
def startLineBlock (state : BlockFrontier D) (start stop : ℕ) (line : Chars) : Step D :=
  match openingFence line with
  | some (fence, language) =>
    emit { state with
      openBlock := some (.fencedCode start stop fence language [] 0 0 (ResourceDigest.seed .code)) }
      []
  | none =>
    match oneLineBlockKind line with
    | some kind => emitInline state start kind 1 start stop
    | none =>
      if isBlank line then appendFallback state start line
      else flushOpenSpans { state with openBlock := some (.span .paragraph start 1 line) }

/-- A block ends before the line, which then starts one of its own: the second turn of the loop in
`process_line`, where no block is open. -/
def reprocessLine (state : BlockFrontier D) (start : ℕ) (line : Chars) : Step D :=
  andThen (finishOpenBlock state start) fun state =>
    startLineBlock state start (start + utf8Len line) line

/-- Reads one line. -/
def processLine (state : BlockFrontier D) (start : ℕ) (line : Chars) (continuation : Bool) :
    Step D :=
  let stop := start + utf8Len line
  match state.openBlock with
  | some (.fencedCode blockStart bodyStart fence language preview logicalLines bodyBytes
      resourceDigest) =>
    if !continuation && isClosingFence line fence then
      emitCode { state with openBlock := none } blockStart bodyStart start stop language preview
        logicalLines resourceDigest
    else
      emit { state with
        openBlock := some (.fencedCode blockStart bodyStart fence language
          (if logicalLines < markdownCodePreviewMaxLines then
            appendPreview preview line markdownCodePreviewMaxBytes else preview)
          (if line.isEmpty then logicalLines else logicalLines + 1)
          (bodyBytes + utf8Len line) (ResourceDigest.advance resourceDigest line)) } []
  | some (.table blockStart headerEnd columns bodyRows preview sourceBytes resourceDigest) =>
    if continuation || isBlank line || !looksLikeTableRow line then reprocessLine state start line
    else
      emit { state with
        openBlock := some (.table blockStart headerEnd columns (bodyRows + 1)
          (if bodyRows < markdownTablePreviewMaxBodyRows then
            appendPreview preview line markdownTablePreviewMaxBytes else preview)
          (sourceBytes + utf8Len line) (ResourceDigest.advance resourceDigest line)) } []
  | some (.span .paragraph blockStart nextSpan buffer) =>
    match tableDelimiterColumns line with
    | some columns =>
      -- the delimiter row under a header of as many cells turns the paragraph into a table
      if !continuation && nextSpan == 1 && singleLogicalLine buffer
          && tableColumns buffer == some columns then
        emit { state with
          openBlock := some (.table blockStart (blockStart + utf8Len buffer) columns 0
            (appendPreview buffer line markdownTablePreviewMaxBytes) (stop - blockStart)
            (ResourceDigest.advance (ResourceDigest.advance (ResourceDigest.seed .table) buffer)
              line)) } []
      else continueParagraph state start line continuation
    | none => continueParagraph state start line continuation
  | some (.span .fallback _ _ _) =>
    if !continuation && !isBlank line then reprocessLine state start line
    else appendOpenText state line
  | none => startLineBlock state start stop line
where
  /-- The line does not turn the open paragraph into a table. -/
  continueParagraph (state : BlockFrontier D) (start : ℕ) (line : Chars)
      (continuation : Bool) : Step D :=
    if !continuation && startsDistinctBlock line then reprocessLine state start line
    else
      andThen (appendOpenText state line) fun state =>
        if isBlank line then finishOpenBlock state (start + utf8Len line) else emit state []

/-- Reads a fragment of a long line. -/
def processLongLineFragment (state : BlockFrontier D) (start : ℕ) (fragment : Chars) : Step D :=
  match state.openBlock with
  | some (.fencedCode blockStart bodyStart fence language preview logicalLines bodyBytes
      resourceDigest) =>
    emit { state with
      openBlock := some (.fencedCode blockStart bodyStart fence language
        (appendPreview preview fragment markdownCodePreviewMaxBytes) logicalLines
        (bodyBytes + utf8Len fragment) (ResourceDigest.advance resourceDigest fragment)) } []
  | some (.table ..) =>
    andThen (finishOpenBlock state start) fun state => appendFallback state start fragment
  | some (.span ..) => appendOpenText state fragment
  | none => appendFallback state start fragment

/-- The outcome of a part of a step. -/
abbrev Scan (D : Type) := Emits SyndicMutationError (ParserState D) (ParserOutput D)

/-- A change to the blocks, as a change to the whole state. -/
def onBlocks (state : ParserState D) (change : BlockFrontier D → Step D) : Scan D :=
  andThen (change state.toBlockFrontier) fun blocks =>
    emit { state with toBlockFrontier := blocks } []

/-- The loop of `spillLineCarry`, which takes at least one character off the carry in each turn. -/
def spillLines : ℕ → ParserState D → Scan D
  | 0, state => emit state []
  | turns + 1, state =>
    if markdownParagraphInlineMaxBytes < utf8Len state.lineCarry then
      let split := utf8Prefix state.lineCarry markdownSpanMaxBytes
      let fragment := takeBytes split state.lineCarry
      andThen (onBlocks state fun blocks => processLongLineFragment blocks state.lineStart fragment)
        fun state => spillLines turns
          { state with
            lineCarry := dropBytes split state.lineCarry
            lineStart := state.lineStart + split
            lineContinuation := true }
    else emit state []

/-- Hands on what the carry cannot hold. -/
def spillLineCarry (state : ParserState D) : Scan D := spillLines state.lineCarry.length state

/-- The carried line is complete. -/
def closeLine (state : ParserState D) (next : ℕ) : Scan D :=
  onBlocks { state with lineCarry := [], lineStart := next, lineContinuation := false }
    fun blocks => processLine blocks state.lineStart state.lineCarry state.lineContinuation

/-- One turn of `consume_text`: the source up to its next line feed. -/
def consumeSegment (state : ParserState D) (segment : Chars) : Scan D :=
  andThen
    (spillLineCarry
      { state with
        lineCarry := state.lineCarry ++ segment
        consumed := state.consumed + utf8Len segment })
    fun state =>
      if segment.getLast? = some '\n' then closeLine state state.consumed else emit state []

/-- The loop of `consume_text`, with the number of outputs so far: the state reached and the number
of bytes taken. -/
def consumeSegments : ℕ → ParserState D → Lines →
    Emits SyndicMutationError (ParserState D × ℕ) (ParserOutput D)
  | _, state, [] => emit (state, 0) []
  | emitted, state, segment :: rest =>
    if emitted < maxStepOutputs then
      (consumeSegment state segment).bind fun (state, outputs) =>
        andThen (behind outputs (consumeSegments (emitted + outputs.length) state rest))
          fun (state, taken) => emit (state, utf8Len segment + taken) []
    else emit (state, 0) []

/-- Reads a text up to the limit. -/
def consumeText (state : ParserState D) (source : Chars) :
    Emits SyndicMutationError (ParserState D × ℕ) (ParserOutput D) :=
  consumeSegments 0 state (segments source)

/-- Ends line and block. -/
def finishBoundary (state : ParserState D) (boundary : ℕ) : Scan D :=
  andThen (if state.lineCarry.isEmpty then emit state [] else closeLine state boundary)
    fun state => onBlocks state fun blocks => finishOpenBlock blocks boundary

/-- Emits an image marker. -/
def emitMarker (state : ParserState D) (marker : ImageMarkerPiece) : Scan D :=
  emit { state with closed := marker.logicalOffset, lineStart := marker.logicalOffset }
    [.imageMarker marker.atomOrdinal marker.markerOrdinal marker.logicalOffset marker.markerId
      marker.label]

/-! ## Steps -/

/-- What a step leaves: the next checkpoint, its outputs, and whether the source has ended. -/
structure ParserStep (D : Type) where
  checkpoint : MarkdownParserCheckpoint D
  outputs : Outputs D
  finished : Bool
deriving DecidableEq

/-- **One step of a build.** -/
def advance (checkpoint : MarkdownParserCheckpoint D) (piece : LoadedPiece) :
    Except SyndicMutationError (ParserStep D) :=
  match piece with
  | .text logicalEnd source nextCursor => do
    let ((state, taken), outputs) ← consumeText checkpoint source
    let state := if taken = utf8Len source then { state with sourceCursor := nextCursor } else state
    ensure (state.consumed ≤ logicalEnd) .projectionBuildConflict
    return ⟨state, outputs, false⟩
  | .imageMarker marker => do
    let (state, outputs) ← andThen (finishBoundary checkpoint checkpoint.consumed)
      fun state => emitMarker state marker
    match state.sourceCursor with
    | .composer ordinal =>
      return ⟨{ state with sourceCursor := .composer (ordinal + 1) }, outputs, false⟩
    | .providerNarrative _ => .error .projectionBuildConflict
  | .done => do
    let (state, outputs) ← finishBoundary checkpoint checkpoint.consumed
    if state.consumed = 0 ∧ state.sourceCursor.isInitial ∧ outputs = [] then
      return ⟨state, [.empty], true⟩
    else return ⟨state, outputs, true⟩

end

end Beryl.Projection
