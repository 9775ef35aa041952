import Beryl.Projection.Tracking

/-!
# Projection/Tally — how many outputs each line brings

The outputs that a line brings can be counted from the line and a little of the open block: its kind
and, of a block of text, what is held back of it.  **A line brings one output for the block that it
ends, one if it is a block of its own, and one for every span that a block of text has outgrown**
(`Shape.takeLine`).  The parser emits as many outputs as are counted (`consumeSegment_counts`), and
they are few for each line (`takeLine_few`).
-/

namespace Beryl.Projection

open Text Emission Fallible List
open String (utf8Len)

/-! ## Counting -/

/-- **The open block, as far as the number of outputs depends on it.** -/
inductive Shape
  /-- no block is open -/
  | clear
  /-- a block of text, with the number of its next span and the text held back for it -/
  | text (kind : SpanKind) (nextSpan : ℕ) (buffer : Chars)
  /-- lines of code, up to a fence -/
  | code (fence : MarkdownFenceMarker)
  | table
deriving DecidableEq

/-- The shape of the open block. -/
def Shape.of {D : Type} : Option (MarkdownOpenBlock D) → Shape
  | none => .clear
  | some (.span kind _ nextSpan buffer) => .text kind nextSpan buffer
  | some (.fencedCode _ _ fence _ _ _ _ _) => .code fence
  | some (.table ..) => .table

/-- A number of outputs, and the shape behind them. -/
abbrev Tally := ℕ × Shape

/-- A tally behind outputs that come before it. -/
def Tally.behind (outputs : ℕ) (tally : Tally) : Tally := (outputs + tally.1, tally.2)

namespace Shape

/-- The outputs that the end of a block brings. -/
def ending : Shape → ℕ
  | clear => 0
  | text .. | code _ | table => 1

/-- Spans are cut off a text that has outgrown its block, until the rest can be held back. -/
def cutSpans (kind : SpanKind) : ℕ → ℕ → Chars → Tally
  | 0, nextSpan, buffer => (0, text kind nextSpan buffer)
  | turns + 1, nextSpan, buffer =>
    if mustSplit nextSpan buffer then
      .behind 1 (cutSpans kind turns (nextSpan + 1) (dropBytes markdownSpanMaxBytes buffer))
    else (0, text kind nextSpan buffer)

/-- A block of text holds back what it can. -/
def hold (kind : SpanKind) (nextSpan : ℕ) (buffer : Chars) : Tally :=
  cutSpans kind buffer.length nextSpan buffer

/-- A line where no block is open: it opens a fence, is a block of its own, or starts a text. -/
def startLine (line : Chars) : Tally :=
  match openingFence line with
  | some (fence, _) => (0, code fence)
  | none =>
    if (oneLineBlockKind line).isSome then (1, clear)
    else hold (if isBlank line then .fallback else .paragraph) 1 line

/-- The line is the delimiter row under a header of as many cells. -/
def delimits (nextSpan : ℕ) (buffer line : Chars) : Bool :=
  nextSpan == 1 && singleLogicalLine buffer && (tableDelimiterColumns line).isSome
    && tableColumns buffer == tableDelimiterColumns line

/-- **What a line brings**, whole or the rest of a long one. -/
def takeLine (shape : Shape) (line : Chars) (continuation : Bool) : Tally :=
  match shape with
  | clear => startLine line
  | code fence =>
    if !continuation && isClosingFence line fence then (1, clear) else (0, code fence)
  | table =>
    if continuation || isBlank line || !looksLikeTableRow line then .behind 1 (startLine line)
    else (0, table)
  | text .fallback nextSpan buffer =>
    if !continuation && !isBlank line then .behind 1 (startLine line)
    else hold .fallback nextSpan (buffer ++ line)
  | text .paragraph nextSpan buffer =>
    if !continuation && delimits nextSpan buffer line then (0, table)
    else if !continuation && startsDistinctBlock line then .behind 1 (startLine line)
    else
      let held := hold .paragraph nextSpan (buffer ++ line)
      if isBlank line then (held.1 + 1, clear) else held

/-- What a fragment of a long line brings. -/
def takeFragment (shape : Shape) (fragment : Chars) : Tally :=
  match shape with
  | clear => hold .fallback 1 fragment
  | code fence => (0, code fence)
  | table => .behind 1 (hold .fallback 1 fragment)
  | text kind nextSpan buffer => hold kind nextSpan (buffer ++ fragment)

/-- What the fragments of a long line bring. -/
def takeFragments (shape : Shape) : Lines → Tally
  | [] => (0, shape)
  | fragment :: fragments =>
    .behind (shape.takeFragment fragment).1
      (takeFragments (shape.takeFragment fragment).2 fragments)

end Shape

/-- Where a source stands: the open block, and the line that is not finished. -/
structure Standing where
  shape : Shape
  carry : Chars
  continuation : Bool
deriving DecidableEq

namespace Standing

/-- Where a checkpoint stands. -/
def of {D : Type} (checkpoint : MarkdownParserCheckpoint D) : Standing :=
  ⟨.of checkpoint.openBlock, checkpoint.lineCarry, checkpoint.lineContinuation⟩

/-- **What the source up to its next line feed brings**, and where it then stands. -/
def read (standing : Standing) (segment : Chars) : ℕ × Standing :=
  let cut := spilled (standing.carry ++ segment)
  let spill := standing.shape.takeFragments cut.1
  let continuation := standing.continuation || !cut.1.isEmpty
  if endsLine segment then
    let line := spill.2.takeLine cut.2 continuation
    (spill.1 + line.1, ⟨line.2, [], false⟩)
  else (spill.1, ⟨spill.2, cut.2, continuation⟩)

end Standing

/-! ## Few outputs for each line -/

/-- The bytes that a span takes off a text at least. -/
def spanMinBytes : ℕ := 8189

/-- The outputs that a line can bring at most. -/
def lineOutputsMax : ℕ := 5

/-- A shape holds back no more than an inline span. -/
def Shape.Small : Shape → Prop
  | text _ _ buffer => utf8Len buffer ≤ markdownParagraphInlineMaxBytes
  | clear | code _ | table => True

section

variable {kind : SpanKind} {buffer line : Chars} {nextSpan : ℕ} {shape : Shape}

/-- **Every span that is cut off takes its bytes.** -/
theorem cutSpans_few {turns : ℕ} (hturns : buffer.length ≤ turns) :
    (Shape.cutSpans kind turns nextSpan buffer).1 * spanMinBytes ≤ utf8Len buffer
      ∧ (Shape.cutSpans kind turns nextSpan buffer).2.Small := by
  induction turns generalizing nextSpan buffer with
  | zero =>
    obtain rfl := length_eq_zero_iff.mp (Nat.le_zero.mp hturns)
    exact ⟨by simp [Shape.cutSpans], by simp [Shape.cutSpans, Shape.Small]⟩
  | succ turns ih =>
    rw [Shape.cutSpans]
    split
    · next hsplit =>
      have hlt := utf8Len_lt_of_mustSplit hsplit
      have hfull := le_utf8Len_takeBytes (le_of_lt hlt)
      have hadd := utf8Len_takeBytes_add markdownSpanMaxBytes buffer
      have hlen := congrArg List.length (takeBytes_append_dropBytes markdownSpanMaxBytes buffer)
      have hpos := length_pos_iff.mpr (cut_of_lt hlt).1
      rw [length_append] at hlen
      obtain ⟨hcount, hsmall⟩ := @ih (dropBytes markdownSpanMaxBytes buffer) (nextSpan + 1)
        (by omega)
      have hmin : spanMinBytes + 3 = markdownSpanMaxBytes := rfl
      refine ⟨?_, hsmall⟩
      rw [Tally.behind, Nat.add_mul, Nat.one_mul]
      omega
    · next hsplit =>
      exact ⟨by simp, utf8Len_le_of_not_mustSplit (Bool.eq_false_of_not_eq_true hsplit)⟩

theorem hold_few (hbuffer : utf8Len buffer ≤ 2 * markdownParagraphInlineMaxBytes) :
    (Shape.hold kind nextSpan buffer).1 ≤ 4 ∧ (Shape.hold kind nextSpan buffer).2.Small := by
  obtain ⟨hcount, hsmall⟩ := @cutSpans_few kind buffer nextSpan buffer.length le_rfl
  refine ⟨?_, hsmall⟩
  simp only [Shape.hold, spanMinBytes, markdownParagraphInlineMaxBytes] at *
  omega

variable (hline : utf8Len line ≤ markdownParagraphInlineMaxBytes)
include hline

theorem startLine_few : (Shape.startLine line).1 ≤ 4 ∧ (Shape.startLine line).2.Small := by
  rw [Shape.startLine]
  split
  · exact ⟨Nat.zero_le _, trivial⟩
  · split
    · exact ⟨by decide, trivial⟩
    · exact hold_few (by omega)

/-- **A line brings a handful of outputs.** -/
theorem takeLine_few (hsmall : shape.Small) (continuation : Bool) :
    (shape.takeLine line continuation).1 ≤ lineOutputsMax
      ∧ (shape.takeLine line continuation).2.Small := by
  have hstart := startLine_few hline
  have hrestart : (Tally.behind 1 (Shape.startLine line)).1 ≤ lineOutputsMax
      ∧ (Tally.behind 1 (Shape.startLine line)).2.Small :=
    ⟨by rw [Tally.behind, lineOutputsMax]; omega, hstart.2⟩
  cases shape with
  | clear => exact ⟨hstart.1.trans (by decide), hstart.2⟩
  | code fence =>
    rw [Shape.takeLine]
    split
    · exact ⟨by decide, trivial⟩
    · exact ⟨Nat.zero_le _, trivial⟩
  | table =>
    rw [Shape.takeLine]
    split
    · exact hrestart
    · exact ⟨Nat.zero_le _, trivial⟩
  | text kind nextSpan buffer =>
    have hheld := fun kind => @hold_few kind (buffer ++ line) nextSpan (by
      rw [String.utf8Len_append]
      simp only [Shape.Small] at hsmall
      omega)
    cases kind with
    | fallback =>
      rw [Shape.takeLine]
      split
      · exact hrestart
      · exact ⟨(hheld .fallback).1.trans (by decide), (hheld .fallback).2⟩
    | paragraph =>
      rw [Shape.takeLine]
      split
      · exact ⟨Nat.zero_le _, trivial⟩
      · split
        · exact hrestart
        · dsimp only
          split
          · exact ⟨Nat.succ_le_succ (hheld .paragraph).1, trivial⟩
          · exact ⟨(hheld .paragraph).1.trans (by decide), (hheld .paragraph).2⟩

theorem takeFragment_small (hsmall : shape.Small) : (shape.takeFragment line).2.Small := by
  cases shape with
  | clear | table => exact (hold_few (by omega)).2
  | code fence => exact trivial
  | text kind nextSpan buffer =>
    refine (hold_few ?_).2
    rw [String.utf8Len_append]
    simp only [Shape.Small] at hsmall
    omega

end

theorem utf8Len_of_mem_spilled {line fragment : Chars} (h : fragment ∈ (spilled line).1) :
    utf8Len fragment ≤ markdownParagraphInlineMaxBytes := by
  induction line using spilled_induction with
  | short line hle => simp [spilled_of_le hle] at h
  | long line hlt ih =>
    rw [spilled_of_lt hlt] at h
    rcases mem_cons.mp h with rfl | h
    · exact (utf8Len_takeBytes_le _ _).trans (by decide)
    · exact ih h

theorem takeFragments_small {fragments : Lines} {shape : Shape} (hsmall : shape.Small)
    (hfragments : ∀ fragment ∈ fragments, utf8Len fragment ≤ markdownParagraphInlineMaxBytes) :
    (shape.takeFragments fragments).2.Small := by
  induction fragments generalizing shape with
  | nil => exact hsmall
  | cons fragment fragments ih =>
    exact ih (takeFragment_small (hfragments fragment mem_cons_self) hsmall) fun f hf =>
      hfragments f (mem_cons_of_mem _ hf)

/-- A source holds back no more than a line and a span may hold. -/
structure Standing.Small (standing : Standing) : Prop where
  shape : standing.shape.Small
  carry : utf8Len standing.carry ≤ markdownParagraphInlineMaxBytes

theorem Standing.Small.read {standing : Standing} (h : standing.Small) (segment : Chars) :
    (standing.read segment).2.Small := by
  have hspill := takeFragments_small h.shape fun fragment hmem =>
    @utf8Len_of_mem_spilled (standing.carry ++ segment) fragment hmem
  have hrest := utf8Len_spilled_le (standing.carry ++ segment)
  rw [Standing.read]
  dsimp only
  split
  · exact ⟨(takeLine_few hrest hspill _).2, by simp⟩
  · exact ⟨hspill, hrest⟩

/-! ## The parser emits what is counted -/

variable {D : Type}

/-- **The blocks have a shape**, and stand where byte `start` is read next. -/
inductive Stands : BlockFrontier D → ℕ → Shape → Prop
  | clear {start : ℕ} : Stands ⟨start, none⟩ start .clear
  | text {kind : SpanKind} {closed blockStart nextSpan : ℕ} {buffer : Chars} (hne : buffer ≠ [])
      (hpos : 0 < nextSpan) (hfirst : nextSpan = 1 → blockStart = closed) :
      Stands ⟨closed, some (.span kind blockStart nextSpan buffer)⟩ (closed + utf8Len buffer)
        (.text kind nextSpan buffer)
  | code {closed blockStart bodyStart start : ℕ} {fence : MarkdownFenceMarker}
      {language : Option Chars} {preview : Chars} {logicalLines bodyBytes : ℕ}
      {digest : D} :
      Stands ⟨closed, some (.fencedCode blockStart bodyStart fence language preview logicalLines
        bodyBytes digest)⟩ start (.code fence)
  | table {closed blockStart headerEnd columns bodyRows start : ℕ} {preview : Chars}
      {sourceBytes : ℕ} {digest : D} (hlt : blockStart < start) :
      Stands ⟨closed, some (.table blockStart headerEnd columns bodyRows preview sourceBytes
        digest)⟩ start .table

theorem Stands.of_openBlock {frontier : BlockFrontier D} {start : ℕ} {shape : Shape}
    (h : Stands frontier start shape) : Shape.of frontier.openBlock = shape := by
  cases h <;> rfl

theorem Stands.eq_of_clear {frontier : BlockFrontier D} {start : ℕ}
    (h : Stands frontier start .clear) : frontier = ⟨start, none⟩ := by
  cases h
  rfl

/-- A change to the blocks brings what a tally says, or fails. -/
def Counts (start : ℕ) (tally : Tally) : Step D → Prop :=
  Ends (fun frontier os => Stands frontier start tally.2 ∧ os.length = tally.1) fun _ => True

/-- **What a chain brings is what its links bring.** -/
theorem Counts.andThen {start next : ℕ} {first tally : Tally} {x : Step D}
    {f : BlockFrontier D → Step D} (h : Counts start first x)
    (hf : ∀ frontier, Stands frontier start first.2 → Counts next tally (f frontier)) :
    Counts next (tally.behind first.1) (andThen x f) :=
  Ends.andThen h fun frontier _ hstands => Ends.mono (hf frontier hstands.1) fun _ _ hnext =>
    ⟨hnext.1, by rw [length_append, hstands.2, hnext.2]; rfl⟩

section

variable {kind : SpanKind} {buffer line : Chars}
  {nextSpan closed blockStart start : ℕ} {shape : Shape} {frontier : BlockFrontier D}

/-- **As many spans are flushed as are cut off.** -/
theorem flushSpans_counts (turns : ℕ) (hne : buffer ≠ []) (hpos : 0 < nextSpan)
    (hfirst : nextSpan = 1 → blockStart = closed) :
    Counts (closed + utf8Len buffer) (Shape.cutSpans kind turns nextSpan buffer)
      (flushSpans turns (⟨closed, some (.span kind blockStart nextSpan buffer)⟩ :
        BlockFrontier D)) := by
  induction turns generalizing closed nextSpan buffer with
  | zero => exact ⟨.text hne hpos hfirst, rfl⟩
  | succ turns ih =>
    rw [Shape.cutSpans]
    cases hsplit : mustSplit nextSpan buffer with
    | false =>
      simp only [flushSpans, hsplit, Bool.false_eq_true, if_false]
      exact ⟨.text hne hpos hfirst, rfl⟩
    | true =>
      obtain ⟨hcut, hrest⟩ := cut_of_lt (utf8Len_lt_of_mustSplit hsplit)
      simp only [flushSpans, hsplit, if_true, dropBytes_utf8Prefix]
      rw [utf8Prefix_eq, emitInline_eq hcut, emit_andThen]
      have hflush := @ih (dropBytes markdownSpanMaxBytes buffer) (nextSpan + 1)
        (closed + utf8Len (takeBytes markdownSpanMaxBytes buffer)) hrest (by omega) (by omega)
      rw [add_assoc, utf8Len_takeBytes_add] at hflush
      refine ends_behind (hflush.mono fun frontier' os hcounts => ⟨hcounts.1, ?_⟩)
      rw [length_append, hcounts.2]
      rfl

theorem flushOpenSpans_counts (hne : buffer ≠ []) (hpos : 0 < nextSpan)
    (hfirst : nextSpan = 1 → blockStart = closed) :
    Counts (closed + utf8Len buffer) (Shape.hold kind nextSpan buffer)
      (flushOpenSpans (⟨closed, some (.span kind blockStart nextSpan buffer)⟩ :
        BlockFrontier D)) :=
  flushSpans_counts buffer.length hne hpos hfirst

/-- What is held back is an open block. -/
theorem ending_hold : (Shape.hold kind nextSpan buffer).2.ending = 1 := by
  rw [Shape.hold]
  generalize buffer.length = turns
  induction turns generalizing nextSpan buffer with
  | zero => rfl
  | succ turns ih =>
    rw [Shape.cutSpans]
    split
    · exact ih
    · rfl

theorem emitCode_counts {language : Option Chars} {preview : Chars} {digest : D}
    {bodyStart bodyEnd lines : ℕ} : Counts start (1, .clear) (emitCode ⟨closed, none⟩ blockStart
      bodyStart bodyEnd start language preview lines digest) := by
  rw [emitCode]
  rcases ProjectionSourceRange.new bodyStart bodyEnd with e | range
  · trivial
  · rcases ResourceStructure.newCode language lines with e | structureOf
    · trivial
    · exact ⟨.clear, rfl⟩

/-- **The end of a block brings one output.** -/
theorem finishOpenBlock_counts (h : Stands frontier start shape) :
    Counts start (shape.ending, .clear) (finishOpenBlock frontier start) := by
  cases h with
  | clear => exact ⟨.clear, rfl⟩
  | @text kind closed blockStart nextSpan buffer hne hpos hfirst =>
    have hstart : (if nextSpan = 1 then blockStart else closed) = closed := by
      split
      · next hone => exact hfirst hone
      · rfl
    simp only [finishOpenBlock, isEmpty_eq_false_iff.mpr hne, Bool.false_eq_true, if_false, hstart]
    rw [emitInline_eq hne]
    exact ⟨.clear, rfl⟩
  | code => exact emitCode_counts
  | @table closed blockStart headerEnd columns bodyRows _ preview sourceBytes digest hlt =>
    simp only [finishOpenBlock, emitTable]
    split
    · rcases ProjectionSourceRange.new blockStart start with e | range
      · trivial
      · rcases ProjectionSourceRange.new 0 (headerEnd - blockStart) with e | headerRange
        · trivial
        · simp only [mapError_ok, ok_bind]
          rcases ResourceStructure.newTable bodyRows columns headerRange with e | structureOf
          · trivial
          · exact ⟨.clear, rfl⟩
    · rw [emitInline, if_pos hlt, ProjectionSourceRange.new, dif_pos (le_of_lt hlt)]
      exact ⟨.clear, rfl⟩

theorem appendOpenText_counts (line : Chars)
    (h : Stands frontier start (.text kind nextSpan buffer)) :
    Counts (start + utf8Len line) (Shape.hold kind nextSpan (buffer ++ line))
      (appendOpenText frontier line) := by
  cases h with
  | text hne hpos hfirst =>
    rw [add_assoc, ← String.utf8Len_append]
    exact flushOpenSpans_counts (append_ne_nil_of_left_ne_nil hne line) hpos hfirst

variable [ResourceDigest D]

section

variable (hne : line ≠ [])
include hne

theorem startLineBlock_counts : Counts (start + utf8Len line) (Shape.startLine line)
    (startLineBlock (⟨start, none⟩ : BlockFrontier D) start (start + utf8Len line) line) := by
  rw [startLineBlock, Shape.startLine]
  rcases openingFence line with - | ⟨fence, language⟩
  · rcases oneLineBlockKind line with - | kind
    · simp only [Option.isSome_none, Bool.false_eq_true, if_false]
      split
      · exact flushOpenSpans_counts hne Nat.one_pos fun _ => rfl
      · exact flushOpenSpans_counts hne Nat.one_pos fun _ => rfl
    · simp only [Option.isSome_some, if_true]
      rw [emitInline_eq hne]
      exact ⟨.clear, rfl⟩
  · exact ⟨.code, rfl⟩

theorem reprocessLine_counts (h : Stands frontier start shape) (hopen : shape.ending = 1) :
    Counts (start + utf8Len line) ((Shape.startLine line).behind 1)
      (reprocessLine frontier start line) := by
  have hfinish := finishOpenBlock_counts h
  rw [hopen] at hfinish
  refine hfinish.andThen fun frontier' hclear => ?_
  cases hclear
  exact startLineBlock_counts hne

theorem continueParagraph_counts (h : Stands frontier start (.text .paragraph nextSpan buffer))
    (continuation : Bool) : Counts (start + utf8Len line)
      (if !continuation && startsDistinctBlock line then (Shape.startLine line).behind 1
        else
          if isBlank line then ((Shape.hold .paragraph nextSpan (buffer ++ line)).1 + 1, .clear)
          else Shape.hold .paragraph nextSpan (buffer ++ line))
      (processLine.continueParagraph frontier start line continuation) := by
  have happend := appendOpenText_counts line h
  rw [processLine.continueParagraph]
  split
  · exact reprocessLine_counts hne h rfl
  · split
    · have hended := happend.andThen fun frontier' hstands => finishOpenBlock_counts hstands
      rwa [ending_hold] at hended
    · rw [andThen_emit_nil]
      exact happend

/-- **A line brings what is counted for it.** -/
theorem processLine_counts (h : Stands frontier start shape) (continuation : Bool) :
    Counts (start + utf8Len line) (shape.takeLine line continuation)
      (processLine frontier start line continuation) := by
  have hpos : 0 < utf8Len line := Nat.pos_of_ne_zero fun h => hne (String.utf8Len_eq_zero.mp h)
  cases shape with
  | clear =>
    cases h
    exact startLineBlock_counts hne
  | code fence =>
    cases h
    rw [processLine, Shape.takeLine]
    dsimp only
    split
    · exact emitCode_counts
    · exact ⟨.code, rfl⟩
  | table =>
    have hreprocess := reprocessLine_counts hne h rfl
    cases h with
    | table hlt =>
      rw [processLine, Shape.takeLine]
      dsimp only
      split
      · exact hreprocess
      · exact ⟨.table (by omega), rfl⟩
  | text kind nextSpan buffer =>
    cases kind with
    | fallback =>
      have hreprocess := reprocessLine_counts hne h rfl
      have happend := appendOpenText_counts line h
      cases h
      rw [processLine, Shape.takeLine]
      dsimp only
      split
      · exact hreprocess
      · exact happend
    | paragraph =>
      have hcontinue := continueParagraph_counts hne h continuation
      cases h with
      | text hbuffer hspan hfirst =>
        simp only [processLine, Shape.takeLine, Shape.delimits]
        rcases tableDelimiterColumns line with - | columns
        · simpa using hcontinue
        · simp only [Option.isSome_some, Bool.and_true, ← Bool.and_assoc]
          split
          · next hheader =>
            simp only [Bool.and_eq_true, beq_iff_eq] at hheader
            have hstart := hfirst hheader.1.1.2
            exact ⟨.table (by omega), rfl⟩
          · exact hcontinue

end

/-- **So does a fragment.** -/
theorem processLongLineFragment_counts {fragment : Chars} (hne : fragment ≠ [])
    (h : Stands frontier start shape) :
    Counts (start + utf8Len fragment) (shape.takeFragment fragment)
      (processLongLineFragment frontier start fragment) := by
  have happend : ∀ start, Counts (start + utf8Len fragment) (Shape.hold .fallback 1 fragment)
      (appendFallback (⟨start, none⟩ : BlockFrontier D) start fragment) := fun start =>
    flushOpenSpans_counts hne Nat.one_pos fun _ => rfl
  cases shape with
  | clear =>
    cases h
    exact happend start
  | code fence =>
    cases h
    exact ⟨.code, rfl⟩
  | table =>
    have hfinish := finishOpenBlock_counts h
    cases h
    rw [processLongLineFragment]
    refine hfinish.andThen fun frontier' hclear => ?_
    cases hclear
    exact happend start
  | text kind nextSpan buffer =>
    have happ := appendOpenText_counts fragment h
    cases h
    exact happ

/-! ## Lines -/

/-- **A parser state stands where a standing says**, with the unfinished line read up to its end. -/
structure StandsAs (state : ParserState D) (standing : Standing) : Prop where
  stands : Stands state.toBlockFrontier state.lineStart standing.shape
  carry : state.lineCarry = standing.carry
  continuation : state.lineContinuation = standing.continuation
  consumed : state.lineStart + utf8Len state.lineCarry = state.consumed

omit [ResourceDigest D] in
theorem StandsAs.eq_of {state : ParserState D} {standing : Standing} (h : StandsAs state standing) :
    standing = .of state := by
  obtain ⟨shape, carry, continuation⟩ := standing
  rw [Standing.of, h.stands.of_openBlock, h.carry, h.continuation]

theorem fragments_counts {fragments : Lines} (h : Stands frontier start shape)
    (hfragments : ∀ fragment ∈ fragments, fragment ≠ []) :
    Ends (fun reached os => Stands reached.1 reached.2 (shape.takeFragments fragments).2
        ∧ reached.2 = start + utf8Len fragments.flatten
        ∧ os.length = (shape.takeFragments fragments).1) (fun _ => True)
      (run takeStretch (frontier, start) (fragments.map .fragment)) := by
  induction fragments generalizing frontier start shape with
  | nil => exact ⟨h, by simp, rfl⟩
  | cons fragment fragments ih =>
    rw [map_cons, run_cons, takeStretch, receive, andThen_assoc]
    refine .andThen (processLongLineFragment_counts (hfragments fragment mem_cons_self) h)
      fun frontier' os hcounts => ?_
    rw [emit_andThen, behind_nil]
    refine (ih hcounts.1 fun f hf => hfragments f (mem_cons_of_mem _ hf)).mono ?_
    rintro reached os' ⟨hstands, hstart, hlength⟩
    refine ⟨hstands, ?_, ?_⟩
    · rw [hstart, flatten_cons, String.utf8Len_append, add_assoc]
    · rw [length_append, hcounts.2, hlength]
      rfl

variable {state : ParserState D} {standing : Standing}

theorem closeLine_counts (h : StandsAs state standing) (hne : state.lineCarry ≠ []) :
    Ends (fun state' os =>
        StandsAs state' ⟨(standing.shape.takeLine standing.carry standing.continuation).2,
          [], false⟩
        ∧ state'.consumed = state.consumed
        ∧ os.length = (standing.shape.takeLine standing.carry standing.continuation).1)
      (fun _ => True) (closeLine state state.consumed) := by
  rw [closeLine, onBlocks, ← h.carry, ← h.continuation]
  refine Ends.andThen (processLine_counts hne h.stands state.lineContinuation) ?_
  rintro blocks os ⟨hstands, hlength⟩
  rw [h.consumed] at hstands
  exact ⟨⟨hstands, rfl, rfl, by simp⟩, rfl, by rw [append_nil, hlength]⟩

/-- **Reading up to a line feed brings what is counted.** -/
theorem consumeSegment_counts (h : StandsAs state standing) (segment : Chars) :
    Ends (fun state' os => StandsAs state' (standing.read segment).2
        ∧ os.length = (standing.read segment).1) (fun _ => True)
      (consumeSegment state segment) := by
  rw [consumeSegment_eq, Standing.read, h.carry]
  refine (fragments_counts h.stands fun fragment => ne_nil_of_mem_spilled).andThen ?_
  rintro ⟨blocks, start⟩ os ⟨hstands, rfl, hlength⟩
  have hbytes := congrArg utf8Len (flatten_spilled (standing.carry ++ segment))
  have hconsumed := h.consumed
  rw [String.utf8Len_append, String.utf8Len_append] at hbytes
  rw [h.carry] at hconsumed
  have hmoved : StandsAs (({ state with consumed := state.consumed + utf8Len segment } :
      ParserState D).moved (spilled (standing.carry ++ segment)).1
      (spilled (standing.carry ++ segment)).2
      (blocks, state.lineStart + utf8Len (spilled (standing.carry ++ segment)).1.flatten))
      ⟨(standing.shape.takeFragments (spilled (standing.carry ++ segment)).1).2,
        (spilled (standing.carry ++ segment)).2,
        standing.continuation || !(spilled (standing.carry ++ segment)).1.isEmpty⟩ := by
    refine ⟨hstands, rfl, by rw [← h.continuation]; rfl, ?_⟩
    simp only [MarkdownParserCheckpoint.moved]
    omega
  dsimp only
  split
  · next hends =>
    have hne : (spilled (standing.carry ++ segment)).2 ≠ [] := spilled_ne_nil fun hnil => by
      rw [(append_eq_nil_iff.mp hnil).2] at hends
      cases hends
    refine (closeLine_counts hmoved hne).mono fun state' os' hcounts => ⟨hcounts.1, ?_⟩
    rw [length_append, hlength, hcounts.2.2]
  · exact ⟨hmoved, by rw [append_nil, hlength]⟩

/-- **A boundary brings a handful of outputs**, and closes all blocks. -/
theorem finishBoundary_counts (h : StandsAs state standing) (hsmall : standing.Small) :
    Ends (fun state' os => StandsAs state' ⟨.clear, [], state'.lineContinuation⟩
        ∧ state'.consumed = state.consumed ∧ os.length ≤ lineOutputsMax + 1) (fun _ => True)
      (finishBoundary state state.consumed) := by
  have hline : Ends (fun state' os =>
    (∃ shape, StandsAs state' ⟨shape, [], state'.lineContinuation⟩)
      ∧ state'.consumed = state.consumed ∧ os.length ≤ lineOutputsMax) (fun _ => True)
      (if state.lineCarry.isEmpty then emit state [] else closeLine state state.consumed) := by
    split
    · next hempty =>
      exact ⟨⟨standing.shape, h.stands, isEmpty_iff.mp hempty, rfl, h.consumed⟩, rfl, by simp⟩
    · next hsome =>
      refine (closeLine_counts h (by simpa using hsome)).mono ?_
      rintro state' os ⟨hstate, hconsumed, hlength⟩
      rw [hlength]
      exact ⟨⟨_, hstate.stands, hstate.carry, rfl, hstate.consumed⟩, hconsumed,
        (takeLine_few hsmall.carry hsmall.shape _).1⟩
  refine Ends.andThen hline ?_
  rintro state' os ⟨⟨shape, hstate⟩, hconsumed, hlength⟩
  have hstart : state'.lineStart = state.consumed := by
    rw [← hconsumed, ← hstate.consumed, hstate.carry]
    simp
  have hstands := hstate.stands
  rw [hstart] at hstands
  refine Ends.andThen (finishOpenBlock_counts hstands) ?_
  rintro blocks os' ⟨hclear, hended⟩
  refine ⟨⟨hstart ▸ hclear, hstate.carry, rfl, hstate.consumed⟩, hconsumed, ?_⟩
  have hone : shape.ending ≤ 1 := by cases shape <;> simp [Shape.ending]
  simp only [append_nil, length_append, hended]
  omega

end

end Beryl.Projection
