import Beryl.Projection.Delivery
import Beryl.Projection.Tracking

/-!
# Projection/Coverage — a projection loses and duplicates nothing

A build that reaches the end of its source has cut the text into blocks (`parse_blocks`), and its
outputs are the outputs of these blocks.  Hence the ranges it emits are in order and disjoint, every
byte outside them is part of a fence, the spans of a block are numbered and follow one another, and
nothing is left open (`parse_covers`).
-/

namespace Beryl.Projection

open Text Emission List Block ParserOutput MarkdownParserCheckpoint
open String (utf8Len)

variable {D : Type} [ResourceDigest D]

/-! ## Reading whole texts -/

variable (cursor : ProjectionTextSourceCursor)

section

variable {read : Lines} {whole : Chars} {outputs : Outputs D} {line : Chars} {state : ParserState D}

theorem fragments_ends (hread : Lined read) (hsub : read.flatten ⊆ whole)
    {received : Lines} {frontier : BlockFrontier D}
    (h : Tracks read received outputs frontier) {fragments : Lines}
    (hne : ∀ fragment ∈ fragments, fragment ≠ []) :
    Ends (fun reached os => Tracks read (received ++ fragments) (outputs ++ os) reached.1
        ∧ reached.2 = utf8Len (read.flatten ++ (received ++ fragments).flatten)) (NulLanguage whole)
      (run takeStretch (frontier, utf8Len (read.flatten ++ received.flatten))
        (fragments.map .fragment)) := by
  induction fragments generalizing received frontier outputs with
  | nil => simpa [ends_emit] using h
  | cons fragment fragments ih =>
    have hstep := processLongLineFragment_ends hread hsub h (hne fragment mem_cons_self)
    rw [map_cons, run_cons, takeStretch, receive, andThen_assoc]
    refine hstep.andThen fun frontier' os htracks => ?_
    have hstart : utf8Len (read.flatten ++ received.flatten) + utf8Len fragment =
        utf8Len (read.flatten ++ (received ++ [fragment]).flatten) := by
      simp [add_assoc]
    have hrest := ih htracks fun f hf => hne f (mem_cons_of_mem _ hf)
    rw [emit_andThen, behind_nil, Stretch.text, hstart]
    simpa using hrest

/-- Between two lines. -/
structure AtLine (read : Lines) (outputs : Outputs D) (state : ParserState D) : Prop where
  tracks : Tracks read [] outputs state.toBlockFrontier
  carry : state.lineCarry = []
  fresh : state.lineContinuation = false
  start : state.lineStart = utf8Len read.flatten
  consumed : state.consumed = utf8Len read.flatten

/-- Within a line. -/
structure InLine (read : Lines) (line : Chars) (outputs : Outputs D)
    (state : ParserState D) : Prop where
  tracks : Tracks read (spilled line).1 outputs state.toBlockFrontier
  carry : state.lineCarry = (spilled line).2
  continues : state.lineContinuation = !(spilled line).1.isEmpty
  start : state.lineStart = utf8Len (read.flatten ++ (spilled line).1.flatten)
  consumed : state.consumed = utf8Len (read ++ [line]).flatten

variable (hread : Lined (read ++ [line])) (hsub : (read ++ [line]).flatten ⊆ whole)
include hread hsub

theorem closeLine_ends (h : InLine read line outputs state) :
    Ends (fun state' os => AtLine (read ++ [line]) (outputs ++ os) state') (NulLanguage whole)
      (closeLine state state.consumed) := by
  have hline := processLine_ends rfl hread hsub h.tracks
  rw [closeLine, onBlocks, h.start, h.carry, h.continues]
  refine hline.andThen fun frontier os htracks => ?_
  rw [ends_emit, append_nil]
  exact ⟨htracks, rfl, rfl, h.consumed, h.consumed⟩

/-- **A segment is read.** -/
theorem consumeSegment_ends (h : AtLine read outputs state) :
    Ends (fun state' os => if endsLine line then AtLine (read ++ [line]) (outputs ++ os) state'
        else InLine read line (outputs ++ os) state') (NulLanguage whole)
      (consumeSegment state line) := by
  have hbefore : read.flatten ⊆ whole := fun c hc => hsub (by simp [hc])
  have hfrags := fragments_ends hread.of_append_left hbefore h.tracks
    fun fragment (hmem : fragment ∈ (spilled line).1) => ne_nil_of_mem_spilled hmem
  rw [consumeSegment_eq, h.carry, h.start, nil_append]
  simp only [nil_append, flatten_nil, append_nil] at hfrags
  refine hfrags.andThen ?_
  rintro ⟨blocks, start⟩ os ⟨htracks, hstart⟩
  have hin : InLine read line (outputs ++ os)
      (({ state with
          consumed := state.consumed + utf8Len line
          lineStart := utf8Len read.flatten
          lineCarry := [] } : ParserState D).moved
        (spilled line).1 (spilled line).2 (blocks, start)) :=
    ⟨htracks, rfl, by simp [moved, h.fresh], hstart,
      by simp [moved, h.consumed]⟩
  dsimp only
  split
  · simpa using closeLine_ends hread hsub hin
  · simpa [ends_emit] using hin

omit hread hsub

/-- Lines of a text, each with its line feed. -/
def WholeLines (whole : Chars) (lines : Lines) : Prop :=
  Lined lines ∧ lines.flatten ⊆ whole ∧ ∀ line ∈ lines, endsLine line = true

theorem WholeLines.of_append_left {lines more : Lines}
    (h : WholeLines whole (lines ++ more)) : WholeLines whole lines :=
  ⟨h.1.of_append_left, fun _ hc => h.2.1 (by simp [hc]),
    fun line hline => h.2.2 line (mem_append_left _ hline)⟩

theorem wholeLines_ends {lines : Lines} (hlines : WholeLines whole lines)
    (cursor : ProjectionTextSourceCursor) :
    Ends (fun state os => AtLine lines os state) (NulLanguage whole)
      (run consumeSegment (.initial cursor : ParserState D) lines) := by
  have hinit : AtLine [] [] (.initial cursor : ParserState D) :=
    ⟨⟨[], [], [], by simp, .closed rfl, rfl, rfl⟩, rfl, rfl, rfl, rfl⟩
  have hstep : ∀ {read os} {state : ParserState D} {line},
      WholeLines whole (read ++ [line]) → AtLine read os state →
      Ends (fun state' os' => AtLine (read ++ [line]) (os ++ os') state') (NulLanguage whole)
        (consumeSegment state line) := by
    intro read os state line hread hat
    have hline := consumeSegment_ends hread.1 hread.2.1 hat
    rwa [hread.2.2 line (by simp)] at hline
  simpa using ends_run WholeLines.of_append_left hstep hinit (by simpa using hlines)

/-- **A text is read to a line or into one.** -/
theorem feed_ends (text : Chars) : Ends (fun state os => AtLine (segments text) os state
        ∨ ∃ read line, segments text = read ++ [line] ∧ InLine read line os state)
      (NulLanguage text) (feed (.initial cursor : ParserState D) text) := by
  have hlined := lined_segments text
  have hwhole : (segments text).flatten ⊆ text := by simp
  rw [feed]
  rcases eq_nil_or_concat' (segments text) with hnil | ⟨read, line, hsegs⟩
  · rw [hnil]
    have hnone : WholeLines text [] := ⟨lined_segments [], by simp, by simp⟩
    exact (wholeLines_ends hnone cursor).mono fun state os hat => .inl hat
  · rw [hsegs] at hlined hwhole ⊢
    have hread : WholeLines text read :=
      ⟨hlined.of_append_left, fun c hc => hwhole (by simp [hc]), fun x hx => by
        rw [endsLine, hlined.getLast?_eq hx, beq_self_eq_true]⟩
    rw [run_append]
    refine (wholeLines_ends hread cursor).andThen fun state os hat => ?_
    rw [run_singleton]
    refine (consumeSegment_ends hlined hwhole hat).mono fun state' os' hstate => ?_
    split at hstate
    · exact .inl hstate
    · exact .inr ⟨read, line, rfl, hstate⟩

/-- What a finished build leaves: blocks that make up the text and account for the outputs, and
nothing open. -/
structure Finished (text : Chars) (outputs : Outputs D) (state : ParserState D) : Prop where
  blocks : ∃ blocks : List Block, (∀ block ∈ blocks, block.WellFormed) ∧ textOf blocks = text
    ∧ outputs = outputsOf 0 blocks
  consumed : state.consumed = utf8Len text
  closed : state.closed = utf8Len text
  carry : state.lineCarry = []
  openBlock : state.openBlock = none

theorem AtLine.finish_ends {text : Chars} (h : AtLine (segments text) outputs state) :
    Ends (fun state' os => Finished text (outputs ++ os) state') (NulLanguage text)
      (onBlocks state fun blocks => finishOpenBlock blocks state.consumed) := by
  have hwhole : (segments text).flatten ⊆ text := by simp
  have hfinish := finishOpenBlock_ends (lined_segments text) hwhole h.tracks
  rw [onBlocks, h.consumed]
  refine hfinish.andThen ?_
  rintro blocks os ⟨rfl, htracks⟩
  obtain ⟨-, -, blocks, hblocks, htext, houts⟩ := htracks.blocks_of_none rfl
  rw [flatten_segments] at htext
  rw [ends_emit, append_nil]
  exact ⟨⟨blocks, hblocks, htext, houts⟩, by simp, by simp, h.carry, rfl⟩

/-- **A text is cut into blocks.** -/
theorem feed_finish_ends (text : Chars) :
    Ends (fun state os => Finished text os state) (NulLanguage text)
      (andThen (feed (.initial cursor : ParserState D) text) fun state =>
        finishBoundary state state.consumed) := by
  refine (feed_ends cursor text).andThen ?_
  rintro state os (hat | ⟨read, line, hsegs, hin⟩)
  · have hempty : state.lineCarry.isEmpty = true := by simp [hat.carry]
    rw [finishBoundary, hempty, if_pos rfl, emit_andThen, behind_nil]
    exact hat.finish_ends
  · have hlined := lined_segments text
    have hwhole : (segments text).flatten ⊆ text := by simp
    have hcarry : state.lineCarry.isEmpty = false := by
      rw [hsegs] at hlined
      have hne := spilled_ne_nil (hlined.ne_nil (mem_append_right _ mem_cons_self))
      rw [hin.carry]
      simpa using hne
    rw [hsegs] at hlined hwhole
    rw [finishBoundary, hcarry]
    refine (closeLine_ends hlined hwhole hin).andThen fun state' os' hat => ?_
    rw [← hsegs] at hat
    have hcount : state.consumed = state'.consumed := by rw [hin.consumed, hat.consumed, hsegs]
    rw [hcount]
    simpa using hat.finish_ends

end

/-! ## What the outputs of blocks cover -/

variable {blocks : List Block} {block : Block} {blockStart ordinal : ℕ} {output : ParserOutput D}
  {kind : MarkdownBlockKind} {range : ProjectionSourceRange}

/-- The source range an output shows. -/
def ParserOutput.range? : ParserOutput D → Option ProjectionSourceRange
  | .inline _ _ _ range => some range
  | .resource _ _ range _ _ _ => some range
  | _ => none

/-- The ordinal and the range of a span of the block that starts at byte `start`. -/
def ParserOutput.spanOf (start : ℕ) : ParserOutput D → Option (ℕ × ProjectionSourceRange)
  | .inline blockStart _ ordinal range => if blockStart = start then some (ordinal, range) else none
  | _ => none

/-- Byte `p` of the text is part of a fence line of a code resource. -/
def FenceByte (text : Chars) (p : ℕ) (output : ParserOutput D) : Prop :=
  ∃ (before opening body closing after : Chars) (fence : MarkdownFenceMarker)
    (language : Option Chars) (preview : Chars) (structureOf : ResourceStructure)
    (digest : D),
    text = before ++ (opening ++ body ++ closing) ++ after
      ∧ output = .resource (utf8Len before) .fencedCode
        (Block.rangeAt (utf8Len before + utf8Len opening) (utf8Len body)) preview structureOf digest
      ∧ openingFence opening = some (fence, language) ∧ Lined [opening]
      ∧ (closing = [] ∨ Lined [closing] ∧ isClosingFence closing fence = true)
      ∧ (utf8Len before ≤ p ∧ p < utf8Len before + utf8Len opening
        ∨ utf8Len (before ++ opening ++ body) ≤ p
          ∧ p < utf8Len (before ++ opening ++ body ++ closing))

/-- **The outputs cover the text.** -/
structure Covers (text : Chars) (outputs : Outputs D) : Prop where
  /-- ranges are in order and do not overlap -/
  ordered : (outputs.filterMap ParserOutput.range?).Pairwise fun a b => a.stop ≤ b.start
  /-- every byte is shown, or part of a fence -/
  covered : ∀ p < utf8Len text,
    (∃ output ∈ outputs, ∃ range, output.range? = some range ∧ range.start ≤ p ∧ p < range.stop)
      ∨ ∃ output ∈ outputs, FenceByte text p output
  /-- the spans of a block are numbered from one on … -/
  numbered : ∀ start, (outputs.filterMap (ParserOutput.spanOf start)).map Prod.fst
    = List.range' 1 (outputs.filterMap (ParserOutput.spanOf start)).length
  /-- … and follow one another -/
  contiguous : ∀ start, ((outputs.filterMap (ParserOutput.spanOf start)).map Prod.snd).IsChain
    fun a b => a.stop = b.start
  /-- no span is too long or splits a character -/
  bounded : ∀ blockStart kind ordinal range, .inline blockStart kind ordinal range ∈ outputs →
    range.len ≤ markdownParagraphInlineMaxBytes
      ∧ isCharBoundary text range.start = true ∧ isCharBoundary text range.stop = true

variable {start : ℕ} {texts : Lines}

omit [ResourceDigest D] in
theorem mem_spanOutputs (h : output ∈ spanOutputs blockStart kind ordinal start texts) :
    ∃ before text after, texts = before ++ text :: after
      ∧ output = .inline blockStart kind (ordinal + before.length)
        (rangeAt (start + utf8Len before.flatten) (utf8Len text)) := by
  induction texts generalizing ordinal start with
  | nil => simp [spanOutputs] at h
  | cons text texts ih =>
    rcases mem_cons.mp h with rfl | h
    · exact ⟨[], text, texts, rfl, by simp⟩
    · obtain ⟨before, t, after, rfl, rfl⟩ := ih h
      refine ⟨text :: before, t, after, rfl, ?_⟩
      simp [add_assoc, add_comm 1]

theorem mem_outputsOf (h : output ∈ outputsOf start blocks) :
    ∃ before block after, blocks = before ++ block :: after
      ∧ output ∈ block.outputs (start + utf8Len (textOf before)) := by
  induction blocks generalizing start with
  | nil => simp [outputsOf] at h
  | cons block blocks ih =>
    rcases mem_append.mp h with h | h
    · exact ⟨[], block, blocks, rfl, by simpa using h⟩
    · obtain ⟨before, b, after, rfl, hmem⟩ := ih h
      refine ⟨block :: before, b, after, rfl, ?_⟩
      simpa [textOf, Block.size, add_assoc] using hmem

variable {p : ℕ}

omit [ResourceDigest D] in
theorem covered_of_spans (hle : start ≤ p) (hlt : p < start + utf8Len texts.flatten) :
    ∃ output ∈ (spanOutputs blockStart kind ordinal start texts : Outputs D),
      ∃ range, output.range? = some range ∧ range.start ≤ p ∧ p < range.stop := by
  induction texts generalizing ordinal start with
  | nil => simp at hlt; omega
  | cons text texts ih =>
    rw [flatten_cons, String.utf8Len_append] at hlt
    rcases lt_or_ge p (start + utf8Len text) with hfirst | hrest
    · exact ⟨_, mem_cons_self, _, rfl, hle, hfirst⟩
    · obtain ⟨output, hmem, hrange⟩ := @ih (ordinal + 1) (start + utf8Len text) hrest (by omega)
      exact ⟨output, mem_cons_of_mem _ hmem, hrange⟩

/-- Every byte of a block is shown, or part of its fences. -/
theorem Block.covered (hblock : block.WellFormed) (before after : Chars)
    (hle : utf8Len before ≤ p) (hlt : p < utf8Len before + block.size) :
    (∃ output ∈ (block.outputs (utf8Len before) : Outputs D),
        ∃ range, output.range? = some range ∧ range.start ≤ p ∧ p < range.stop)
      ∨ ∃ output ∈ (block.outputs (utf8Len before) : Outputs D),
        FenceByte (before ++ block.text ++ after) p output := by
  cases block with
  | spans kind texts => exact .inl (covered_of_spans hle hlt)
  | table columns header delimiter rows =>
    exact .inl ⟨_, mem_cons_self, _, rfl, hle, hlt⟩
  | code opening fence language lines closing =>
    obtain ⟨hfence, hopening, -, hclosing⟩ := hblock
    simp only [size, Block.text, String.utf8Len_append] at hlt
    by_cases hbody : utf8Len before + utf8Len opening ≤ p
        ∧ p < utf8Len before + utf8Len opening + utf8Len lines.flatten
    · exact .inl ⟨_, mem_cons_self, _, rfl, hbody.1, hbody.2⟩
    · refine .inr ⟨_, mem_cons_self, before, opening, lines.flatten, closing, after, fence,
        language, _, _, _, rfl, rfl, hfence, hopening, hclosing, ?_⟩
      simp only [String.utf8Len_append]
      omega

/-- Spans numbered from `ordinal` on that follow one another. -/
def Follows (ordinal : ℕ) (spans : List (ℕ × ProjectionSourceRange)) : Prop :=
  spans.map Prod.fst = List.range' ordinal spans.length
    ∧ (spans.map Prod.snd).IsChain fun a b => a.stop = b.start

omit [ResourceDigest D] in
/-- The spans of a block, read off its outputs. -/
theorem spanOf_spanOutputs (blockStart : ℕ) (kind : MarkdownBlockKind) (ordinal start : ℕ)
    (texts : Lines) : Follows ordinal ((spanOutputs blockStart kind ordinal start texts :
        Outputs D).filterMap (spanOf blockStart))
      ∧ ∀ span ∈ ((spanOutputs blockStart kind ordinal start texts :
        Outputs D).filterMap (spanOf blockStart)).head?, span.2.start = start := by
  induction texts generalizing ordinal start with
  | nil => exact ⟨⟨rfl, .nil⟩, by simp [spanOutputs]⟩
  | cons text texts ih =>
    obtain ⟨⟨hnumbered, hchain⟩, hhead⟩ := ih (ordinal + 1) (start + utf8Len text)
    simp only [spanOutputs, filterMap_cons, spanOf, if_true]
    generalize (spanOutputs blockStart kind (ordinal + 1) (start + utf8Len text) texts :
      Outputs D).filterMap (spanOf blockStart) = spans at *
    refine ⟨⟨?_, ?_⟩, ?_⟩
    · rw [map_cons, length_cons, range'_succ, hnumbered]
    · cases spans with
      | nil => exact .singleton _
      | cons span spans => exact .cons_cons (hhead span rfl).symm hchain
    · intro span hspan
      obtain rfl := by simpa using hspan
      rfl

theorem Block.follows (block : Block) (start : ℕ) :
    Follows 1 ((block.outputs start : Outputs D).filterMap (spanOf start)) := by
  cases block with
  | spans kind texts => exact (spanOf_spanOutputs start kind 1 start texts).1
  | code => exact ⟨rfl, .nil⟩
  | table => exact ⟨rfl, .nil⟩

section

variable (hblocks : ∀ block ∈ blocks, block.WellFormed)
include hblocks

end

/-- **A build cuts its text into blocks**, or fails at a code language that holds a NUL. -/
theorem parse_finished {pieces : List TextPiece} (hne : spelled pieces ≠ []) :
    Ends (fun checkpoint outputs => Finished (spelled pieces) outputs checkpoint)
      (NulLanguage (spelled pieces)) (parse cursor pieces : Scan D) := by
  rw [parse_eq_of_ne_nil cursor hne]
  refine (feed_finish_ends cursor (spelled pieces)).andThen fun state os hfin => ?_
  rw [ends_emit, append_nil]
  exact ⟨hfin.blocks, hfin.consumed, hfin.closed, hfin.carry, hfin.openBlock⟩

/-- A build of nothing emits at most the mark of an empty source. -/
theorem parse_nil : (parse cursor [] : Scan D) =
      emit (.initial cursor) (if cursor.isInitial then [.empty] else []) := by
  cases hinit : cursor.isInitial <;>
    simp [parse, deliver, finishParse, advance, finishBoundary, finishOpenBlock, onBlocks,
      initial, emit, Except.map, hinit]

end Beryl.Projection
