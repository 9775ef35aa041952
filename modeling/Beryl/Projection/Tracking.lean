import Beryl.Projection.Blocks
import Mathlib.Data.List.TakeWhile

/-!
# Projection/Tracking — the parser keeps track of the blocks it has read

`Tracks read fragments outputs (frontier, start)` ties the parser's blocks to the text: the lines
`read` and the `fragments` of one more line are the text of some closed blocks and of the open one,
the closed blocks account for the outputs, and the open block is described by what it has read
(`OpenAs`).  Every function on blocks keeps this, line by line and fragment by fragment, and the
only failure is a code language that holds a NUL.
-/

namespace Beryl.Projection

open Text Emission Fallible List Block ResourceStructure
open String (utf8Len)

variable {D : Type} [ResourceDigest D]

/-! ## Languages -/

variable {line rest source : Chars} {fence : MarkdownFenceMarker} {c : Char}
  {language : Option Chars}

theorem mem_of_mem_trim (h : c ∈ trim source) : c ∈ source := by
  have h₁ := (dropWhile_sublist _).subset (mem_reverse.mp h)
  exact (dropWhile_sublist _).subset (mem_reverse.mp h₁)

theorem mem_of_stripSuffix {d : Char} (h : stripSuffix d source = some rest) (hc : c ∈ rest) :
    c ∈ source := by
  obtain ⟨tail, htail, rfl⟩ := Option.map_eq_some_iff.mp h
  rcases hrev : source.reverse with - | ⟨e, es⟩
  · rw [hrev] at htail
    cases htail
  · rw [hrev, stripPrefix] at htail
    split at htail
    · cases htail
      rw [← mem_reverse, hrev]
      exact mem_cons_of_mem _ (mem_reverse.mp hc)
    · cases htail

theorem mem_of_mem_trimLineEnding (h : c ∈ trimLineEnding line) : c ∈ line := by
  rw [trimLineEnding] at h
  split at h
  · exact h
  · next rest hrest =>
    refine mem_of_stripSuffix hrest ?_
    cases hcr : stripSuffix '\r' rest with
    | none => rwa [hcr] at h
    | some stripped =>
      rw [hcr] at h
      exact mem_of_stripSuffix hcr h

theorem firstWord_eq_some {word : Chars} (h : firstWord source = some word) :
    word ≠ [] ∧ ∀ c ∈ word, c ∈ source := by
  rw [firstWord] at h
  split at h
  · cases h
  · next hne =>
    cases h
    exact ⟨hne, fun c hc =>
      (dropWhile_sublist _).subset ((takeWhile_sublist _).subset hc)⟩

/-- A fence's language is a short word of its line. -/
theorem language_of_openingFence {language : Chars}
    (h : openingFence line = some (fence, some language)) :
    language ≠ [] ∧ utf8Len language ≤ languageMaxBytes ∧ ∀ c ∈ language, c ∈ line := by
  rw [openingFence] at h
  dsimp only at h
  split at h
  · cases h
  · split at h
    · cases h
    · next byte rest hrest =>
      split at h
      · cases h
      · split at h
        · cases h
        · split at h
          · cases h
          · have hlang := (Prod.mk.inj (Option.some.inj h)).2
            obtain ⟨hword, hlen⟩ := Option.filter_eq_some_iff.mp hlang
            obtain ⟨hne, hmem⟩ := firstWord_eq_some hword
            refine ⟨hne, by simpa using hlen, fun c hc => mem_of_mem_trimLineEnding ?_⟩
            exact mem_of_mem_drop (mem_of_mem_drop (mem_of_mem_trim (hmem c hc)))

/-- Why the parser may fail on a text: a code language of it holds a NUL. -/
def NulLanguage (whole : Chars) (e : SyndicMutationError) : Prop :=
  (∃ index, e = .record (.nulByte "code language" index)) ∧ '\x00' ∈ whole

/-- The structure of a code block is refused only for a NUL in its language. -/
theorem newCode_of_openingFence (h : openingFence line = some (fence, language)) (n : ℕ) :
    newCode language n = .ok (.code language n)
      ∨ (∃ index, newCode language n = .error (.nulByte "code language" index))
        ∧ '\x00' ∈ line := by
  cases language with
  | none => exact .inl rfl
  | some word =>
    obtain ⟨hne, hlen, hmem⟩ := language_of_openingFence h
    have hempty : word.isEmpty = false := by simpa using hne
    simp only [newCode, validateText, hempty, Bool.and_false, Bool.false_eq_true,
      if_false, not_lt.mpr hlen]
    by_cases hnul : '\x00' ∈ word
    · rw [if_pos hnul]
      exact .inr ⟨⟨_, rfl⟩, hmem _ hnul⟩
    · rw [if_neg hnul]
      exact .inl rfl

/-! ## Open blocks -/

variable {buffer : Chars} {E : SyndicMutationError → Prop} {blockStart n : ℕ}
  {frontier : BlockFrontier D}

/-- A single line that ends with a line feed holds no other. -/
theorem cells_of_singleLogicalLine (h : singleLogicalLine line = true)
    (hlast : line.getLast? = some '\n') : ∃ cells, line = cells ++ ['\n'] ∧ '\n' ∉ cells := by
  have hcut := takeWhile_append_dropWhile (p := fun c => !(c == '\n')) (l := line)
  have hcells : '\n' ∉ line.takeWhile fun c => !(c == '\n') := by
    intro hmem
    simpa using mem_takeWhile_imp hmem
  rw [singleLogicalLine] at h
  cases hrest : line.dropWhile fun c => !(c == '\n') with
  | nil =>
    rw [hrest, append_nil] at hcut
    rw [← hcut] at hlast
    exact absurd (mem_of_getLast? hlast) hcells
  | cons c rest =>
    rw [hrest] at h hcut
    obtain rfl : rest = [] := by simpa using h
    rw [← hcut, getLast?_append, getLast?_singleton] at hlast
    obtain rfl : c = '\n' := by simpa using hlast
    exact ⟨_, hcut.symm, hcells⟩

/-- **What an open block has read.**  The block starts at byte `start`; `text` is all of it so far
and `pending` the outputs it has emitted. -/
inductive OpenAs (start : ℕ) (read fragments : Lines) :
    BlockFrontier D → Chars → Outputs D → Prop
  | closed (hwhole : fragments = []) : OpenAs start read fragments ⟨start, none⟩ [] []
  | span (kind : SpanKind) (texts : Lines) {buffer : Chars} (hne : buffer ≠ [])
      (hfits : mustSplit (texts.length + 1) buffer = false)
      (htexts : ∀ text ∈ texts, text ≠ [] ∧ utf8Len text ≤ markdownSpanMaxBytes) :
      OpenAs start read fragments
        ⟨start + utf8Len texts.flatten, some (.span kind start (texts.length + 1) buffer)⟩
        (texts.flatten ++ buffer) (Block.spanOutputs start kind.blockKind 1 start texts)
  | code {opening : Chars} {fence : MarkdownFenceMarker} {language : Option Chars}
      {lines : Lines} (hfence : openingFence opening = some (fence, language))
      (hlines : (opening :: lines) <:+ read) :
      OpenAs start read fragments
        ⟨start, some (.fencedCode start (start + utf8Len opening) fence language
          (codePreview (bodyStretches lines fragments)) lines.length
          (utf8Len (lines.flatten ++ fragments.flatten))
          (contentDigest .code ((bodyStretches lines fragments).map Stretch.text)))⟩
        (opening ++ lines.flatten ++ fragments.flatten) []
  | table {columns : ℕ} {header delimiter : Chars} {rows : Lines}
      (hwhole : fragments = []) (hheader : tableColumns header = some columns)
      (hdelimiter : tableDelimiterColumns delimiter = some columns)
      (hline : ∃ cells, header = cells ++ ['\n'] ∧ '\n' ∉ cells)
      (hlines : (delimiter :: rows) <:+ read) :
      OpenAs start read fragments
        ⟨start, some (.table start (start + utf8Len header) columns rows.length
          (tablePreview header delimiter rows) (utf8Len (header ++ delimiter ++ rows.flatten))
          (contentDigest .table (header :: delimiter :: rows)))⟩
        (header ++ delimiter ++ rows.flatten) []

/-- **The parser keeps track**: closed blocks and the open one make up the text, and account for the
outputs. -/
def Tracks (read fragments : Lines) (outputs : Outputs D) (frontier : BlockFrontier D) : Prop :=
  ∃ (blocks : List Block) (text : Chars) (pending : Outputs D),
    (∀ block ∈ blocks, block.WellFormed)
      ∧ OpenAs (utf8Len (textOf blocks)) read fragments frontier text pending
      ∧ textOf blocks ++ text = read.flatten ++ fragments.flatten
      ∧ outputs = outputsOf 0 blocks ++ pending

omit [ResourceDigest D] in
theorem emitInline_eq {kind : MarkdownBlockKind} {ordinal start : ℕ} {text : Chars}
    (hne : text ≠ []) : emitInline frontier blockStart kind ordinal start (start + utf8Len text) =
      emit { frontier with closed := start + utf8Len text }
        [.inline blockStart kind ordinal (rangeAt start (utf8Len text))] := by
  have hpos : 0 < utf8Len text := Nat.pos_of_ne_zero fun h => hne (String.utf8Len_eq_zero.mp h)
  rw [emitInline, if_pos (by omega), ProjectionSourceRange.new, dif_pos (by omega)]
  rfl

/-- The state of an open block of text. -/
def spanFrontier (kind : SpanKind) (start : ℕ) (texts : Lines) (buffer : Chars) :
    BlockFrontier D :=
  ⟨start + utf8Len texts.flatten, some (.span kind start (texts.length + 1) buffer)⟩

theorem utf8Len_lt_of_mustSplit (h : mustSplit n buffer = true) :
    markdownSpanMaxBytes < utf8Len buffer := by
  rw [mustSplit] at h
  split at h
  · have hlong := of_decide_eq_true h
    simp only [markdownParagraphInlineMaxBytes, markdownSpanMaxBytes] at hlong ⊢
    omega
  · exact of_decide_eq_true h

theorem utf8Len_le_of_not_mustSplit (h : mustSplit n buffer = false) :
    utf8Len buffer ≤ markdownParagraphInlineMaxBytes := by
  rw [mustSplit] at h
  split at h
  · exact not_lt.mp (of_decide_eq_false h)
  · have hshort := of_decide_eq_false h
    simp only [markdownParagraphInlineMaxBytes, markdownSpanMaxBytes] at hshort ⊢
    omega

/-- A buffer is cut into two parts, neither of them empty. -/
theorem cut_of_lt (h : markdownSpanMaxBytes < utf8Len buffer) :
    takeBytes markdownSpanMaxBytes buffer ≠ [] ∧ dropBytes markdownSpanMaxBytes buffer ≠ [] := by
  have hadd := utf8Len_takeBytes_add markdownSpanMaxBytes buffer
  have hle := utf8Len_takeBytes_le markdownSpanMaxBytes buffer
  have hfull := le_utf8Len_takeBytes (le_of_lt h)
  have hsize : 3 < markdownSpanMaxBytes := by decide
  refine ⟨fun hnil => ?_, fun hnil => ?_⟩
  · rw [hnil, String.utf8Len_nil] at hfull
    omega
  · rw [hnil, String.utf8Len_nil] at hadd
    omega

theorem ne_nil_of_mem_spilled {fragment : Chars} (h : fragment ∈ (spilled line).1) :
    fragment ≠ [] := by
  induction line using spilled_induction with
  | short line hle => simp [spilled_of_le hle] at h
  | long line hlt ih =>
    rw [spilled_of_lt hlt] at h
    rcases mem_cons.mp h with rfl | h
    · refine (cut_of_lt ?_).1
      simp only [markdownParagraphInlineMaxBytes, markdownSpanMaxBytes] at hlt ⊢
      omega
    · exact ih h

/-- **Flushing keeps the block**: what is flushed becomes spans. -/
theorem flushSpans_ends (kind : SpanKind) (start : ℕ) (read fragments : Lines)
    {turns : ℕ} {texts : Lines} (hne : buffer ≠ []) (hturns : buffer.length ≤ turns)
    (htexts : ∀ text ∈ texts, text ≠ [] ∧ utf8Len text ≤ markdownSpanMaxBytes) :
    Ends (fun (frontier : BlockFrontier D) os =>
        OpenAs start read fragments frontier (texts.flatten ++ buffer)
          (spanOutputs start kind.blockKind 1 start texts ++ os)) E
      (flushSpans turns (spanFrontier kind start texts buffer)) := by
  induction turns generalizing texts buffer with
  | zero => exact absurd (length_eq_zero_iff.mp (Nat.le_zero.mp hturns)) hne
  | succ turns ih =>
    cases hsplit : mustSplit (texts.length + 1) buffer with
    | false =>
      simp only [flushSpans, spanFrontier, hsplit, Bool.false_eq_true, if_false, ends_emit,
        append_nil]
      exact .span kind texts hne hsplit htexts
    | true =>
      have hlt := utf8Len_lt_of_mustSplit hsplit
      obtain ⟨hcut, hrest⟩ := cut_of_lt hlt
      have hlen := congrArg List.length (takeBytes_append_dropBytes markdownSpanMaxBytes buffer)
      rw [length_append] at hlen
      have hpos := length_pos_iff.mpr hcut
      simp only [flushSpans, spanFrontier, hsplit, if_true, dropBytes_utf8Prefix]
      rw [utf8Prefix_eq, emitInline_eq hcut, emit_andThen]
      have htexts' : ∀ text ∈ texts ++ [takeBytes markdownSpanMaxBytes buffer],
          text ≠ [] ∧ utf8Len text ≤ markdownSpanMaxBytes :=
        forall_mem_append.mpr ⟨htexts, forall_mem_singleton.mpr ⟨hcut, utf8Len_takeBytes_le _ _⟩⟩
      have hflush := ih hrest (by omega) htexts'
      refine ends_behind ?_
      simp only [spanOutputs_append, flatten_append, flatten_cons, flatten_nil, append_nil,
        append_assoc, takeBytes_append_dropBytes, length_append, length_singleton, spanFrontier,
        String.utf8Len_append, spanOutputs, add_comm 1] at hflush ⊢
      simpa [add_assoc] using hflush

/-! ## Closing a block -/

variable {read fragments : Lines} {whole opening : Chars}
  {blocks : List Block} {columns : ℕ} {outputs : Outputs D}

/-- A block closes where the text read ends. -/
theorem tracks_of_block {block : Block} (hblk : ∀ block ∈ blocks, block.WellFormed)
    (hblock : block.WellFormed) (htext : textOf blocks ++ block.text = read.flatten) :
    Tracks read [] (outputsOf 0 blocks ++ block.outputs (utf8Len (textOf blocks)) :
      Outputs D) ⟨utf8Len read.flatten, none⟩ := by
  refine ⟨blocks ++ [block], [], [], ?_, ?_, by simpa using htext, ?_⟩
  · exact forall_mem_append.mpr ⟨hblk, forall_mem_singleton.mpr hblock⟩
  · rw [textOf_concat, htext]
    exact .closed rfl
  · rw [outputsOf_concat, zero_add, append_nil]

omit [ResourceDigest D] in
theorem emitCode_ends (frontier : BlockFrontier D) (start lines : ℕ)
    (body closing preview : Chars) (digest : D)
    (hfence : openingFence opening = some (fence, language)) (hsub : opening ⊆ whole) :
    Ends (fun frontier' os =>
        frontier' = { frontier with closed := start + utf8Len (opening ++ body ++ closing) }
        ∧ os = [.resource start .fencedCode
            (rangeAt (start + utf8Len opening) (utf8Len body)) preview
            (.code language lines) digest]) (NulLanguage whole)
      (emitCode frontier start (start + utf8Len opening) (start + utf8Len opening + utf8Len body)
        (start + utf8Len opening + utf8Len body + utf8Len closing) language preview lines
        digest) := by
  rw [emitCode, ProjectionSourceRange.new, dif_pos (Nat.le_add_right _ _), mapError_ok, ok_bind]
  rcases newCode_of_openingFence hfence lines with hok | ⟨⟨index, herror⟩, hnul⟩
  · rw [hok, mapError_ok, ok_bind, ends_emit]
    refine ⟨?_, rfl⟩
    simp [add_assoc]
  · rw [herror]
    exact ⟨⟨index, rfl⟩, hsub hnul⟩

theorem two_le_of_tableColumns (h : tableColumns line = some columns) : 2 ≤ columns := by
  rw [tableColumns, TableSyntax.columns] at h
  dsimp only at h
  split at h
  · cases h
    omega
  · cases h

theorem ne_nil_of_tableColumns (h : tableColumns line = some columns) : line ≠ [] := by
  rintro rfl
  exact absurd h (by decide +revert)

/-- **A block is finished**: it joins the closed ones. -/
theorem finishOpenBlock_ends (hread : Lined read) (hsub : read.flatten ⊆ whole)
    (h : Tracks read [] outputs frontier) : Ends (fun frontier' os =>
        frontier' = ⟨utf8Len read.flatten, none⟩ ∧ Tracks read [] (outputs ++ os) frontier')
      (NulLanguage whole) (finishOpenBlock frontier (utf8Len read.flatten)) := by
  obtain ⟨blocks, text, pending, hblk, hopen, htext, rfl⟩ := h
  rw [flatten_nil, append_nil] at htext
  have hbdry : utf8Len read.flatten = utf8Len (textOf blocks) + utf8Len text := by
    rw [← htext, String.utf8Len_append]
  cases hopen with
  | closed hwhole =>
    refine ⟨rfl, blocks, [], [], hblk, ?_, by simpa using htext, by simp⟩
    rw [hbdry, String.utf8Len_nil]
    exact .closed rfl
  | @span kind texts buffer hne hfits htexts =>
    have hstart : (if texts.length + 1 = 1 then utf8Len (textOf blocks)
        else utf8Len (textOf blocks) + utf8Len texts.flatten)
        = utf8Len (textOf blocks) + utf8Len texts.flatten := by
      split
      · next hone => simp [length_eq_zero_iff.mp (by omega : texts.length = 0)]
      · rfl
    have hend : utf8Len read.flatten
        = utf8Len (textOf blocks) + utf8Len texts.flatten + utf8Len buffer := by
      rw [hbdry, String.utf8Len_append, add_assoc]
    have hblock : (spans kind.blockKind (texts ++ [buffer])).WellFormed := by
      refine ⟨by simp, forall_mem_append.mpr ⟨fun t ht => ?_, forall_mem_singleton.mpr ?_⟩⟩
      · exact ⟨(htexts t ht).1, (htexts t ht).2.trans (by decide)⟩
      · exact ⟨hne, utf8Len_le_of_not_mustSplit hfits⟩
    have htracks := tracks_of_block (D := D) hblk hblock
      (by simpa [Block.text] using htext)
    simp only [finishOpenBlock, List.isEmpty_iff, hne, if_false, hstart, hend]
    rw [emitInline_eq hne, ends_emit, ← hend]
    refine ⟨rfl, ?_⟩
    simpa [outputs, spanOutputs_append, spanOutputs, add_comm] using htracks
  | @code opening fence language lines hfence hlines =>
    have hlined : Lined ([opening] ++ lines) := hread.of_suffix hlines
    have hblock : (Block.code opening fence language lines []).WellFormed :=
      ⟨hfence, hlined.of_append_left, hlined.of_append_right, .inl rfl⟩
    simp only [flatten_nil, append_nil] at htext hbdry ⊢
    have htracks := tracks_of_block (D := D) hblk hblock (by simpa [Block.text] using htext)
    have hmem : opening ⊆ whole := fun c hc =>
      hsub (htext ▸ mem_append_right _ (mem_append_left _ hc))
    have hend : utf8Len read.flatten =
        utf8Len (textOf blocks) + utf8Len opening + utf8Len lines.flatten := by
      rw [hbdry, String.utf8Len_append, add_assoc]
    have hemit := emitCode_ends ⟨utf8Len (textOf blocks), none⟩ (utf8Len (textOf blocks))
      lines.length lines.flatten [] (codePreview (bodyStretches lines []))
      (contentDigest .code ((bodyStretches lines []).map Stretch.text) : D) hfence hmem
    simp only [String.utf8Len_nil, add_zero, ← hend] at hemit
    refine hemit.mono ?_
    rintro frontier' os ⟨rfl, rfl⟩
    refine ⟨by simp [hend, add_assoc], ?_⟩
    simpa [outputs, hend, add_assoc] using htracks
  | @table columns header delimiter rows hwhole hhdr hdelim hline hlines =>
    have hne : header ++ delimiter ++ rows.flatten ≠ [] := by simp [ne_nil_of_tableColumns hhdr]
    simp only [finishOpenBlock, emitTable, hbdry]
    by_cases hlarge : markdownTableInlineMaxBytes < utf8Len (header ++ delimiter ++ rows.flatten)
        ∨ markdownTableInlineMaxBodyRows < rows.length ∨ markdownTableInlineMaxColumns < columns
    · have hblock : (Block.table columns header delimiter rows).WellFormed :=
        ⟨hhdr, hdelim, lined_cons hline (hread.of_suffix hlines), hlarge⟩
      have htracks := tracks_of_block (D := D) hblk hblock htext
      have hcolumns := two_le_of_tableColumns hhdr
      rw [if_pos hlarge, ProjectionSourceRange.new, dif_pos (Nat.le_add_right _ _), mapError_ok,
        ok_bind, ProjectionSourceRange.new, dif_pos (Nat.zero_le _), mapError_ok, ok_bind,
        newTable, if_neg (by omega), mapError_ok, ok_bind, ends_emit]
      refine ⟨rfl, ?_⟩
      simpa [outputs, rangeAt, hbdry] using htracks
    · have hblock : (spans .table [header ++ delimiter ++ rows.flatten]).WellFormed := by
        have hsmall : utf8Len (header ++ delimiter ++ rows.flatten) ≤ markdownTableInlineMaxBytes :=
          not_lt.mp fun h => hlarge (.inl h)
        exact ⟨by simp, forall_mem_singleton.mpr ⟨hne, hsmall.trans (by decide)⟩⟩
      have htracks := tracks_of_block (D := D) hblk hblock (by simpa [Block.text] using htext)
      rw [if_neg hlarge, emitInline_eq hne, ends_emit]
      refine ⟨rfl, ?_⟩
      simpa [outputs, spanOutputs, hbdry] using htracks

/-! ## Reading on -/

variable {nextSpan : ℕ} {more : Chars}

/-- A block of text takes in more of it. -/
theorem flushOpenSpans_ends (hblk : ∀ block ∈ blocks, block.WellFormed) (kind : SpanKind)
    (texts : Lines) (hne : buffer ≠ [])
    (htexts : ∀ text ∈ texts, text ≠ [] ∧ utf8Len text ≤ markdownSpanMaxBytes)
    (htext : textOf blocks ++ (texts.flatten ++ buffer) = read.flatten ++ fragments.flatten) :
    Ends (fun (frontier : BlockFrontier D) os =>
        Tracks read fragments
          (outputsOf 0 blocks ++ spanOutputs (utf8Len (textOf blocks)) kind.blockKind 1
            (utf8Len (textOf blocks)) texts ++ os) frontier) E
      (flushOpenSpans (spanFrontier kind (utf8Len (textOf blocks)) texts buffer)) := by
  have hflush := flushSpans_ends (D := D) (E := E) kind (utf8Len (textOf blocks)) read fragments
    hne le_rfl htexts
  refine .mono hflush fun frontier os hopen => ?_
  exact ⟨blocks, _, _, hblk, hopen, htext, append_assoc _ _ _⟩

/-- With no block open, the closed blocks are the whole text. -/
theorem Tracks.blocks_of_none (h : Tracks read fragments outputs frontier)
    (hnone : frontier.openBlock = none) : fragments = [] ∧ frontier.closed = utf8Len read.flatten
      ∧ ∃ blocks, (∀ block ∈ blocks, block.WellFormed)
        ∧ textOf blocks = read.flatten ∧ outputs = outputsOf 0 blocks := by
  obtain ⟨blocks, text, pending, hblk, hopen, htext, rfl⟩ := h
  cases hopen with
  | closed hwhole =>
    simp only [hwhole, append_nil, flatten_nil] at htext ⊢
    exact ⟨trivial, by rw [htext], blocks, hblk, htext, rfl⟩
  | span | code | table => exact absurd hnone (by simp)

variable (h : Tracks read [] outputs ⟨utf8Len read.flatten, none⟩)
include h

/-- Text that no block is open for starts a block. -/
theorem startSpan_ends (kind : SpanKind) (hne : more ≠ []) {read' fragments' : Lines}
    (hmore : read.flatten ++ more = read'.flatten ++ fragments'.flatten) :
    Ends (fun frontier os => Tracks read' fragments' (outputs ++ os) frontier) E
      (flushOpenSpans (⟨utf8Len read.flatten,
        some (.span kind (utf8Len read.flatten) 1 more)⟩ : BlockFrontier D)) := by
  obtain ⟨-, -, blocks, hblk, htext, rfl⟩ := h.blocks_of_none rfl
  have hstart : textOf blocks ++ (([] : Lines).flatten ++ more) =
      read'.flatten ++ fragments'.flatten := by
    simpa [htext] using hmore
  have hflush := flushOpenSpans_ends (D := D) (E := E) hblk kind [] hne (by simp) hstart
  simpa [spanFrontier, htext, spanOutputs] using hflush

/-- **A line starts a block**, or is one. -/
theorem startLineBlock_ends
    (hne : line ≠ []) (hlen : utf8Len line ≤ markdownParagraphInlineMaxBytes) :
    Ends (fun frontier os => Tracks (read ++ [line]) [] (outputs ++ os) frontier) E
      (startLineBlock (⟨utf8Len read.flatten, none⟩ : BlockFrontier D) (utf8Len read.flatten)
        (utf8Len read.flatten + utf8Len line) line) := by
  have hmore : read.flatten ++ line = (read ++ [line]).flatten ++ ([] : Lines).flatten := by simp
  rw [startLineBlock]
  split
  · next fence language hfence =>
    obtain ⟨-, -, blocks, hblk, htext, rfl⟩ := h.blocks_of_none rfl
    rw [ends_emit, append_nil]
    refine ⟨blocks, line, [], hblk, ?_, by simp [htext], by simp⟩
    have hopen := @OpenAs.code D _ (utf8Len (textOf blocks)) (read ++ [line]) [] line fence language
      [] hfence (suffix_append _ _)
    simpa [htext, bodyStretches, codePreview, contentDigest] using hopen
  · split
    · next kind hkind =>
      obtain ⟨-, -, blocks, hblk, htext, rfl⟩ := h.blocks_of_none rfl
      have hblock : (spans kind [line]).WellFormed :=
        ⟨by simp, forall_mem_singleton.mpr ⟨hne, hlen⟩⟩
      have hwhole : textOf blocks ++ (spans kind [line]).text = (read ++ [line]).flatten := by
        simp [Block.text, htext]
      have htracks := tracks_of_block (D := D) hblk hblock hwhole
      rw [emitInline_eq hne, ends_emit]
      simpa [outputs, spanOutputs, htext] using htracks
    · split
      · exact startSpan_ends h .fallback hne hmore
      · exact startSpan_ends h .paragraph hne hmore

omit h

/-- A block ends before the line, which starts one of its own. -/
theorem reprocessLine_ends (hread : Lined read) (hsub : read.flatten ⊆ whole)
    (h : Tracks read [] outputs frontier) (hne : line ≠ [])
    (hlen : utf8Len line ≤ markdownParagraphInlineMaxBytes) :
    Ends (fun frontier os => Tracks (read ++ [line]) [] (outputs ++ os) frontier)
      (NulLanguage whole) (reprocessLine frontier (utf8Len read.flatten) line) := by
  refine (finishOpenBlock_ends hread hsub h).andThen ?_
  rintro frontier' os ⟨rfl, htracks⟩
  simpa using startLineBlock_ends htracks hne hlen

/-- An open block of text takes in more of it. -/
theorem appendOpenText_ends {kind : SpanKind}
    (hspan : frontier.openBlock = some (.span kind blockStart nextSpan buffer))
    (h : Tracks read fragments outputs frontier) {read' fragments' : Lines}
    (hmore : read.flatten ++ fragments.flatten ++ more = read'.flatten ++ fragments'.flatten) :
    Ends (fun frontier os => Tracks read' fragments' (outputs ++ os) frontier) E
      (appendOpenText frontier more) := by
  obtain ⟨blocks, text, pending, hblk, hopen, htext, rfl⟩ := h
  cases hopen with
  | closed | code | table => exact absurd hspan (by simp)
  | @span kind' texts buffer' hne hfits htexts =>
    have hwhole : textOf blocks ++ (texts.flatten ++ (buffer' ++ more)) =
        read'.flatten ++ fragments'.flatten := by
      rw [← hmore, ← htext]
      simp
    exact flushOpenSpans_ends hblk kind' texts (by simp [hne]) htexts hwhole

/-- **An unfinished line hands a fragment on.** -/
theorem processLongLineFragment_ends (hread : Lined read) (hsub : read.flatten ⊆ whole)
    (h : Tracks read fragments outputs frontier) {fragment : Chars} (hne : fragment ≠ []) :
    Ends (fun frontier os => Tracks read (fragments ++ [fragment]) (outputs ++ os) frontier)
      (NulLanguage whole)
      (processLongLineFragment frontier (utf8Len (read.flatten ++ fragments.flatten))
          fragment) := by
  have hmore : read.flatten ++ fragments.flatten ++ fragment =
      read.flatten ++ (fragments ++ [fragment]).flatten := by simp
  have hstart : read.flatten ++ fragment = read.flatten ++ ([] ++ [fragment]).flatten := by simp
  obtain ⟨blocks, text, pending, hblk, hopen, htext, houts⟩ := id h
  cases hopen with
  | closed hwhole =>
    obtain ⟨rfl, hclosed, -⟩ := h.blocks_of_none rfl
    simp only at hclosed
    rw [hclosed] at h ⊢
    simpa [processLongLineFragment, appendFallback] using startSpan_ends h .fallback hne hstart
  | span => exact appendOpenText_ends rfl h hmore
  | @code opening fence language lines hfence hlines =>
    subst houts
    rw [processLongLineFragment, ends_emit]
    refine ⟨blocks, opening ++ lines.flatten ++ (fragments ++ [fragment]).flatten, [], hblk,
      ?_, ?_, by simp⟩
    · have hopen := @OpenAs.code D _ (utf8Len (textOf blocks)) read (fragments ++ [fragment])
        opening fence language lines hfence hlines
      rw [bodyStretches_fragment, codePreview_fragment, map_append, map_singleton,
        contentDigest_concat, flatten_append, ← append_assoc,
        String.utf8Len_append _ [fragment].flatten] at hopen
      simpa [Stretch.text] using hopen
    · rw [← hmore, ← htext]
      simp
  | table hwhole =>
    subst hwhole
    simp only [processLongLineFragment, flatten_nil, append_nil]
    refine (finishOpenBlock_ends hread hsub h).andThen ?_
    rintro frontier' os ⟨rfl, htracks⟩
    simpa [appendFallback] using startSpan_ends htracks .fallback hne hstart

/-- The text of an open block of code is closed by its fence, or goes on. -/
theorem processLine_code_ends (hspilled : spilled line = (fragments, rest))
    (hline : fragments.flatten ++ rest = line) (hne : rest ≠ [])
    (hread : Lined (read ++ [line])) (hsub : read.flatten ⊆ whole)
    (hblk : ∀ block ∈ blocks, block.WellFormed) {lines : Lines}
    (hfence : openingFence opening = some (fence, language)) (hlines : (opening :: lines) <:+ read)
    (htext : textOf blocks ++ (opening ++ lines.flatten ++ fragments.flatten)
      = read.flatten ++ fragments.flatten) :
    Ends (fun frontier os => Tracks (read ++ [line]) [] (outputsOf 0 blocks ++ os) frontier)
      (NulLanguage whole)
      (processLine (⟨utf8Len (textOf blocks), some (.fencedCode (utf8Len (textOf blocks))
          (utf8Len (textOf blocks) + utf8Len opening) fence language
          (codePreview (bodyStretches lines fragments)) lines.length
          (utf8Len (lines.flatten ++ fragments.flatten))
          (contentDigest .code ((bodyStretches lines fragments).map Stretch.text)))⟩ :
            BlockFrontier D)
        (utf8Len (read.flatten ++ fragments.flatten)) rest (!fragments.isEmpty)) := by
  have hbefore : textOf blocks ++ (opening ++ lines.flatten) = read.flatten := by
    rw [← append_assoc, ← append_assoc] at htext
    rw [← append_assoc]
    exact append_cancel_right htext
  have hlined : Lined ([opening] ++ lines) := hread.of_append_left.of_suffix hlines
  rw [processLine]
  dsimp only
  split
  · next hclose =>
    -- the line closes the fence, so it is whole
    obtain ⟨hwhole, hclosing⟩ : fragments = [] ∧ isClosingFence rest fence = true := by
      simpa using hclose
    subst hwhole
    obtain rfl : rest = line := by simpa using hline
    have hblock : (Block.code opening fence language lines rest).WellFormed :=
      ⟨hfence, hlined.of_append_left, hlined.of_append_right,
        .inr ⟨hread.of_append_right, hclosing⟩⟩
    have hmem : opening ⊆ whole := fun c hc =>
      hsub (hbefore ▸ mem_append_right _ (mem_append_left _ hc))
    have hend : utf8Len (read.flatten ++ ([] : Lines).flatten) =
        utf8Len (textOf blocks) + utf8Len opening + utf8Len lines.flatten := by
      rw [flatten_nil, append_nil, ← hbefore]
      simp [add_assoc]
    have hwhole : textOf blocks ++ (Block.code opening fence language lines rest).text =
        (read ++ [rest]).flatten := by
      rw [flatten_append, ← hbefore]
      simp [Block.text]
    have htracks := tracks_of_block (D := D) hblk hblock hwhole
    rw [hend]
    refine (emitCode_ends _ _ _ lines.flatten rest _ _ hfence hmem).mono ?_
    rintro frontier' os ⟨rfl, rfl⟩
    rw [← hwhole] at htracks
    simpa [outputs, Block.text, add_assoc] using htracks
  · rw [ends_emit, append_nil]
    refine ⟨blocks, opening ++ (lines ++ [line]).flatten ++ ([] : Lines).flatten, [],
      hblk, ?_, ?_, by simp⟩
    · have hopen := @OpenAs.code D _ (utf8Len (textOf blocks)) (read ++ [line]) [] opening fence
        language (lines ++ [line]) hfence (by
          obtain ⟨before, rfl⟩ := hlines
          exact ⟨before, by simp⟩)
      rw [bodyStretches_line hspilled, codePreview_line, map_append, map_singleton,
        contentDigest_concat] at hopen
      have hbytes : utf8Len ((lines ++ [line]).flatten ++ ([] : Lines).flatten) =
          utf8Len (lines.flatten ++ fragments.flatten) + utf8Len rest := by
        rw [← hline]
        simp [add_assoc]
      rw [hbytes, length_append, length_singleton] at hopen
      have hempty : rest.isEmpty = false := by simpa using hne
      simpa only [Stretch.text, hempty, Bool.false_eq_true, if_false] using hopen
    · have hmore : (read ++ [line]).flatten = read.flatten ++ line := by simp
      rw [hmore, ← hbefore]
      simp

section

variable (hread : Lined (read ++ [line]))
  (hblock : frontier.openBlock = some (.span .paragraph blockStart nextSpan buffer))
include hread hblock

/-- A paragraph is interrupted by the line, or takes it in. -/
theorem continueParagraph_ends (hline : fragments.flatten ++ rest = line)
    (hsub : (read ++ [line]).flatten ⊆ whole) (hne : rest ≠ [])
    (hlen : utf8Len rest ≤ markdownParagraphInlineMaxBytes)
    (h : Tracks read fragments outputs frontier) :
    Ends (fun frontier os => Tracks (read ++ [line]) [] (outputs ++ os) frontier)
      (NulLanguage whole)
      (processLine.continueParagraph frontier (utf8Len (read.flatten ++ fragments.flatten)) rest
        (!fragments.isEmpty)) := by
  have hmore : read.flatten ++ fragments.flatten ++ rest =
      (read ++ [line]).flatten ++ ([] : Lines).flatten := by
    rw [← hline]
    simp
  rw [processLine.continueParagraph]
  split
  · next hdist =>
    obtain ⟨hwhole, -⟩ : fragments = [] ∧ startsDistinctBlock rest = true := by simpa using hdist
    subst hwhole
    obtain rfl : rest = line := by simpa using hline
    have hbefore : read.flatten ⊆ whole := fun c hc => hsub (by simp [hc])
    simpa using reprocessLine_ends hread.of_append_left hbefore h hne hlen
  · refine (appendOpenText_ends hblock h hmore).andThen fun frontier' os htracks => ?_
    split
    · have hbdry : utf8Len (read.flatten ++ fragments.flatten) + utf8Len rest =
          utf8Len (read ++ [line]).flatten := by
        rw [← String.utf8Len_append, hmore, flatten_nil, append_nil]
      rw [hbdry]
      refine (finishOpenBlock_ends hread hsub htracks).mono ?_
      rintro frontier'' os' ⟨-, htracks'⟩
      simpa using htracks'
    · simpa [ends_emit] using htracks

/-- The delimiter row under a header turns a paragraph into a table. -/
theorem startTable_ends (hfirst : nextSpan = 1) (hhdr : tableColumns buffer = some columns)
    (hdelim : tableDelimiterColumns line = some columns)
    (hsingle : singleLogicalLine buffer = true) (h : Tracks read [] outputs frontier) :
    Ends (fun frontier os => Tracks (read ++ [line]) [] (outputs ++ os) frontier) E
      (emit { frontier with
        openBlock := some (.table blockStart (blockStart + utf8Len buffer) columns 0
          (appendPreview buffer line markdownTablePreviewMaxBytes)
          (utf8Len (read.flatten ++ ([] : Lines).flatten) + utf8Len line - blockStart)
          (ResourceDigest.advance (ResourceDigest.advance (ResourceDigest.seed .table) buffer)
            line)) } []) := by
  obtain ⟨blocks, text, pending, hblk, hopen, htext, rfl⟩ := h
  cases hopen with
  | closed | code | table => exact absurd hblock (by simp)
  | @span kind texts buffer' hne hfits htexts =>
    obtain ⟨rfl, rfl, rfl, rfl⟩ : kind = .paragraph ∧ utf8Len (textOf blocks) = blockStart
        ∧ texts.length + 1 = nextSpan ∧ buffer' = buffer := by
      simpa using hblock
    obtain rfl : texts = [] := length_eq_zero_iff.mp (by omega)
    have hwhole : read.flatten ++ ([] : Lines).flatten = textOf blocks ++ buffer' := by
      simpa using htext.symm
    rw [ends_emit, hwhole]
    refine ⟨blocks, buffer' ++ line ++ ([] : Lines).flatten, [], hblk, ?_, ?_, ?_⟩
    · have hlast : (textOf blocks ++ buffer').getLast? = some '\n' := by
        rw [← hwhole, flatten_nil, append_nil]
        refine hread.getLast?_flatten fun hnil => hne ?_
        exact (append_eq_nil_iff.mp (by simpa [hnil] using hwhole.symm)).2
      have hopen := @OpenAs.table D _ (utf8Len (textOf blocks)) (read ++ [line]) [] columns
        buffer' line [] rfl hhdr hdelim
        (cells_of_singleLogicalLine hsingle (by rwa [getLast?_append_of_ne_nil _ hne] at hlast))
        (suffix_append read [line])
      have hbytes : utf8Len (textOf blocks ++ buffer') + utf8Len line - utf8Len (textOf blocks) =
          utf8Len (buffer' ++ line ++ ([] : Lines).flatten) := by
        simp only [String.utf8Len_append, flatten_nil, String.utf8Len_nil]
        omega
      rw [hbytes]
      simpa [tablePreview, contentDigest] using hopen
    · simp only [flatten_nil, append_nil] at hwhole
      simp [hwhole]
    · simp [spanOutputs]

end

/-- **A line reaches the blocks.** -/
theorem processLine_ends (hspilled : spilled line = (fragments, rest))
    (hread : Lined (read ++ [line])) (hsub : (read ++ [line]).flatten ⊆ whole)
    (h : Tracks read fragments outputs frontier) :
    Ends (fun frontier os => Tracks (read ++ [line]) [] (outputs ++ os) frontier)
      (NulLanguage whole) (processLine frontier (utf8Len (read.flatten ++ fragments.flatten)) rest
        (!fragments.isEmpty)) := by
  have hline : fragments.flatten ++ rest = line := by
    have := flatten_spilled line
    rwa [hspilled] at this
  have hne : rest ≠ [] := by
    have := spilled_ne_nil (hread.ne_nil (mem_append_right _ mem_cons_self))
    rwa [hspilled] at this
  have hlen : utf8Len rest ≤ markdownParagraphInlineMaxBytes := by
    have := utf8Len_spilled_le line
    rwa [hspilled] at this
  have hbefore : read.flatten ⊆ whole := fun c hc => hsub (by simp [hc])
  have hmore : read.flatten ++ fragments.flatten ++ rest =
      (read ++ [line]).flatten ++ ([] : Lines).flatten := by
    rw [← hline]
    simp
  have hreprocess : fragments = [] →
      Ends (fun frontier os => Tracks (read ++ [line]) [] (outputs ++ os) frontier)
        (NulLanguage whole)
        (reprocessLine frontier (utf8Len (read.flatten ++ fragments.flatten)) rest) := by
    rintro rfl
    obtain rfl : rest = line := by simpa using hline
    simpa using reprocessLine_ends hread.of_append_left hbefore h hne hlen
  obtain ⟨blocks, text, pending, hblk, hopen, htext, houts⟩ := id h
  cases hopen with
  | closed hwhole =>
    obtain ⟨rfl, hclosed, -⟩ := h.blocks_of_none rfl
    obtain rfl : rest = line := by simpa using hline
    simp only at hclosed
    rw [hclosed] at h ⊢
    simpa [processLine] using startLineBlock_ends h hne hlen
  | code hfence hlines =>
    subst houts
    simpa using processLine_code_ends hspilled hline hne hread hbefore hblk hfence hlines htext
  | @table columns header delimiter rows hwhole hhdr hdelim hcells hlines =>
    subst hwhole houts
    rw [processLine]
    dsimp only
    split
    · exact hreprocess rfl
    · obtain rfl : rest = line := by simpa using hline
      rw [ends_emit]
      refine ⟨blocks, header ++ delimiter ++ (rows ++ [rest]).flatten, [], hblk, ?_, ?_, by simp⟩
      · have hopen := @OpenAs.table D _ (utf8Len (textOf blocks)) (read ++ [rest]) [] columns
          header delimiter (rows ++ [rest]) rfl hhdr hdelim hcells
          (suffix_append_self_iff.mpr hlines)
        rw [tablePreview_row, ← cons_append, ← cons_append, contentDigest_concat,
          flatten_append, ← append_assoc, String.utf8Len_append _ [rest].flatten] at hopen
        simpa using hopen
      · rw [← hmore, ← htext]
        simp
  | @span kind texts buffer =>
    cases kind with
    | fallback =>
      simp only [processLine]
      split
      · next hdist =>
        obtain ⟨hwhole, -⟩ : fragments = [] ∧ isBlank rest = false := by simpa using hdist
        exact hreprocess hwhole
      · exact appendOpenText_ends rfl h hmore
    | paragraph =>
      have hcont := continueParagraph_ends hread rfl hline hsub hne hlen h
      simp only [processLine]
      split
      · next columns hdelim =>
        split
        · next htable =>
          simp only [Bool.and_eq_true, Bool.not_eq_true', Bool.not_eq_false', beq_iff_eq,
            List.isEmpty_iff] at htable
          obtain ⟨⟨⟨hwhole, hfirst⟩, hsingle⟩, hhdr⟩ := htable
          subst hwhole
          obtain rfl : rest = line := by simpa using hline
          exact startTable_ends hread rfl hfirst hhdr hdelim hsingle h
        · exact hcont
      · exact hcont

end Beryl.Projection
