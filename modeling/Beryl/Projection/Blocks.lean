import Beryl.Projection.Stretches

/-!
# Projection/Blocks — a text as the blocks it consists of

The abstract side of the parser: a text is a list of *blocks*, and every block stands for the
outputs it is projected to.  A block of text is cut into spans; a code block is a fence, its lines
and, unless the source ends first, a closing fence; a large table is kept whole.  `outputsOf` lists
the outputs of all blocks, each at the byte where the blocks before it end.
-/

namespace Beryl.Projection

open Text List
open String (utf8Len)

/-! ## What a resource shows and hashes -/

/-- The preview of code and its number of lines, after one more stretch. -/
def previewStretch (shown : Chars × ℕ) : Stretch → Chars × ℕ
  | .fragment text => (appendPreview shown.1 text markdownCodePreviewMaxBytes, shown.2)
  | .line text _ =>
    (if shown.2 < markdownCodePreviewMaxLines then
      appendPreview shown.1 text markdownCodePreviewMaxBytes else shown.1, shown.2 + 1)

/-- The preview of the stretches of a code block. -/
def codePreview (stretches : List Stretch) : Chars := (stretches.foldl previewStretch ([], 0)).1

/-- The preview of a table: its header, its delimiter row and its first rows. -/
def tablePreview (header delimiter : Chars) (rows : Lines) : Chars :=
  (rows.take markdownTablePreviewMaxBodyRows).foldl
    (fun preview row => appendPreview preview row markdownTablePreviewMaxBytes)
    (appendPreview header delimiter markdownTablePreviewMaxBytes)

/-- The digest of a resource that was read in stretches. -/
def contentDigest {D : Type} [ResourceDigest D] (kind : ResourceKind) (texts : Lines) : D :=
  texts.foldl ResourceDigest.advance (ResourceDigest.seed kind)

/-- The stretches of whole lines, and of one more line as far as it has been spilled. -/
def bodyStretches (lines fragments : Lines) : List Stretch :=
  lines.flatMap lineStretches ++ fragments.map .fragment

/-! ## Blocks -/

/-- A block of a text. -/
inductive Block
  /-- text in spans -/
  | spans (kind : MarkdownBlockKind) (texts : Lines)
  /-- a fence, the lines of code under it, and the line that closes it, if there is one -/
  | code (opening : Chars) (fence : MarkdownFenceMarker) (language : Option Chars)
      (lines : Lines) (closing : Chars)
  /-- a table too large to be shown inline -/
  | table (columns : ℕ) (header delimiter : Chars) (rows : Lines)

namespace Block

/-- The text of a block. -/
def text : Block → Chars
  | spans _ texts => texts.flatten
  | code opening _ _ lines closing => opening ++ lines.flatten ++ closing
  | table _ header delimiter rows => header ++ delimiter ++ rows.flatten

/-- The bytes of a block. -/
def size (block : Block) : ℕ := utf8Len block.text

variable {D : Type} [ResourceDigest D]

/-- A range of `length` bytes from `start` on. -/
def rangeAt (start length : ℕ) : ProjectionSourceRange :=
  ⟨start, start + length, Nat.le_add_right _ _⟩

/-- The spans of a block, from ordinal `ordinal` and byte `start` on. -/
def spanOutputs (blockStart : ℕ) (kind : MarkdownBlockKind) : ℕ → ℕ → Lines → Outputs D
  | _, _, [] => []
  | ordinal, start, text :: texts =>
    .inline blockStart kind ordinal (rangeAt start (utf8Len text))
      :: spanOutputs blockStart kind (ordinal + 1) (start + utf8Len text) texts

/-- The outputs of a block that starts at byte `start`. -/
def outputs (start : ℕ) : Block → Outputs D
  | spans kind texts => spanOutputs start kind 1 start texts
  | code opening _ language lines _ =>
    [.resource start .fencedCode (rangeAt (start + utf8Len opening) (utf8Len lines.flatten))
      (codePreview (bodyStretches lines [])) (.code language lines.length)
      (contentDigest .code ((bodyStretches lines []).map Stretch.text))]
  | table columns header delimiter rows =>
    [.resource start .table
      (rangeAt start (utf8Len (header ++ delimiter ++ rows.flatten)))
      (tablePreview header delimiter rows)
      (.table rows.length columns (rangeAt 0 (utf8Len header)))
      (contentDigest .table (header :: delimiter :: rows))]

/-- A block the parser can have read. -/
def WellFormed : Block → Prop
  | spans _ texts => texts ≠ [] ∧ ∀ text ∈ texts,
      text ≠ [] ∧ utf8Len text ≤ markdownParagraphInlineMaxBytes
  | code opening fence language lines closing =>
    openingFence opening = some (fence, language) ∧ Lined [opening] ∧ Lined lines
      ∧ (closing = [] ∨ Lined [closing] ∧ isClosingFence closing fence = true)
  | table columns header delimiter rows =>
    tableColumns header = some columns ∧ tableDelimiterColumns delimiter = some columns
      ∧ Lined (header :: delimiter :: rows)
      ∧ (markdownTableInlineMaxBytes < utf8Len (header ++ delimiter ++ rows.flatten)
        ∨ markdownTableInlineMaxBodyRows < rows.length ∨ markdownTableInlineMaxColumns < columns)

end Block

/-- The text of blocks. -/
def textOf (blocks : List Block) : Chars := (blocks.map Block.text).flatten

/-- The outputs of blocks that follow one another from byte `start` on. -/
def outputsOf {D : Type} [ResourceDigest D] : ℕ → List Block → Outputs D
  | _, [] => []
  | start, block :: blocks => block.outputs start ++ outputsOf (start + block.size) blocks

section

variable {D : Type} [ResourceDigest D]

theorem bodyStretches_fragment (lines fragments : Lines) (fragment : Chars) :
    bodyStretches lines (fragments ++ [fragment]) =
      bodyStretches lines fragments ++ [.fragment fragment] := by
  simp [bodyStretches]

/-- The rest of a line completes its fragments. -/
theorem bodyStretches_line {lines fragments : Lines} {line rest : Chars}
    (hline : spilled line = (fragments, rest)) : bodyStretches (lines ++ [line]) [] =
      bodyStretches lines fragments ++ [.line rest (!fragments.isEmpty)] := by
  simp [bodyStretches, lineStretches, hline]

theorem previewStretch_fragments (shown : Chars × ℕ) (fragments : Lines) :
    ((fragments.map Stretch.fragment).foldl previewStretch shown).2 = shown.2 := by
  induction fragments generalizing shown with
  | nil => rfl
  | cons fragment fragments ih => exact ih _

/-- A preview counts the lines it has seen. -/
theorem previewStretch_lines (shown : Chars × ℕ) (lines fragments : Lines) :
    ((bodyStretches lines fragments).foldl previewStretch shown).2 = shown.2 + lines.length := by
  induction lines generalizing shown with
  | nil => exact previewStretch_fragments shown fragments
  | cons line lines ih =>
    have hcons : bodyStretches (line :: lines) fragments =
        lineStretches line ++ bodyStretches lines fragments := by
      simp [bodyStretches]
    have hline : ((lineStretches line).foldl previewStretch shown).2 = shown.2 + 1 := by
      simp [lineStretches, previewStretch, previewStretch_fragments]
    rw [hcons, foldl_append, ih, hline, length_cons, add_assoc, add_comm 1]

theorem codePreview_fragment (stretches : List Stretch) (fragment : Chars) :
    codePreview (stretches ++ [.fragment fragment]) =
      appendPreview (codePreview stretches) fragment markdownCodePreviewMaxBytes := by
  simp [codePreview, previewStretch]

theorem codePreview_line (lines fragments : Lines) (rest : Chars) (continuation : Bool) :
    codePreview (bodyStretches lines fragments ++ [.line rest continuation]) =
      if lines.length < markdownCodePreviewMaxLines then
        appendPreview (codePreview (bodyStretches lines fragments)) rest markdownCodePreviewMaxBytes
      else codePreview (bodyStretches lines fragments) := by
  simp [codePreview, previewStretch, previewStretch_lines]

theorem tablePreview_row (header delimiter : Chars) (rows : Lines) (row : Chars) :
    tablePreview header delimiter (rows ++ [row]) =
      if rows.length < markdownTablePreviewMaxBodyRows then
        appendPreview (tablePreview header delimiter rows) row markdownTablePreviewMaxBytes
      else tablePreview header delimiter rows := by
  simp only [tablePreview]
  split
  · next h =>
    rw [take_of_length_le (by rw [length_append]; exact h),
      take_of_length_le (le_of_lt h), foldl_append]
    rfl
  · next h => rw [take_append_of_le_length (not_lt.mp h)]

theorem contentDigest_concat (kind : ResourceKind) (texts : Lines) (text : Chars) :
    (contentDigest kind (texts ++ [text]) : D) =
      ResourceDigest.advance (contentDigest kind texts) text := by
  simp [contentDigest]

@[simp] theorem textOf_nil : textOf [] = [] := rfl

@[simp] theorem textOf_concat (blocks : List Block) (block : Block) :
    textOf (blocks ++ [block]) = textOf blocks ++ block.text := by
  simp [textOf]

theorem outputsOf_concat (start : ℕ) (blocks : List Block) (block : Block) :
    (outputsOf start (blocks ++ [block]) : Outputs D) =
      outputsOf start blocks ++ block.outputs (start + utf8Len (textOf blocks)) := by
  induction blocks generalizing start with
  | nil => simp [outputsOf]
  | cons first blocks ih =>
    simp only [cons_append, outputsOf, ih, append_assoc]
    simp [textOf, Block.size, add_assoc]

omit [ResourceDigest D] in
theorem spanOutputs_append (blockStart : ℕ) (kind : MarkdownBlockKind) (ordinal start : ℕ)
    (texts more : Lines) :
    (Block.spanOutputs blockStart kind ordinal start (texts ++ more) : Outputs D) =
      Block.spanOutputs blockStart kind ordinal start texts
        ++ Block.spanOutputs blockStart kind (ordinal + texts.length)
          (start + utf8Len texts.flatten) more := by
  induction texts generalizing ordinal start with
  | nil => simp [Block.spanOutputs]
  | cons text texts ih =>
    simp only [cons_append, Block.spanOutputs, ih]
    simp [add_assoc, add_comm, Nat.add_left_comm]

end

end Beryl.Projection
