import Beryl.Machinery.Text

/-!
# Projection/Syntax — which Markdown block a line begins, continues or ends

The classifiers of one line: fences, headings, quotes, lists and thematic breaks, blank lines, and
the rows of a pipe table.  A line is the list of its characters, with its line ending if it has one.
Every byte the source tests is an ASCII byte, which no byte of a longer character equals, so the
tests are made on characters.
-/

namespace Beryl.Projection

open Text
open String (utf8Len)

/-! ## Trimming -/

/-- The ASCII whitespace characters: tab, line feed, form feed, carriage return and space. -/
def isAsciiWhitespace (c : Char) : Bool :=
  c == '\t' || c == '\n' || c == '\x0c' || c == '\r' || c == ' '

/-- A space or a tab. -/
def isBlankChar (c : Char) : Bool := c == ' ' || c == '\t'

/-- Without its first character. -/
def stripPrefix (c : Char) (source : Chars) : Option Chars :=
  match source with
  | d :: ds => if d = c then some ds else none
  | [] => none

/-- Without its last character. -/
def stripSuffix (c : Char) (source : Chars) : Option Chars :=
  (stripPrefix c source.reverse).map List.reverse

/-- The line without its line feed, or its carriage return and line feed. -/
def trimLineEnding (line : Chars) : Chars :=
  match stripSuffix '\n' line with
  | none => line
  | some rest => (stripSuffix '\r' rest).getD rest

/-! ## Lines -/

/-- The delimiter of an open fenced code block. -/
structure MarkdownFenceMarker where
  byte : Char
  length : ℕ
deriving DecidableEq

/-- The longest fence the one-byte length of a marker holds. -/
def fenceLengthMax : ℕ := 255

/-- The longest language name a fence hands on. -/
def languageMaxBytes : ℕ := 256

/-- The first word of a text. -/
def firstWord (source : Chars) : Option Chars :=
  match (source.dropWhile isAsciiWhitespace).takeWhile (fun c => !isAsciiWhitespace c) with
  | [] => none
  | word => some word

/-- A fence and its language. -/
def openingFence (line : Chars) : Option (MarkdownFenceMarker × Option Chars) :=
  let source := trimLineEnding line
  let indent := (source.takeWhile (· == ' ')).length
  if 3 < indent then none
  else
    let rest := source.drop indent
    match rest with
    | [] => none
    | byte :: _ =>
      if byte ≠ '\x60' ∧ byte ≠ '~' then none
      else
        let length := (rest.takeWhile (· == byte)).length
        if length < 3 ∨ fenceLengthMax < length then none
        else
          let info := trim (rest.drop length)
          if byte = '\x60' ∧ '\x60' ∈ info then none
          else
            let language := (firstWord info).filter fun word => utf8Len word ≤ languageMaxBytes
            some (⟨byte, length⟩, language)

/-- It closes the fence. -/
def isClosingFence (line : Chars) (fence : MarkdownFenceMarker) : Bool :=
  let source := trimLineEnding line
  let indent := (source.takeWhile (· == ' ')).length
  if 3 < indent then false
  else
    let rest := source.drop indent
    let length := (rest.takeWhile (· == fence.byte)).length
    decide (fence.length ≤ length) && (rest.drop length).all isBlankChar

/-- The kinds of block a projection tells apart. -/
inductive MarkdownBlockKind
  | paragraph
  | heading (level : ℕ)
  | blockQuote | list | thematicBreak | fencedCode | table | fallback
deriving DecidableEq

/-- An item of a list. -/
def isListLine (source : Chars) : Bool :=
  match source with
  | [] => false
  | first :: rest =>
    if first == '-' || first == '+' || first == '*' then
      rest.head?.any isBlankChar
    else
      let digits := (source.takeWhile Char.isDigit).length
      digits != 0 && source[digits]?.any (fun c => c == '.' || c == ')')
        && source[digits + 1]?.any isBlankChar

/-- Three rules or more. -/
def isThematicBreak (source : Chars) : Bool :=
  match source.filter (fun c => !isBlankChar c) with
  | [] => false
  | first :: rest =>
    decide (3 ≤ (first :: rest).length) && (first == '-' || first == '_' || first == '*')
      && (first :: rest).all (· == first)

/-- The block that it is alone. -/
def oneLineBlockKind (line : Chars) : Option MarkdownBlockKind :=
  let source := trimLineEnding line
  let trimmed := source.dropWhile (· == ' ')
  if 3 < source.length - trimmed.length then none
  else
    let heading := (trimmed.takeWhile (· == '#')).length
    if 1 ≤ heading ∧ heading ≤ 6 ∧ trimmed[heading]?.any isBlankChar then
      some (.heading heading)
    else if trimmed.head? = some '>' then some .blockQuote
    else if isListLine trimmed then some .list
    else if isThematicBreak trimmed then some .thematicBreak
    else none

/-- It ends a paragraph. -/
def startsDistinctBlock (line : Chars) : Bool :=
  (openingFence line).isSome || (oneLineBlockKind line).isSome

/-- At most one line feed, and that at the end. -/
def singleLogicalLine (source : Chars) : Bool :=
  match source.dropWhile (fun c => !(c == '\n')) with
  | [] => true
  | _ :: rest => rest.isEmpty

/-- Nothing but blanks. -/
def isBlank (line : Chars) : Bool := (trimLineEnding line).all isBlankChar

/-! ## Pipe tables -/

namespace TableSyntax

/-- A table line without its line ending. -/
def content (line : Chars) : Chars := trimLineEnding line

/-- The byte range of a line that holds its cells: what stands between the outer pipes. -/
def cellBounds (line : Chars) : ℕ × ℕ :=
  let source := content line
  let trimmed := trim source
  let leading := utf8Len source - utf8Len (trimStart source)
  let trailing := leading + utf8Len trimmed
  let piped := trimmed.head? = some '|'
  let start := if piped then leading + 1 else 0
  let stop :=
    if (if piped then 1 else 0) < utf8Len trimmed ∧ trimmed.getLast? = some '|' then trailing - 1
    else if trimmed = ['|'] then start
    else utf8Len source
  (start, stop)

/-- What a cell scan carries from one byte to the next. -/
structure SeparatorState where
  escaped : Bool := false
  inCode : Bool := false
deriving DecidableEq

/-- Whether a byte separates two cells, and the scan behind it. -/
def separator (byte : Char) (state : SeparatorState) : Bool × SeparatorState :=
  if state.escaped then (false, { state with escaped := false })
  else if byte = '\\' then (false, { state with escaped := true })
  else if byte = '\x60' then (false, { state with inCode := !state.inCode })
  else (byte == '|' && !state.inCode, state)

/-- The number of separators a scan meets. -/
def countSeparators : SeparatorState → Chars → ℕ
  | _, [] => 0
  | state, c :: cs =>
    let (found, state) := separator c state
    (if found then 1 else 0) + countSeparators state cs

/-- The cells, if several. -/
def columns (line : Chars) : Option ℕ :=
  let (start, stop) := cellBounds line
  let count := 1 + countSeparators {} (takeBytes (stop - start) (dropBytes start line))
  if 1 < count then some count else none

/-- The cells of a delimiter row. -/
def delimiterCells (line : Chars) : Lines :=
  let source := trim (content line)
  let source := (stripPrefix '|' source).getD source
  let source := (stripSuffix '|' source).getD source
  source.splitOn '|'

/-- The colons of a delimiter. -/
def delimiterAlignment (cell : Chars) : Option (Bool × Bool) :=
  let cell := trim cell
  let left := cell.head? == some ':'
  let right := cell.getLast? == some ':'
  let source := (stripPrefix ':' cell).getD cell
  let source := (stripSuffix ':' source).getD source
  if 3 ≤ source.length ∧ source.all (· == '-') then some (left, right) else none

/-- The cells, if all delimit. -/
def delimiterColumns (line : Chars) : Option ℕ :=
  if (delimiterCells line).all fun cell => (delimiterAlignment cell).isSome then
    some (delimiterCells line).length
  else none

end TableSyntax

/-- The cells of a row. -/
def tableColumns (line : Chars) : Option ℕ := TableSyntax.columns line

/-- The cells of a delimiter row. -/
def tableDelimiterColumns (line : Chars) : Option ℕ := TableSyntax.delimiterColumns line

/-- It has several cells. -/
def looksLikeTableRow (line : Chars) : Bool := (tableColumns line).isSome

example : tableColumns "| a | b |\n".toList = some 2 := by decide +kernel

example : tableDelimiterColumns "|---|:-:|\n".toList = none := by decide +kernel

example : openingFence "```rust x\n".toList = some (⟨'\x60', 3⟩, some "rust".toList) := by
  decide +kernel

end Beryl.Projection
